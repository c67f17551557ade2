import PolicyGates.Proofs.Decimal.Setting
import PolicyGates.Proofs.Double.Results
/-!
# Whole numbers at the start of a text

The digits of a whole number are read as the double of that number, whatever its size (`leadingCount?_repr`).  Past
the middle between the last double and the next power of two there is no double left, and the number is read as
infinity (`isFinite_ofNat_iff`).
-/
namespace PolicyGates

namespace Double

/-! ## Where the doubles end -/

/-- The first whole number for which there is no double: half a place past the last one. -/
def firstInfinite : Nat := (2 ^ 54 - 1) * 2 ^ 970

/-- **Rounding reaches a power of two from half a place below it.** -/
theorem two_pow_le_nearest_iff {n k : Nat} : 2 ^ (54 + k) ≤ nearest n ↔ (2 ^ 54 - 1) * 2 ^ k ≤ n := by
  have hpos := Nat.two_pow_pos k
  have hpow : 2 ^ (54 + k) = 2 ^ 54 * 2 ^ k := Nat.pow_add 2 54 k
  have hstart : 2 ^ 52 * (1 * 2 ^ (k + 1)) = 2 ^ 53 * 2 ^ k := by ring
  rcases Nat.lt_or_ge n (2 ^ 53 * 2 ^ k) with hlow | hlow
  · have hle : nearest n ≤ 1 * 2 ^ (53 + k) := by
      rw [← nearest_of_places (m := 1) (by decide) (53 + k), Nat.one_mul, Nat.pow_add]
      exact nearest_le_nearest hlow.le
    rw [Nat.one_mul, Nat.pow_add] at hle
    omega
  · rcases Nat.lt_or_ge n (2 ^ 54 * 2 ^ k) with hhigh | hhigh
    · -- the last binade below the power
      have hend : 2 ^ 53 * (1 * 2 ^ (k + 1)) = 2 ^ 54 * 2 ^ k := by ring
      have hround := roundDiv_within n (show 0 < 2 * 2 ^ k by omega)
      rw [← nearestTo_one, nearestTo_of_binade Nat.one_pos (hstart ▸ hlow) (hend ▸ hhigh), Nat.one_mul,
        Nat.pow_succ', hpow]
      constructor
      · intro h
        omega
      · intro h
        -- half a place below the power is the middle, and the even side of it is the power
        have hmiddle : 2 ^ 53 ≤ roundDiv n (2 * 2 ^ k) := by
          rw [← show roundDiv ((2 ^ 54 - 1) * 2 ^ k) (2 * 2 ^ k) = 2 ^ 53 from roundDiv_mul_mul _ _ hpos]
          exact roundDiv_le_roundDiv h _
        have := Nat.mul_le_mul_right (2 * 2 ^ k) hmiddle
        omega
    · have hle : 1 * 2 ^ (54 + k) ≤ nearest n := by
        rw [← nearest_of_places (m := 1) (by decide) (54 + k), Nat.one_mul, hpow]
        exact nearest_le_nearest hhigh
      omega

/-- **A whole number has a finite double up to there.** -/
theorem isFinite_ofNat_iff {n : Nat} : (Float.ofNat n).isFinite = true ↔ n < firstInfinite := by
  obtain ⟨w, hw, hwhole⟩ := wholeLevel_eq
  obtain ⟨i, hi, hinfinite⟩ := infiniteLevel_eq
  obtain ⟨k, hk, hfirst⟩ : ∃ k, k = 970 ∧ firstInfinite = (2 ^ 54 - 1) * 2 ^ k := ⟨970, rfl, rfl⟩
  have hreach : infiniteLevel ≤ nearest (wholeLevel n) ↔ firstInfinite ≤ n := by
    rw [hinfinite, show i = 54 + (k + w) by omega, two_pow_le_nearest_iff, hwhole, hfirst, Nat.pow_add, ← Nat.mul_assoc]
    exact Nat.mul_le_mul_right_iff (Nat.two_pow_pos w)
  rw [isFinite_iff (isNaN_ofNat n), (level_ofNat n).2, rounded_natCast, Int.natAbs_natCast, ← not_le,
    ← not_le, ← hreach]
  omega

end Double

namespace Decimal

open Double

/-! ## The digits of a number -/

/-- Digits are read to the nearest double, just as the number that they write is taken to one. -/
theorem nearest_digitsOf {n : Nat} (h : 0 < n) : nearest (digitsOf n) 0 = Float.ofNat n := by
  have hdigit : ∀ c ∈ digitsOf n, c.isDigit = true := fun c hc => isDigit_digitsOf hc
  obtain ⟨hnan, hlevel⟩ := level_nearest hdigit 0
  have hvalue : decimalLevel (valueOfDigits (digitsOf n)) 0 = Double.nearest (wholeLevel n) := by
    rw [digitsOf, valueOfDigits_toDigits, ← nearestTo_one, decimalLevel, Int.neg_zero, Int.toNat_zero,
      Nat.pow_zero, Nat.mul_one]
  rw [hvalue, ← rounded_natCast, ← (level_ofNat n).2] at hlevel
  refine eq_of_level hnan hlevel ?_
  rw [hlevel, (level_ofNat n).2]
  exact (rounded_pos (Int.natCast_pos.2 (wholeLevel_pos h))).ne'

/-- **The digits of a positive number are read as its double.** -/
theorem leadingCount?_toString {n : Nat} (h : 0 < n) : leadingCount? (toString n) = some (Float.ofNat n) := by
  have hchars : (toString n).toList = digitsOf n := Nat.toList_repr
  have hdigit : ∀ c ∈ digitsOf n, c.isDigit = true := fun c hc => isDigit_digitsOf hc
  obtain ⟨c, cs, hcs⟩ : ∃ c cs, digitsOf n = c :: cs := List.exists_cons_of_ne_nil Nat.toDigits_ne_nil
  have hc : c.isDigit = true := hdigit c (hcs ▸ List.mem_cons_self)
  have hblank : (digitsOf n).dropWhile Text.isBlank = digitsOf n := by
    rw [hcs]
    exact List.dropWhile_cons_of_neg (by rw [Text.isBlank_of_isDigit hc]; decide)
  have hsign : splitSign (digitsOf n) = (false, digitsOf n) := by
    rw [hcs]
    exact splitSign_of_isDigit hc cs
  have hspan : spanDigits (digitsOf n) = (digitsOf n, []) := by
    have := spanDigits_append hdigit (r := []) (fun c hc => by cases hc)
    rwa [List.append_nil] at this
  unfold leadingCount?
  rw [hchars, hblank, hsign]
  dsimp only
  rw [hspan]
  dsimp only
  rw [if_neg (hcs ▸ List.cons_ne_nil c cs), assemble, List.append_nil, ← nearest_digitsOf h]
  rfl

end Decimal
end PolicyGates
