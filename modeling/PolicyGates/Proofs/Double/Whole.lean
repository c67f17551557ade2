import PolicyGates.Decimal.Binary
import PolicyGates.Proofs.Double.Scientific
/-!
# Whole numbers among the doubles

Every whole number up to `2^53` is a double of its own (`level_ofNat_of_le`), sums of them are exact
(`ofNat_add_ofNat`) and they are compared as whole numbers (`ofNat_le_iff`).  Past `2^53` counting stands still
(`counted_succ`).
-/
namespace PolicyGates.Double

open Float.Model (UnpackedFloat Format)
open Float.Model.UnpackedFloat

/-- **The double of a whole number is the nearest to it**, and infinite if there is none. -/
theorem level_ofNat (n : Nat) : (Float.ofNat n).isNaN = false ∧ level (Float.ofNat n) = rounded (wholeLevel n) := by
  rcases Nat.eq_zero_or_pos n with rfl | hn
  · rw [wholeLevel_zero, Int.natCast_zero, rounded_zero]
    exact ⟨by decide, by decide⟩
  · have h := level_ofScientific_mul hn (Nat.zero_le 2048)
    rw [Nat.pow_zero, Nat.mul_one] at h
    rw [rounded_natCast]
    exact h

theorem isNaN_ofNat (n : Nat) : (Float.ofNat n).isNaN = false := (level_ofNat n).1

theorem ofNat_le_ofNat {m n : Nat} (h : m ≤ n) : Float.ofNat m ≤ Float.ofNat n := by
  rw [le_iff (isNaN_ofNat m) (isNaN_ofNat n), (level_ofNat m).2, (level_ofNat n).2]
  exact rounded_le_rounded (Int.ofNat_le.2 (Nat.mul_le_mul_right _ h))

/-! ## Up to `2^53` -/

section Limited

variable {m n : Nat} (hm : m ≤ limit) (hn : n ≤ limit)

include hn in
theorem level_ofNat_of_le : level (Float.ofNat n) = wholeLevel n := by
  rw [(level_ofNat n).2, rounded_wholeLevel hn]

include hn in
theorem isFinite_ofNat : (Float.ofNat n).isFinite = true := by
  rw [isFinite_iff (isNaN_ofNat n), level_ofNat_of_le hn, Int.natAbs_natCast]
  exact wholeLevel_lt_infinite hn

include hm hn

theorem ofNat_le_iff : Float.ofNat m ≤ Float.ofNat n ↔ m ≤ n := by
  rw [le_iff (isNaN_ofNat m) (isNaN_ofNat n), level_ofNat_of_le hm, level_ofNat_of_le hn, Int.ofNat_le, ← not_lt,
    wholeLevel_lt, not_lt]

theorem ofNat_lt_iff : Float.ofNat m < Float.ofNat n ↔ m < n := by
  rw [lt_iff (isNaN_ofNat m) (isNaN_ofNat n), level_ofNat_of_le hm, level_ofNat_of_le hn, Int.ofNat_lt, wholeLevel_lt]

theorem ofNat_beq_iff : (Float.ofNat m == Float.ofNat n) = true ↔ m = n := by
  rw [beq_iff (isNaN_ofNat m) (isNaN_ofNat n), level_ofNat_of_le hm, level_ofNat_of_le hn, Int.ofNat_inj,
    wholeLevel_injective]

end Limited

theorem maxSafe_eq : Decimal.maxSafe = Float.ofNat (limit - 1) := by decide +kernel

/-- **Sums of whole numbers are exact.** -/
theorem ofNat_add_ofNat {m n : Nat} (h : m + n ≤ limit) : Float.ofNat m + Float.ofNat n = Float.ofNat (m + n) := by
  have hm : m ≤ limit := by omega
  have hn : n ≤ limit := by omega
  rcases Nat.eq_zero_or_pos (m + n) with h0 | hpos
  · obtain ⟨rfl, rfl⟩ : m = 0 ∧ n = 0 := by omega
    decide
  · have hsum := level_add (isFinite_ofNat hm) (isFinite_ofNat hn)
    have hl : level (Float.ofNat m + Float.ofNat n) = wholeLevel (m + n) := by
      rw [hsum.2, level_ofNat_of_le hm, level_ofNat_of_le hn, ← Int.natCast_add, ← wholeLevel_add, rounded_wholeLevel h]
    have := wholeLevel_pos hpos
    refine eq_of_level hsum.1 (by rw [hl, level_ofNat_of_le h]) ?_
    rw [hl]
    omega

/-! ## Counting -/

/-- The double that counting comes to after so many steps from zero. -/
def counted (n : Nat) : Float := Float.ofNat (min n limit)

theorem counted_zero : counted 0 = 0.0 := by decide

/-- **Each step adds one**; from `2^53` on it changes nothing. -/
theorem counted_succ (n : Nat) : counted n + 1.0 = counted (n + 1) := by
  unfold counted
  rcases Nat.lt_or_ge n limit with h | h
  · rw [Nat.min_eq_left (Nat.le_of_lt h), Nat.min_eq_left h]
    exact ofNat_add_ofNat (n := 1) h
  · rw [Nat.min_eq_right h, Nat.min_eq_right (Nat.le_succ_of_le h)]
    decide

/-- **Adding a number up to one is counting at most one further.** -/
theorem add_le_counted {s x : Float} {n : Nat} (hs : s.isFinite = true) (hs0 : 0.0 ≤ s) (hn : s ≤ counted n)
    (hx : x.isFinite = true) (hx0 : 0.0 ≤ x) (hx1 : x ≤ 1.0) :
    (s + x).isFinite = true ∧ 0.0 ≤ s + x ∧ s + x ≤ counted (n + 1) := by
  have hcounted : ∀ k, (counted k).isFinite = true := fun _ => isFinite_ofNat (Nat.min_le_right _ _)
  have hlow : 0.0 ≤ s + x := zero_le_add hs hx hs0 hx0
  have hhigh : s + x ≤ counted n + 1.0 := Double.add_le_add hs (hcounted n) hx (by decide) hn hx1
  rw [counted_succ] at hhigh
  exact ⟨isFinite_of_le (a := 0.0) (by decide) (hcounted _) (level_add hs hx).1 hlow hhigh, hlow, hhigh⟩

theorem isNaN_counted (n : Nat) : (counted n).isNaN = false := isNaN_ofNat _

theorem counted_of_le {n : Nat} (h : n ≤ limit) : counted n = Float.ofNat n := by
  rw [counted, Nat.min_eq_left h]

theorem ofNat_le_counted {m n : Nat} (hm : m ≤ limit) : Float.ofNat m ≤ counted n ↔ m ≤ min n limit :=
  ofNat_le_iff hm (Nat.min_le_right _ _)

theorem ofNat_lt_counted {m n : Nat} (hm : m ≤ limit) : Float.ofNat m < counted n ↔ m < min n limit :=
  ofNat_lt_iff hm (Nat.min_le_right _ _)

theorem counted_beq_self (n : Nat) : (counted n == counted n) = true :=
  (beq_iff (isNaN_counted n) (isNaN_counted n)).2 rfl

theorem counted_inj {m n : Nat} (hm : m ≤ limit) (hn : n ≤ limit) : counted m = counted n ↔ m = n := by
  refine ⟨fun h => (ofNat_beq_iff hm hn).1 ?_, fun h => congrArg counted h⟩
  rw [counted_of_le hm, counted_of_le hn] at h
  rw [h, ← counted_of_le hn]
  exact counted_beq_self n

theorem eq_counted_of_beq {x : Float} {n : Nat} (hn : 0 < n) (h : (x == counted n) = true) : x = counted n := by
  refine eq_of_beq ?_ h
  have hpos : 0 < wholeLevel (min n limit) := wholeLevel_pos (Nat.lt_min.2 ⟨hn, by decide⟩)
  rw [counted, level_ofNat_of_le (Nat.min_le_right _ _)]
  omega

end PolicyGates.Double
