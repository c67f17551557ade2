import PolicyGates.Proofs.Double.Sum
import Mathlib.Data.Nat.Log
/-!
# Quotients of positive doubles

The quotient of two positive finite doubles is the double nearest to the quotient of their levels, however small it is
(`level_div`).  So a quotient grows with what is divided (`div_le_div`).
-/
namespace PolicyGates.Double

open Float.Model (UnpackedFloat Format)
open Float.Model.UnpackedFloat

/-! ## Fractions past the last place -/

/-- **A fraction whose last place is too small** is rounded once all the same, to the places that there are. -/
theorem standsAt_fraction_below (s : Sign) {n d j : Nat} {e : Int} (hd : 0 < d) (he : e = -1074 - (j : Int)) :
    StandsAt (roundWithAccuracy Format.binary64 s (n / d) e (accuracyOfFraction (n % d) d))
      (s.apply (min (nearestTo n (d * 2 ^ j)) infiniteLevel : Nat)) := by
  -- `j` places lie below the last one that there is, and `i` more are too many
  obtain ⟨i, hi⟩ : ∃ i, (n / d).log2 - j - 52 = i := ⟨_, rfl⟩
  have hk : excess (n / d) e = j + i := by
    unfold excess
    omega
  have hw : 0 < d * 2 ^ (j + i) := Nat.mul_pos hd (Nat.two_pow_pos _)
  have hlog : (n / d / 2 ^ j).log2 = (n / d).log2 - j := by
    rw [Nat.log2_eq_log_two, Nat.log2_eq_log_two, Nat.log_div_base_pow]
  have hnear : nearestTo n (d * 2 ^ j) = magnitude (roundDiv n (d * 2 ^ (j + i))) (e + (j + i : Nat)) := by
    rw [nearestTo, ← Nat.div_div_eq_div_mul, hlog, hi, Nat.mul_assoc, ← Nat.pow_add, magnitude,
      show (e + (j + i : Nat) + 1074).toNat = i by omega]
  rw [roundWithAccuracy_eq, hk, ((shifted_fraction n hd).shift hd (j + i)).roundedMantissa hw, hnear]
  obtain ⟨hlow, hhigh⟩ := roundDiv_bounds n (d * 2 ^ (j + i))
  have hlt : n / (d * 2 ^ (j + i)) < 2 ^ 53 := by
    rw [← Nat.div_div_eq_div_mul, Nat.div_lt_iff_lt_mul (Nat.two_pow_pos _), ← Nat.pow_add]
    exact Nat.lt_of_lt_of_le Nat.lt_log2_self (Nat.pow_le_pow_right (by decide) (by omega))
  refine standsAt_carried s (by omega) (by omega) ?_
  rcases Nat.eq_zero_or_pos i with h0 | hpos
  · exact .inr (by omega)
  · refine .inl (Nat.le_trans ?_ hlow)
    have hq : n / d ≠ 0 := by
      intro hc
      rw [hc, Nat.log2_zero] at hi
      omega
    rw [← Nat.div_div_eq_div_mul, Nat.le_div_iff_mul_le (Nat.two_pow_pos _), ← Nat.pow_add,
      show 52 + (j + i) = (n / d).log2 by omega]
    exact Nat.log2_self_le hq

/-! ## Quotients -/

/-- The exponent to which a quotient is worked out. -/
def quotientExponent (m : Nat) (e : Int) (m' : Nat) (e' : Int) : Int :=
  min (e - e') (max (m.log2 + 1 + e - (m'.log2 + 1 + e') - 53) (-1074))

theorem div_finite {m m' : Nat} {e e' : Int} (hm : 0 < m) (hm' : 0 < m') :
    div Format.binary64 (.finite .positive m e hm) (.finite .positive m' e' hm')
      = roundWithAccuracy Format.binary64 .positive (m <<< (e - e' - quotientExponent m e m' e').toNat / m')
          (quotientExponent m e m' e')
          (accuracyOfFraction (m <<< (e - e' - quotientExponent m e m' e').toNat % m') m') := by
  have hcore : divCore Format.binary64 m e m' e' = (m <<< (e - e' - quotientExponent m e m' e').toNat / m',
      quotientExponent m e m' e', accuracyOfFraction (m <<< (e - e' - quotientExponent m e m' e').toNat % m') m') := rfl
  show roundWithAccuracy Format.binary64 .positive (divCore Format.binary64 m e m' e').1
    (divCore Format.binary64 m e m' e').2.1
    (divCore Format.binary64 m e m' e').2.2 = _
  rw [hcore]

theorem places_of_quotient {m m' : Nat} {e e' : Int} (hm : 0 < m) (hm' : 0 < m') (hdiff : -1074 ≤ e - e') :
    2 ^ 52 ≤ m * 2 ^ (e - e' - quotientExponent m e m' e').toNat / m' ∨ quotientExponent m e m' e' = -1074 := by
  by_cases hc : quotientExponent m e m' e' = -1074
  · exact .inr hc
  · obtain ⟨k, hk⟩ : ∃ k, (e - e' - quotientExponent m e m' e').toNat = k := ⟨_, rfl⟩
    have hlog : m'.log2 + 53 ≤ m.log2 + k := by
      unfold quotientExponent at hc hk
      omega
    rw [hk]
    refine .inl ((Nat.le_div_iff_mul_le hm').2 ?_)
    calc 2 ^ 52 * m' ≤ 2 ^ 52 * 2 ^ (m'.log2 + 1) := Nat.mul_le_mul_left _ (Nat.le_of_lt Nat.lt_log2_self)
      _ = 2 ^ (m'.log2 + 53) := by rw [← Nat.pow_add, Nat.add_comm, Nat.add_assoc]
      _ ≤ 2 ^ (m.log2 + k) := Nat.pow_le_pow_right (by decide) hlog
      _ ≤ m * 2 ^ k := by
        rw [Nat.pow_add]
        exact Nat.mul_le_mul_right _ (Nat.log2_self_le hm.ne')

theorem magnitude_shift_mul {m m' k : Nat} {e e' t : Int} (he : -1074 ≤ e) (he' : -1074 ≤ e') (ht : -1074 ≤ t)
    (hk : e - e' = t + k) : magnitude (m * 2 ^ k) t * magnitude m' e' = magnitude m e * magnitude 1 0 * m' := by
  obtain ⟨w, hw, hone⟩ : ∃ w, w = 1074 ∧ magnitude 1 0 = 2 ^ w := ⟨((0 : Int) + 1074).toNat, rfl, Nat.one_mul _⟩
  rw [hone, magnitude, magnitude, magnitude]
  calc m * 2 ^ k * 2 ^ (t + 1074).toNat * (m' * 2 ^ (e' + 1074).toNat)
      = m * m' * 2 ^ (k + (t + 1074).toNat + (e' + 1074).toNat) := by
        rw [Nat.pow_add, Nat.pow_add]
        ring
    _ = m * 2 ^ (e + 1074).toNat * 2 ^ w * m' := by
        rw [show k + (t + 1074).toNat + (e' + 1074).toNat = (e + 1074).toNat + w by omega, Nat.pow_add]
        ring

theorem mul_magnitude_below {m m' j : Nat} {e e' : Int} (he : -1074 ≤ e) (hj : e - e' = -1074 - (j : Int)) :
    m * magnitude m' e' = magnitude m e * magnitude 1 0 * (m' * 2 ^ j) := by
  obtain ⟨w, hw, hone⟩ : ∃ w, w = 1074 ∧ magnitude 1 0 = 2 ^ w := ⟨((0 : Int) + 1074).toNat, rfl, Nat.one_mul _⟩
  rw [hone, magnitude, magnitude]
  calc m * (m' * 2 ^ (e' + 1074).toNat) = m * m' * 2 ^ ((e + 1074).toNat + w + j) := by
        rw [show (e + 1074).toNat + w + j = (e' + 1074).toNat by omega]
        ring
    _ = m * 2 ^ (e + 1074).toNat * 2 ^ w * (m' * 2 ^ j) := by
        rw [Nat.pow_add, Nat.pow_add]
        ring

/-- **A quotient of positive parts is rounded once.** -/
theorem standsAt_div_finite {m m' : Nat} {e e' : Int} (hm : 0 < m) (hm' : 0 < m') (he : -1074 ≤ e) (he' : -1074 ≤ e') :
    StandsAt (div Format.binary64 (.finite .positive m e hm) (.finite .positive m' e' hm'))
      (min (nearestTo (magnitude m e * magnitude 1 0) (magnitude m' e')) infiniteLevel : Nat) := by
  have hpos := magnitude_pos hm' e'
  rw [div_finite, Nat.shiftLeft_eq]
  by_cases hdiff : -1074 ≤ e - e'
  · obtain ⟨t, ht⟩ : ∃ t, quotientExponent m e m' e' = t := ⟨_, rfl⟩
    have hplaces := places_of_quotient hm hm' hdiff
    have hle : -1074 ≤ t ∧ t ≤ e - e' := by
      rw [← ht]
      unfold quotientExponent
      omega
    rw [ht] at hplaces ⊢
    obtain ⟨k, hk⟩ : ∃ k, (e - e' - t).toNat = k := ⟨_, rfl⟩
    rw [hk] at hplaces ⊢
    have hround := standsAt_fraction .positive hm' hle.1 hplaces
    rw [nearestTo_congr hm' hpos (magnitude_shift_mul he he' hle.1 (by omega))] at hround
    exact hround
  · -- the exponent is already below the last place, and nothing is shifted
    have ht : quotientExponent m e m' e' = e - e' := by
      unfold quotientExponent
      omega
    obtain ⟨j, hj⟩ : ∃ j : Nat, e - e' = -1074 - (j : Int) := ⟨(-1074 - (e - e')).toNat, by omega⟩
    have hround := standsAt_fraction_below .positive (n := m) hm' hj
    rw [nearestTo_congr (Nat.mul_pos hm' (Nat.two_pow_pos j)) hpos (mul_magnitude_below he hj)] at hround
    rw [ht, Int.sub_self, Int.toNat_zero, Nat.pow_zero, Nat.mul_one]
    exact hround

variable {x x' y : Float}

theorem exists_positive_parts (hf : x.isFinite = true) (h : 0 < level x) :
    ∃ m e hm, x.toModel.unpack = .finite .positive m e hm ∧ -1074 ≤ e ∧ level x = (magnitude m e : Nat) := by
  obtain ⟨s, m, e, hm, hu, hc, hlevel⟩ := exists_finite hf h.ne'
  have hpos := magnitude_pos hm e
  cases s with
  | positive => exact ⟨m, e, hm, hu, hc.2.1, hlevel⟩
  | negative =>
    change _ = -(magnitude m e : Int) at hlevel
    omega

/-- **The quotient of positive doubles is a number, and the nearest to the quotient of the levels.** -/
theorem level_div (hx : x.isFinite = true) (hy : y.isFinite = true) (hx0 : 0 < level x) (hy0 : 0 < level y) :
    (x / y).isNaN = false
    ∧ level (x / y) = (min (nearestTo ((level x).toNat * magnitude 1 0) (level y).toNat) infiniteLevel : Nat) := by
  obtain ⟨m, e, hm, hu, he, hlevel⟩ := exists_positive_parts hx hx0
  obtain ⟨m', e', hm', hu', he', hlevel'⟩ := exists_positive_parts hy hy0
  rw [hlevel, hlevel', Int.toNat_natCast, Int.toNat_natCast]
  show StandsAt (div Format.binary64 x.toModel.unpack y.toModel.unpack) _
  rw [hu, hu']
  exact standsAt_div_finite hm hm' he he'

theorem exists_div_eq_zero {u v : UnpackedFloat} (hu : u.isFinite = true) (hv : v.isNaN = false)
    (h : steps u = 0 ∧ steps v ≠ 0 ∨ v.isFinite = false) : ∃ s, div Format.binary64 u v = .zero s := by
  cases v with
  | notANumber => cases hv
  | zero s' => exact absurd rfl (h.resolve_right (by intro hc; cases hc)).2
  | infinity s' => cases u <;> first | exact ⟨_, rfl⟩ | cases hu
  | finite s' m' e' hm' =>
    have h0 := (h.resolve_right (by intro hc; cases hc)).1
    cases u with
    | notANumber => cases hu
    | infinity s => cases hu
    | zero s => exact ⟨_, rfl⟩
    | finite s m e hm =>
      have hpos := magnitude_pos hm e
      have hsteps := natAbs_apply s (magnitude m e)
      change s.apply (magnitude m e) = 0 at h0
      rw [h0] at hsteps
      exact absurd hsteps.symm hpos.ne'

theorem level_div_eq_zero (hx : x.isFinite = true) (hy : y.isNaN = false)
    (h : level x = 0 ∧ level y ≠ 0 ∨ y.isFinite = false) : (x / y).isNaN = false ∧ level (x / y) = 0 := by
  obtain ⟨s, hs⟩ := exists_div_eq_zero (u := x.toModel.unpack) (v := y.toModel.unpack) hx hy h
  show StandsAt (div Format.binary64 x.toModel.unpack y.toModel.unpack) 0
  rw [hs]
  exact standsAt_zero s

/-- **A quotient grows with what is divided.** -/
theorem div_le_div (hx : x.isFinite = true) (hx' : x'.isFinite = true) (hy : y.isNaN = false) (hx0 : 0 ≤ level x)
    (hy0 : 0 < level y) (h : x ≤ x') : x / y ≤ x' / y := by
  rw [le_iff (isNaN_of_isFinite hx) (isNaN_of_isFinite hx')] at h
  cases hyf : y.isFinite with
  | false =>
    obtain ⟨hn, hlevel⟩ := level_div_eq_zero hx hy (.inr hyf)
    obtain ⟨hn', hlevel'⟩ := level_div_eq_zero hx' hy (.inr hyf)
    rw [le_iff hn hn', hlevel, hlevel']
  | true =>
    rcases Int.lt_or_eq_of_le hx0 with hpos | hzero
    · obtain ⟨hn, hlevel⟩ := level_div hx hyf hpos hy0
      obtain ⟨hn', hlevel'⟩ := level_div hx' hyf (by omega) hy0
      have hle : (level x).toNat * magnitude 1 0 ≤ (level x').toNat * magnitude 1 0 := Nat.mul_le_mul_right _ (by omega)
      have hnear := nearestTo_le_nearestTo (d := (level y).toNat) (by omega) hle
      rw [le_iff hn hn', hlevel, hlevel']
      omega
    · obtain ⟨hn, hlevel⟩ := level_div_eq_zero hx hy (.inl ⟨hzero.symm, hy0.ne'⟩)
      rcases Int.lt_or_eq_of_le (Int.le_trans hx0 h) with hpos' | hzero'
      · obtain ⟨hn', hlevel'⟩ := level_div hx' hyf hpos' hy0
        rw [le_iff hn hn', hlevel, hlevel']
        exact Int.natCast_nonneg _
      · obtain ⟨hn', hlevel'⟩ := level_div_eq_zero hx' hy (.inl ⟨hzero'.symm, hy0.ne'⟩)
        rw [le_iff hn hn', hlevel, hlevel']

end PolicyGates.Double
