import PolicyGates.Proofs.Decimal.Parts
import PolicyGates.Proofs.Double.Results
import PolicyGates.Proofs.Double.Whole
/-!
# Products of whole numbers

A double that holds a whole number stands where that number does (`level_of_isWhole`), so it is zero or at least one.
Products of such numbers are rounded once, so they grow with their parts (`IsCount.mul_le_mul`), and a product is finite
only if its parts are (`isFinite_of_isFinite_mul`).
-/
namespace PolicyGates.Double

open Float.Model (UnpackedFloat Format)
open Float.Model.UnpackedFloat

/-! ## Comparisons of numbers -/

theorem le_trans {x y z : Float} (h : x ≤ y) (h' : y ≤ z) : x ≤ z := by
  obtain ⟨hx, hy⟩ := isNaN_of_le h
  obtain ⟨-, hz⟩ := isNaN_of_le h'
  rw [le_iff hx hy] at h
  rw [le_iff hy hz] at h'
  rw [le_iff hx hz]
  exact Int.le_trans h h'

theorem lt_of_lt_of_le {x y z : Float} (hx : x.isNaN = false) (h : x < y) (h' : y ≤ z) : x < z := by
  obtain ⟨hy, hz⟩ := isNaN_of_le h'
  rw [lt_iff hx hy] at h
  rw [le_iff hy hz] at h'
  rw [lt_iff hx hz]
  exact Int.lt_of_lt_of_le h h'

/-! ## Whole numbers -/

theorem magnitude_of_whole {m : Nat} {e : Int} (he : -1074 ≤ e) (h : 0 ≤ e ∨ 2 ^ (-e).toNat ∣ m) :
    magnitude m e = wholeLevel (if 0 ≤ e then m * 2 ^ e.toNat else m / 2 ^ (-e).toNat) := by
  obtain ⟨w, hw, hwhole⟩ := wholeLevel_eq
  rw [hwhole, magnitude]
  split
  · next hc => rw [Nat.mul_assoc, ← Nat.pow_add, show (e + 1074).toNat = e.toNat + w by omega]
  · next hc =>
    have hdvd := h.resolve_left hc
    calc m * 2 ^ (e + 1074).toNat
      _ = m / 2 ^ (-e).toNat * 2 ^ (-e).toNat * 2 ^ (e + 1074).toNat := by rw [Nat.div_mul_cancel hdvd]
      _ = m / 2 ^ (-e).toNat * 2 ^ w := by
        rw [Nat.mul_assoc, ← Nat.pow_add, show (-e).toNat + (e + 1074).toNat = w by omega]

theorem toCount_of_zero {x : Float} {s : Sign} (hu : x.toModel.unpack = .zero s) : Decimal.toCount x = 0 := by
  unfold Decimal.toCount Decimal.truncate?
  rw [Decimal.ofFloat?_eq, hu]
  cases s <;> decide +kernel

theorem exists_whole_magnitude {x : Float} (hwhole : Decimal.isWhole x = true) (h0 : level x ≠ 0) : ∃ s m e hm,
    x.toModel.unpack = .finite s m e hm ∧ level x = s.apply (magnitude m e)
      ∧ magnitude m e = wholeLevel (if 0 ≤ e then m * 2 ^ e.toNat else m / 2 ^ (-e).toNat) := by
  obtain ⟨s, m, e, hm, hu, hc, hlevel⟩ := exists_finite (Decimal.isFinite_of_isWhole hwhole) h0
  unfold Decimal.isWhole at hwhole
  rw [Decimal.ofFloat?_eq, hu] at hwhole
  change (decide (0 ≤ e) || m % Nat.pow 2 (-e).toNat == 0) = true at hwhole
  rw [Bool.or_eq_true, decide_eq_true_eq, beq_iff_eq] at hwhole
  exact ⟨s, m, e, hm, hu, hlevel, magnitude_of_whole hc.2.1 (hwhole.imp id Nat.dvd_of_mod_eq_zero)⟩

/-- **A whole number that is not negative stands where its count does.** -/
theorem level_of_isWhole {x : Float} (hwhole : Decimal.isWhole x = true) (h0 : 0.0 ≤ x) :
    level x = wholeLevel (Decimal.toCount x) := by
  have hf := Decimal.isFinite_of_isWhole hwhole
  rw [zero_le_iff (isNaN_of_isFinite hf)] at h0
  by_cases hzero : level x = 0
  · obtain ⟨s, hu⟩ := unpack_of_level_eq_zero hf hzero
    rw [hzero, toCount_of_zero hu, wholeLevel_zero]
    rfl
  · obtain ⟨s, m, e, hm, hu, hlevel, hmagnitude⟩ := exists_whole_magnitude hwhole hzero
    have hpos := magnitude_pos hm e
    obtain rfl : s = .positive := by
      cases s with
      | positive => rfl
      | negative =>
        change _ = -(magnitude m e : Int) at hlevel
        omega
    unfold Decimal.toCount Decimal.truncate?
    rw [Decimal.ofFloat?_eq, hu, hlevel]
    exact congrArg Nat.cast hmagnitude

/-- **What stands where a whole number does is that number.** -/
theorem isWhole_of_level {x : Float} {n : Nat} (hf : x.isFinite = true) (h : level x = wholeLevel n) :
    Decimal.isWhole x = true := by
  unfold Decimal.isWhole
  rw [Decimal.ofFloat?_eq]
  by_cases hzero : level x = 0
  · obtain ⟨s, hu⟩ := unpack_of_level_eq_zero hf hzero
    rw [hu]
    cases s <;> decide +kernel
  · obtain ⟨w, hw, hwhole⟩ := wholeLevel_eq
    obtain ⟨s, m, e, hm, hu, hc, hlevel⟩ := exists_finite hf hzero
    have hmag := natAbs_apply s (magnitude m e)
    rw [← hlevel, h, Int.natAbs_natCast, hwhole] at hmag
    rw [hu]
    show (decide (0 ≤ e) || m % Nat.pow 2 (-e).toNat == 0) = true
    rw [Bool.or_eq_true, decide_eq_true_eq, beq_iff_eq]
    refine (Int.lt_or_le e 0).symm.imp id fun he => Nat.mod_eq_zero_of_dvd ⟨n, ?_⟩
    have hlow : -1074 ≤ e := hc.2.1
    refine Nat.eq_of_mul_eq_mul_right (Nat.two_pow_pos (e + 1074).toNat) ?_
    calc m * 2 ^ (e + 1074).toNat = n * 2 ^ ((-e).toNat + (e + 1074).toNat) := by
          rw [show (-e).toNat + (e + 1074).toNat = w by omega]
          exact hmag.symm
      _ = 2 ^ (-e).toNat * n * 2 ^ (e + 1074).toNat := by
          rw [Nat.pow_add]
          ring

theorem toCount_of_level {x : Float} {n : Nat} (hf : x.isFinite = true) (h : level x = wholeLevel n) :
    Decimal.toCount x = n := by
  have h0 : 0.0 ≤ x := (zero_le_iff (isNaN_of_isFinite hf)).2 (by omega)
  have hcount := level_of_isWhole (isWhole_of_level hf h) h0
  rw [h, Int.ofNat_inj, wholeLevel_injective] at hcount
  exact hcount.symm

theorem level_ofNat_pos {n : Nat} (h : 0 < n) : 0 < level (Float.ofNat n) := by
  have hone : rounded (wholeLevel 1) = wholeLevel 1 := rounded_wholeLevel (by decide)
  have hpos : 0 < wholeLevel 1 := wholeLevel_pos (by decide)
  have hle : wholeLevel 1 ≤ wholeLevel n := Nat.mul_le_mul_right _ h
  have := rounded_le_rounded (Int.ofNat_le.2 hle)
  rw [(level_ofNat n).2]
  omega

theorem zero_le_ofNat (n : Nat) : 0.0 ≤ Float.ofNat n := by
  rw [zero_le_iff (isNaN_ofNat n)]
  rcases Nat.eq_zero_or_pos n with rfl | hpos
  · decide
  · exact Int.le_of_lt (level_ofNat_pos hpos)

/-! ## Zero, or at least one -/

/-- Finite, and zero or at least one. -/
structure IsCount (x : Float) : Prop where
  isFinite : x.isFinite = true
  level : level x = 0 ∨ (wholeLevel 1 : Int) ≤ level x

variable {x y y' : Float}

theorem isCount_ofNat {n : Nat} (h : (Float.ofNat n).isFinite = true) : IsCount (Float.ofNat n) := by
  refine ⟨h, ?_⟩
  rw [(level_ofNat n).2]
  rcases Nat.eq_zero_or_pos n with rfl | hn
  · rw [wholeLevel_zero, Int.natCast_zero, rounded_zero]
    exact .inl rfl
  · refine .inr ?_
    have hle : wholeLevel 1 ≤ wholeLevel n := Nat.mul_le_mul_right _ hn
    have hone : rounded (wholeLevel 1) = wholeLevel 1 := rounded_wholeLevel (by decide)
    have hrounded := rounded_le_rounded (Int.ofNat_le.2 hle)
    rwa [hone] at hrounded

/-- **A whole number that is not negative is zero or at least one.** -/
theorem isCount_of_isWhole (hwhole : Decimal.isWhole x = true) (h0 : 0.0 ≤ x) : IsCount x := by
  refine ⟨Decimal.isFinite_of_isWhole hwhole, ?_⟩
  rw [level_of_isWhole hwhole h0]
  rcases Nat.eq_zero_or_pos (Decimal.toCount x) with hzero | hpos
  · rw [hzero, wholeLevel_zero]
    exact .inl rfl
  · exact .inr (Int.ofNat_le.2 (Nat.mul_le_mul_right _ hpos))

/-! ## Products -/

theorem exists_parts_of_one_le (hf : x.isFinite = true) (h : (wholeLevel 1 : Int) ≤ level x) :
    ∃ m e hm, x.toModel.unpack = .finite .positive m e hm ∧ level x = (magnitude m e : Nat) ∧ 2 ^ 52 ≤ m ∧ -52 ≤ e := by
  have hone := wholeLevel_pos (n := 1) (by decide)
  obtain ⟨s, m, e, hm, hu, hc, hlevel⟩ := exists_finite hf (by omega)
  rw [hlevel] at h
  cases s with
  | negative =>
    change _ ≤ -(magnitude m e : Int) at h
    omega
  | positive =>
    have hle : wholeLevel 1 ≤ magnitude m e := Int.ofNat_le.1 h
    have he : -52 ≤ e := by
      by_contra hc'
      refine Nat.not_lt.2 hle ?_
      rw [wholeLevel, magnitude, magnitude, Nat.one_mul]
      exact places_lt hc.1 (by omega)
    exact ⟨m, e, hm, hu, hlevel, hc.2.2.2.resolve_right (by omega), he⟩

/-- **A product of numbers that are at least one is rounded once.** -/
theorem level_mul (hx : x.isFinite = true) (hy : y.isFinite = true) (hx1 : (wholeLevel 1 : Int) ≤ level x)
    (hy1 : (wholeLevel 1 : Int) ≤ level y) : ∃ k : Nat, (k : Int) * wholeLevel 1 = level x * level y
      ∧ (x * y).isNaN = false ∧ level (x * y) = (min (nearest k) infiniteLevel : Nat) := by
  obtain ⟨m, e, hm, hu, hlevel, hplaces, he⟩ := exists_parts_of_one_le hx hx1
  obtain ⟨m', e', hm', hu', hlevel', -, he'⟩ := exists_parts_of_one_le hy hy1
  refine ⟨magnitude (m * m') (e + e'), ?_, ?_⟩
  · rw [hlevel, hlevel', ← Int.natCast_mul, ← Int.natCast_mul, magnitude_mul_magnitude (by omega) (by omega) (by omega)]
  · show StandsAt (mul Format.binary64 x.toModel.unpack y.toModel.unpack) _
    rw [hu, hu', mul_finite]
    exact standsAt_roundWithAccuracy .positive (by omega) (.inl (Nat.le_trans hplaces (Nat.le_mul_of_pos_right _ hm')))

theorem level_mul_of_zero (hx : x.isFinite = true) (hy : y.isFinite = true) (h : level x = 0 ∨ level y = 0) :
    (x * y).isNaN = false ∧ level (x * y) = 0 := by
  have hzero : ∃ s, mul Format.binary64 x.toModel.unpack y.toModel.unpack = .zero s := by
    change x.toModel.unpack.isFinite = true at hx
    change y.toModel.unpack.isFinite = true at hy
    rcases h with h | h
    · obtain ⟨s, hs⟩ := unpack_of_level_eq_zero hx h
      rw [hs]
      cases hv : y.toModel.unpack <;> rw [hv] at hy <;> first | exact ⟨_, rfl⟩ | cases hy
    · obtain ⟨s, hs⟩ := unpack_of_level_eq_zero hy h
      rw [hs]
      cases hv : x.toModel.unpack <;> rw [hv] at hx <;> first | exact ⟨_, rfl⟩ | cases hx
  obtain ⟨s, hs⟩ := hzero
  show StandsAt (mul Format.binary64 x.toModel.unpack y.toModel.unpack) 0
  rw [hs]
  exact standsAt_zero s

/-- **A product is finite only if both its parts are.** -/
theorem isFinite_of_isFinite_mul (h : (x * y).isFinite = true) : x.isFinite = true ∧ y.isFinite = true := by
  have hparts : ∀ {u v : UnpackedFloat}, (mul Format.binary64 u v).isFinite = true → u.isFinite = true
    ∧ v.isFinite = true := by
    intro u v huv
    cases u <;> cases v <;> first | exact ⟨rfl, rfl⟩ | cases huv
  exact hparts (isFinite_of_unpack_pack h)

/-- **A product grows with its parts.** -/
theorem IsCount.mul_le_mul (hx : IsCount x) (hy : IsCount y) (hy' : IsCount y') (h : y ≤ y') : x * y ≤ x * y' := by
  rw [le_iff (isNaN_of_isFinite hy.isFinite) (isNaN_of_isFinite hy'.isFinite)] at h
  have hone := wholeLevel_pos (n := 1) (by decide)
  rcases hx.level with hx0 | hx1
  · obtain ⟨hnumber, hlevel⟩ := level_mul_of_zero hx.isFinite hy.isFinite (.inl hx0)
    obtain ⟨hnumber', hlevel'⟩ := level_mul_of_zero hx.isFinite hy'.isFinite (.inl hx0)
    rw [le_iff hnumber hnumber', hlevel, hlevel']
  rcases hy.level with hy0 | hy1
  · obtain ⟨hnumber, hlevel⟩ := level_mul_of_zero hx.isFinite hy.isFinite (.inr hy0)
    rcases hy'.level with hy0' | hy1'
    · obtain ⟨hnumber', hlevel'⟩ := level_mul_of_zero hx.isFinite hy'.isFinite (.inr hy0')
      rw [le_iff hnumber hnumber', hlevel, hlevel']
    · obtain ⟨k', -, hnumber', hlevel'⟩ := level_mul hx.isFinite hy'.isFinite hx1 hy1'
      rw [le_iff hnumber hnumber', hlevel, hlevel']
      exact Int.natCast_nonneg _
  · obtain ⟨k, hk, hnumber, hlevel⟩ := level_mul hx.isFinite hy.isFinite hx1 hy1
    obtain ⟨k', hk', hnumber', hlevel'⟩ := level_mul hx.isFinite hy'.isFinite hx1 (Int.le_trans hy1 h)
    have hexact : (k : Int) * wholeLevel 1 ≤ k' * wholeLevel 1 := by
      rw [hk, hk']
      exact Int.mul_le_mul_of_nonneg_left h (by omega)
    have hle : k ≤ k' := Int.ofNat_le.1 (Int.le_of_mul_le_mul_right hexact (by omega))
    have hnear := nearest_le_nearest hle
    rw [le_iff hnumber hnumber', hlevel, hlevel']
    omega

end PolicyGates.Double
