import PolicyGates.Proofs.Double.Quotient
/-!
# The double nearest to a decimal

A whole number times or over a power of ten comes out as the double that is nearest to it (`level_scientific`),
whether it is worked out from two doubles that are exact or from the digits themselves: a product and a quotient are
rounded once.
-/
namespace PolicyGates.Double

open Float.Model (UnpackedFloat Format totalExponent)
open Float.Model.UnpackedFloat

def wholeLevel (n : Nat) : Nat := magnitude n 0

/-- Counting stands still here: `2^53`. -/
def limit : Nat := 2 ^ 53

theorem wholeLevel_zero : wholeLevel 0 = 0 := Nat.zero_mul _

theorem wholeLevel_pos {n : Nat} (h : 0 < n) : 0 < wholeLevel n := magnitude_pos h 0

theorem wholeLevel_eq_mul (n : Nat) : wholeLevel n = n * wholeLevel 1 := by
  rw [wholeLevel, wholeLevel, magnitude, magnitude, Nat.one_mul]

theorem wholeLevel_lt {m n : Nat} : wholeLevel m < wholeLevel n ↔ m < n := Nat.mul_lt_mul_right (Nat.two_pow_pos _)

theorem wholeLevel_injective {m n : Nat} : wholeLevel m = wholeLevel n ↔ m = n :=
  Nat.mul_left_inj (Nat.two_pow_pos _).ne'

theorem wholeLevel_add (m n : Nat) : wholeLevel (m + n) = wholeLevel m + wholeLevel n := Nat.add_mul _ _ _

theorem wholeLevel_lt_infinite {n : Nat} (h : n ≤ limit) : wholeLevel n < infiniteLevel := by
  obtain ⟨k, hk, hi⟩ := infiniteLevel_eq
  rw [hi]
  refine Nat.lt_of_le_of_lt (Nat.mul_le_mul_right _ h) ?_
  rw [limit, ← Nat.pow_add]
  exact Nat.pow_lt_pow_right (by decide) (by omega)

theorem nearest_wholeLevel {n : Nat} (h : n ≤ limit) : nearest (wholeLevel n) = wholeLevel n := by
  rcases Nat.lt_or_ge n (2 ^ 53) with hl | hg
  · exact nearest_of_places hl _
  · obtain rfl : n = 2 ^ 53 := Nat.le_antisymm h hg
    rw [wholeLevel, magnitude_half (by decide)]
    exact nearest_of_places (by decide) _

theorem rounded_wholeLevel {n : Nat} (h : n ≤ limit) : rounded (wholeLevel n) = wholeLevel n := by
  rw [rounded_natCast, nearest_wholeLevel h, Nat.min_eq_left (Nat.le_of_lt (wholeLevel_lt_infinite h))]

theorem wholeLevel_eq : ∃ w, w = 1074 ∧ ∀ n, wholeLevel n = n * 2 ^ w := ⟨((0 : Int) + 1074).toNat, rfl, fun _ => rfl⟩

theorem level_toFloat {n : Nat} (h : n < 2 ^ 53) :
    n.toUInt64.toFloat.isFinite = true ∧ level n.toUInt64.toFloat = wholeLevel n := by
  have hw := wholeLevel_lt_infinite (n := n) (Nat.le_of_lt h)
  have hs := standsAt_normalize n (e := 0) (by decide) .positive
  have hz : (n : Int) * 2 ^ ((0 : Int) + 1074).toNat = (wholeLevel n : Int) := by
    rw [wholeLevel, magnitude, Nat.cast_mul, Nat.cast_pow, Nat.cast_ofNat]
  rw [hz, rounded_wholeLevel (Nat.le_of_lt h)] at hs
  have hu : n.toUInt64.toNat = n := by
    rw [Nat.toUInt64_eq, UInt64.toNat_ofNat']
    exact Nat.mod_eq_of_lt (by omega)
  have hn : n.toUInt64.toFloat.isNaN = false ∧ level n.toUInt64.toFloat = wholeLevel n := by
    show StandsAt (normalize Format.binary64 (n.toUInt64.toNat : Int) 0 .positive) _
    rw [hu]
    exact hs
  refine ⟨(isFinite_iff hn.1).2 ?_, hn.2⟩
  rw [hn.2, Int.natAbs_natCast]
  exact hw

/-! ## Parts of whole numbers -/

theorem places_of_whole {m n : Nat} {e : Int} (h0 : 0 < n) (h1 : m < 2 ^ 53) (h : 2 ^ 52 ≤ m ∨ e = -1074)
    (hmag : magnitude m e = wholeLevel n) : -52 ≤ e ∧ 2 ^ 52 ≤ m := by
  have he : -52 ≤ e := by
    by_contra hc
    have hlt : magnitude m e < wholeLevel 1 := by
      rw [wholeLevel, magnitude, magnitude, Nat.one_mul]
      exact places_lt h1 (by omega)
    have hle : wholeLevel 1 ≤ wholeLevel n := Nat.mul_le_mul_right _ h0
    omega
  exact ⟨he, h.resolve_right (by omega)⟩

theorem exists_whole_parts {x : Float} {n : Nat} (hf : x.isFinite = true) (h0 : 0 < n) (hl : level x = wholeLevel n) :
    ∃ m e hm, x.toModel.unpack = .finite .positive m e hm ∧ magnitude m e = wholeLevel n
      ∧ (m < 2 ^ 53 ∧ 2 ^ 52 ≤ m) ∧ -52 ≤ e ∧ e ≤ 971 := by
  have hpos := wholeLevel_pos h0
  obtain ⟨s, m, e, hm, hu, hc, hlevel⟩ := exists_finite hf (by omega)
  rw [hl] at hlevel
  cases s with
  | negative =>
    change _ = -(magnitude m e : Int) at hlevel
    omega
  | positive =>
    have hmag : magnitude m e = wholeLevel n := (Int.ofNat_inj.1 hlevel).symm
    obtain ⟨he, hplaces⟩ := places_of_whole h0 hc.1 hc.2.2.2 hmag
    exact ⟨m, e, hm, hu, hmag, ⟨hc.1, hplaces⟩, he, hc.2.2.1⟩

/-! ## Products and quotients -/

theorem mul_finite (spec : Format) (s s' : Sign) {m m' : Nat} (hm : 0 < m) (hm' : 0 < m') (e e' : Int) :
    mul spec (.finite s m e hm) (.finite s' m' e' hm') = roundWithAccuracy spec (s * s') (m * m') (e + e') .exact := rfl

theorem magnitude_mul_magnitude {m m' : Nat} {e e' : Int} (he : -1074 ≤ e) (he' : -1074 ≤ e') (hsum : -1074 ≤ e + e') :
    magnitude (m * m') (e + e') * wholeLevel 1 = magnitude m e * magnitude m' e' := by
  rw [wholeLevel, magnitude, magnitude, magnitude, magnitude, Nat.one_mul]
  calc m * m' * 2 ^ (e + e' + 1074).toNat * 2 ^ ((0 : Int) + 1074).toNat
      = m * m' * 2 ^ ((e + 1074).toNat + (e' + 1074).toNat) := by
        rw [Nat.mul_assoc, ← Nat.pow_add]
        congr 2
        omega
    _ = m * 2 ^ (e + 1074).toNat * (m' * 2 ^ (e' + 1074).toNat) := by
        rw [Nat.pow_add]
        ring

theorem magnitude_mul {a b m m' : Nat} {e e' : Int} (he : -1074 ≤ e) (he' : -1074 ≤ e') (hsum : -1074 ≤ e + e')
    (h : magnitude m e = wholeLevel a) (h' : magnitude m' e' = wholeLevel b) :
    magnitude (m * m') (e + e') = wholeLevel (a * b) := by
  refine Nat.eq_of_mul_eq_mul_right (wholeLevel_pos Nat.one_pos) ?_
  rw [magnitude_mul_magnitude he he' hsum, h, h', wholeLevel_eq_mul a, wholeLevel_eq_mul b, wholeLevel_eq_mul (a * b)]
  ring

/-- **A product of whole numbers is rounded once.** -/
theorem standsAt_mul {a b m m' : Nat} {e e' : Int} (hm : 0 < m) (hm' : 0 < m') (he : -1074 ≤ e) (he' : -1074 ≤ e')
    (hsum : -1074 ≤ e + e') (hplaces : 2 ^ 52 ≤ m * m') (h : magnitude m e = wholeLevel a)
    (h' : magnitude m' e' = wholeLevel b) :
    StandsAt (mul Format.binary64 (.finite .positive m e hm) (.finite .positive m' e' hm'))
      (min (nearest (wholeLevel (a * b))) infiniteLevel : Nat) := by
  rw [mul_finite, ← magnitude_mul he he' hsum h h']
  have hround := standsAt_roundWithAccuracy .positive hsum (.inl hplaces)
  exact hround

/-- **A quotient of whole numbers is rounded once.** -/
theorem standsAt_div {a b m m' : Nat} {e e' : Int} (hm : 0 < m) (hm' : 0 < m') (he : -1074 ≤ e) (he' : -1074 ≤ e')
    (h : magnitude m e = wholeLevel a) (h' : magnitude m' e' = wholeLevel b) :
    StandsAt (div Format.binary64 (.finite .positive m e hm) (.finite .positive m' e' hm'))
      (min (nearestTo (wholeLevel a) b) infiniteLevel : Nat) := by
  have hround := standsAt_div_finite hm hm' he he'
  rwa [h, h', wholeLevel_eq_mul b, ← wholeLevel, nearestTo_mul_mul _ _ (wholeLevel_pos Nat.one_pos)] at hround

theorem level_mul_whole {x y : Float} {a b : Nat} (hx : x.isFinite = true) (hy : y.isFinite = true) (ha : 0 < a)
    (hb : 0 < b) (hxa : level x = wholeLevel a) (hyb : level y = wholeLevel b) :
    (x * y).isNaN = false ∧ level (x * y) = (min (nearest (wholeLevel (a * b))) infiniteLevel : Nat) := by
  obtain ⟨m, e, hm, hu, hmag, hp, he⟩ := exists_whole_parts hx ha hxa
  obtain ⟨m', e', hm', hu', hmag', hp', he'⟩ := exists_whole_parts hy hb hyb
  show StandsAt (mul Format.binary64 x.toModel.unpack y.toModel.unpack) _
  rw [hu, hu']
  exact standsAt_mul hm hm' (by omega) (by omega) (by omega)
    (Nat.le_trans hp.2 (Nat.le_mul_of_pos_right _ hm')) hmag hmag'

theorem level_div_whole {x y : Float} {a b : Nat} (hx : x.isFinite = true) (hy : y.isFinite = true) (ha : 0 < a)
    (hb : 0 < b) (hxa : level x = wholeLevel a) (hyb : level y = wholeLevel b) :
    (x / y).isNaN = false ∧ level (x / y) = (min (nearestTo (wholeLevel a) b) infiniteLevel : Nat) := by
  obtain ⟨m, e, hm, hu, hmag, hp, he⟩ := exists_whole_parts hx ha hxa
  obtain ⟨m', e', hm', hu', hmag', hp', he'⟩ := exists_whole_parts hy hb hyb
  show StandsAt (div Format.binary64 x.toModel.unpack y.toModel.unpack) _
  rw [hu, hu']
  exact standsAt_div hm hm' (by omega) (by omega) hmag hmag'

/-! ## Decimals -/

theorem level_powersOfTen : ∀ i : Fin 23, Float.exactlyRepresentablePowersOfTen[i].isFinite = true
    ∧ level Float.exactlyRepresentablePowersOfTen[i] = wholeLevel (10 ^ i.val) := by
  decide +kernel

theorem ofScientific_mul {v e : Nat} (hv : 0 < v) (hshift : 0 < v <<< 53) (he : e ≤ 2048) :
    UnpackedFloat.ofScientific Format.binary64 v (e : Int)
      = mul Format.binary64 (.finite .positive (v <<< 53) (-53) hshift)
        (.finite .positive (10 ^ e) 0 (Nat.pow_pos (by decide))) := by
  have hbits : (2 : Int) ^ Format.binary64.exponentBits = 2048 := by decide
  unfold UnpackedFloat.ofScientific
  rw [dif_neg hv.ne', if_neg (by omega), if_neg (by omega), if_pos (Int.natCast_nonneg e)]
  rfl

theorem ofScientific_div {v e : Nat} (hv : 0 < v) (h0 : 0 < e) (he : e ≤ 2048 + v.log2) :
    UnpackedFloat.ofScientific Format.binary64 v (Int.negOfNat e)
      = div Format.binary64 (.finite .positive v 0 hv) (.finite .positive (10 ^ e) 0 (Nat.pow_pos (by decide))) := by
  have hbits : (2 : Int) ^ Format.binary64.exponentBits = 2048 := by decide
  obtain ⟨z, hz⟩ : ∃ z, Int.negOfNat e = z := ⟨_, rfl⟩
  have hze : z = -(e : Int) := by rw [← hz, Int.negOfNat_eq]; rfl
  unfold UnpackedFloat.ofScientific
  rw [hz, dif_neg hv.ne', if_neg (by omega), if_neg (by omega), if_neg (by omega)]
  have hdiv : ∀ (k : Nat) (hk : 0 < 10 ^ k), k = e →
    div Format.binary64 (.finite .positive v 0 hv) (.finite .positive (10 ^ k) 0 hk)
      = div Format.binary64 (.finite .positive v 0 hv) (.finite .positive (10 ^ e) 0 (Nat.pow_pos (by decide))) := by
    rintro k hk rfl
    rfl
  exact hdiv _ _ (by omega)

theorem level_ofScientific_mul {v e : Nat} (hv : 0 < v) (he : e ≤ 2048) : (Float.ofScientific v false e).isNaN = false
    ∧ level (Float.ofScientific v false e) = (min (nearest (wholeLevel (v * 10 ^ e))) infiniteLevel : Nat) := by
  have hpow : 0 < 10 ^ e := Nat.pow_pos (by decide)
  unfold Float.ofScientific
  by_cases h : v < 2 ^ 53 ∧ e ≤ 22
  · rw [dif_pos h]
    obtain ⟨hf, hl⟩ := level_toFloat h.1
    obtain ⟨hf', hl'⟩ := level_powersOfTen ⟨e, Nat.lt_succ_of_le h.2⟩
    exact level_mul_whole hf hf' hv hpow hl hl'
  · rw [dif_neg h]
    have hshift : 0 < v <<< 53 := by
      rw [Nat.shiftLeft_eq]
      exact Nat.mul_pos hv (by decide)
    have hmag : magnitude (v <<< 53) ((0 : Int) - (53 : Nat)) = wholeLevel v := magnitude_shift (by decide)
    show StandsAt (UnpackedFloat.ofScientific Format.binary64 v (e : Int)) _
    rw [ofScientific_mul hv hshift he]
    refine standsAt_mul hshift hpow (by decide) (by decide) (by decide) ?_ hmag rfl
    calc 2 ^ 52 ≤ v * 2 ^ 53 := Nat.le_trans (by decide) (Nat.le_mul_of_pos_left _ hv)
      _ = v <<< 53 := (Nat.shiftLeft_eq v 53).symm
      _ ≤ v <<< 53 * 10 ^ e := Nat.le_mul_of_pos_right _ hpow

theorem level_ofScientific_div {v e : Nat} (hv : 0 < v) (h0 : 0 < e) (he : e ≤ 2048 + v.log2) :
    (Float.ofScientific v true e).isNaN = false
    ∧ level (Float.ofScientific v true e) = (min (nearestTo (wholeLevel v) (10 ^ e)) infiniteLevel : Nat) := by
  have hpow : 0 < 10 ^ e := Nat.pow_pos (by decide)
  unfold Float.ofScientific
  by_cases h : v < 2 ^ 53 ∧ e ≤ 22
  · rw [dif_pos h]
    obtain ⟨hf, hl⟩ := level_toFloat h.1
    obtain ⟨hf', hl'⟩ := level_powersOfTen ⟨e, Nat.lt_succ_of_le h.2⟩
    exact level_div_whole hf hf' hv hpow hl hl'
  · rw [dif_neg h]
    show StandsAt (UnpackedFloat.ofScientific Format.binary64 v (Int.negOfNat e)) _
    rw [ofScientific_div hv h0 he]
    exact standsAt_div hv hpow (by decide) (by decide) rfl rfl

/-- The level of the double nearest to `v · 10^e`, as if there were no largest one. -/
def decimalLevel (v : Nat) (e : Int) : Nat := nearestTo (wholeLevel (v * 10 ^ e.toNat)) (10 ^ (-e).toNat)

theorem decimalLevel_zero (e : Int) : decimalLevel 0 e = 0 := by
  have hpow : 0 < 10 ^ (-e).toNat := Nat.pow_pos (by decide)
  rw [decimalLevel, Nat.zero_mul, wholeLevel_zero]
  exact nearestTo_eq_zero (by omega)

theorem decimalLevel_mul_pow (v j : Nat) (e : Int) : decimalLevel (v * 10 ^ j) (e - j) = decimalLevel v e := by
  obtain ⟨w, -, hwhole⟩ := wholeLevel_eq
  refine nearestTo_congr (Nat.pow_pos (by decide)) (Nat.pow_pos (by decide)) ?_
  have hexponent : j + (e - j).toNat + (-e).toNat = e.toNat + (-(e - j)).toNat := by omega
  rw [hwhole, hwhole]
  calc v * 10 ^ j * 10 ^ (e - j).toNat * 2 ^ w * 10 ^ (-e).toNat
    _ = v * 10 ^ (j + (e - j).toNat + (-e).toNat) * 2 ^ w := by
        rw [Nat.pow_add, Nat.pow_add]
        ring
    _ = v * 10 ^ e.toNat * 2 ^ w * 10 ^ (-(e - j)).toNat := by
        rw [hexponent, Nat.pow_add]
        ring

/-- **A decimal comes out as the double nearest to it.** -/
theorem level_scientific {v : Nat} {e : Int} (hv : 0 < v) (he : e ≤ 2048) (hlow : -e ≤ 2048 + v.log2) :
    (Float.ofScientific v (decide (e < 0)) e.natAbs).isNaN = false
      ∧ level (Float.ofScientific v (decide (e < 0)) e.natAbs) = (min (decimalLevel v e) infiniteLevel : Nat) := by
  unfold decimalLevel
  rcases Int.lt_or_le e 0 with h | h
  · rw [decide_eq_true h, show e.toNat = 0 by omega, show (-e).toNat = e.natAbs by omega, Nat.pow_zero, Nat.mul_one]
    exact level_ofScientific_div hv (by omega) (by omega)
  · rw [decide_eq_false (by omega),
      show e.toNat = e.natAbs by omega, show (-e).toNat = 0 by omega, Nat.pow_zero, nearestTo_one]
    exact level_ofScientific_mul hv (by omega)

end PolicyGates.Double
