import PolicyGates.Proofs.Double.Order
/-!
# Sums and differences of doubles

The sum of two finite doubles is the double nearest to the sum of their levels, or the infinity on that side if
there is none (`level_add`).  So a sum is exact as soon as it is a double (`rounded_of_places`), and it grows with
its parts (`add_le_add`).  A difference is a sum with the sign turned (`sub_eq_add`).
-/
namespace PolicyGates.Double

open Float.Model (UnpackedFloat Format totalExponent)
open Float.Model.UnpackedFloat

/-- The level of the double nearest to a number of steps. -/
def rounded (z : Int) : Int := z.sign * (min (nearest z.natAbs) infiniteLevel : Nat)

/-! ## Rounding levels -/

@[simp] theorem rounded_zero : rounded 0 = 0 := by
  simp [rounded]

theorem rounded_natCast (n : Nat) : rounded n = (min (nearest n) infiniteLevel : Nat) := by
  unfold rounded
  rcases Nat.eq_zero_or_pos n with rfl | hn
  · simp [nearest_of_lt]
  · rw [Int.sign_eq_one_of_pos (by omega), one_mul, Int.natAbs_natCast]

theorem rounded_neg (z : Int) : rounded (-z) = -rounded z := by
  unfold rounded
  rw [Int.sign_neg, Int.natAbs_neg, Int.neg_mul]

theorem rounded_apply (s : Sign) (n : Nat) : rounded (s.apply n) = s.apply (min (nearest n) infiniteLevel : Nat) := by
  cases s
  · show rounded (-(n : Int)) = -_
    rw [rounded_neg, rounded_natCast]
  · exact rounded_natCast n

/-- **Rounding keeps the order of levels.** -/
theorem rounded_le_rounded {z w : Int} (h : z ≤ w) : rounded z ≤ rounded w := by
  have hnat : ∀ {m n : Nat}, m ≤ n → (min (nearest m) infiniteLevel : Nat) ≤ (min (nearest n) infiniteLevel : Nat) :=
    fun h => min_le_min_right _ (nearest_le_nearest h)
  rcases Int.le_total 0 z with hz | hz
  · obtain ⟨m, rfl⟩ := Int.eq_ofNat_of_zero_le hz
    obtain ⟨n, rfl⟩ := Int.eq_ofNat_of_zero_le (Int.le_trans hz h)
    rw [rounded_natCast, rounded_natCast]
    exact Int.ofNat_le.2 (hnat (by omega))
  · obtain ⟨m, hm⟩ := Int.eq_ofNat_of_zero_le (show 0 ≤ -z by omega)
    obtain rfl : z = -(m : Int) := by omega
    rw [rounded_neg, rounded_natCast]
    rcases Int.le_total 0 w with hw | hw
    · obtain ⟨n, rfl⟩ := Int.eq_ofNat_of_zero_le hw
      rw [rounded_natCast]
      omega
    · obtain ⟨n, hn⟩ := Int.eq_ofNat_of_zero_le (show 0 ≤ -w by omega)
      obtain rfl : w = -(n : Int) := by omega
      rw [rounded_neg, rounded_natCast]
      have := hnat (show n ≤ m by omega)
      omega

/-- **A level that is a double's stays.** -/
theorem rounded_of_places {m k : Nat} (h : m < 2 ^ 53) (hk : m * 2 ^ k < infiniteLevel) (s : Sign) :
    rounded (s.apply (m * 2 ^ k : Nat)) = s.apply (m * 2 ^ k : Nat) := by
  rw [rounded_apply, nearest_of_places h, Nat.min_eq_left (Nat.le_of_lt hk)]

theorem rounded_steps {u : UnpackedFloat} (h : Canonical u) (hf : u.isFinite = true) : rounded (steps u) = steps u := by
  cases u with
  | notANumber => cases hf
  | infinity s => cases hf
  | zero s => exact rounded_zero
  | finite s m e hm => exact rounded_of_places h.1 (magnitude_lt h.1 h.2.2.1) s

/-! ## Rounding mantissas -/

theorem log2_mul_pow {m : Nat} (hm : 0 < m) (j : Nat) : (m * 2 ^ j).log2 = m.log2 + j := by
  have hp : 0 < 2 ^ j := Nat.two_pow_pos j
  rw [Nat.log2_eq_iff (Nat.mul_ne_zero (by omega) hp.ne'), Nat.pow_add]
  refine ⟨Nat.mul_le_mul_right _ (Nat.log2_self_le (by omega)), ?_⟩
  rw [show m.log2 + j + 1 = m.log2 + 1 + j by omega, Nat.pow_add]
  exact Nat.mul_lt_mul_of_pos_right Nat.lt_log2_self hp

theorem log2_mul_pow_div {n d : Nat} (h : 0 < n / d) (j : Nat) : (n * 2 ^ j / d).log2 = (n / d).log2 + j := by
  have hd : 0 < d := by
    rcases Nat.eq_zero_or_pos d with rfl | hd
    · rw [Nat.div_zero] at h
      omega
    · exact hd
  have hp : 0 < 2 ^ j := Nat.two_pow_pos j
  obtain ⟨h1, h2⟩ := (Nat.log2_eq_iff (by omega)).1 (rfl : (n / d).log2 = (n / d).log2)
  rw [Nat.le_div_iff_mul_le hd] at h1
  rw [Nat.div_lt_iff_lt_mul hd] at h2
  have hlow : 2 ^ ((n / d).log2 + j) ≤ n * 2 ^ j / d := by
    rw [Nat.le_div_iff_mul_le hd, Nat.pow_add, Nat.mul_right_comm]
    exact Nat.mul_le_mul_right _ h1
  have hhigh : n * 2 ^ j / d < 2 ^ ((n / d).log2 + j + 1) := by
    rw [Nat.div_lt_iff_lt_mul hd, Nat.add_right_comm, Nat.pow_add, Nat.mul_right_comm]
    exact Nat.mul_lt_mul_of_pos_right h2 hp
  exact (Nat.log2_eq_iff (Nat.lt_of_lt_of_le (Nat.two_pow_pos _) hlow).ne').2 ⟨hlow, hhigh⟩

/-- The parts, packed and unpacked again, stand at a level. -/
def StandsAt (u : UnpackedFloat) (z : Int) : Prop :=
  (unpack Format.binary64 (pack Format.binary64 u)).isNaN = false
    ∧ steps (unpack Format.binary64 (pack Format.binary64 u)) = z

theorem standsAt_self {u : UnpackedFloat} (h : Canonical u) (hn : u.isNaN = false) : StandsAt u (steps u) := by
  unfold StandsAt
  rw [unpack_pack h]
  exact ⟨hn, rfl⟩

theorem standsAt_zero (s : Sign) : StandsAt (.zero s) 0 := standsAt_self (u := .zero s) trivial rfl

theorem apply_neg (s : Sign) (z : Int) : (-s).apply z = -s.apply z := by
  cases s with
  | negative => exact (Int.neg_neg z).symm
  | positive => rfl

theorem level_neg {x : Float} (hx : x.isNaN = false) : (-x).isNaN = false ∧ level (-x) = -level x := by
  have hc := canonical x
  change x.toModel.unpack.isNaN = false at hx
  show StandsAt x.toModel.unpack.neg (-steps x.toModel.unpack)
  generalize x.toModel.unpack = u at hc hx
  have hneg : steps u.neg = -steps u := by
    cases u with
    | notANumber => rfl
    | zero s => rfl
    | infinity s => exact apply_neg s _
    | finite s m e hm => exact apply_neg s _
  rw [← hneg]
  cases u with
  | notANumber => cases hx
  | _ => exact standsAt_self hc rfl

/-- Parts with 53 digits, or fewer at the least exponent, stand at their level, and at infinity if that is too far
out. -/
theorem standsAt_finite (s : Sign) {m : Nat} {e : Int} (hm : 0 < m) (h1 : m < 2 ^ 53) (h2 : -1074 ≤ e)
    (h3 : 2 ^ 52 ≤ m ∨ e = -1074) :
    StandsAt (.finite s m e hm) (s.apply (min (magnitude m e) infiniteLevel : Nat)) := by
  unfold StandsAt
  rcases lt_or_ge e 972 with he | he
  · rw [unpack_pack (u := .finite s m e hm) ⟨h1, h2, by omega, h3⟩,
      Nat.min_eq_left (Nat.le_of_lt (magnitude_lt h1 (by omega)))]
    exact ⟨rfl, rfl⟩
  · rw [unpack_pack_large s hm he, Nat.min_eq_right (infiniteLevel_le_magnitude (h3.resolve_right (by omega)) he)]
    exact ⟨rfl, rfl⟩

theorem places_shift {m k : Nat} (hk : k = m.log2 - 52) : m / 2 ^ k < 2 ^ 53 ∧ (2 ^ 52 ≤ m → 2 ^ 52 ≤ m / 2 ^ k) := by
  rcases Nat.lt_or_ge m (2 ^ 53) with h | h
  · have hl : m.log2 < 53 := by
      rcases Nat.eq_zero_or_pos m with rfl | hm
      · decide
      · exact (Nat.log2_lt (by omega)).2 h
    obtain rfl : k = 0 := by omega
    rw [Nat.pow_zero, Nat.div_one]
    exact ⟨h, id⟩
  · have hp : 0 < 2 ^ k := Nat.two_pow_pos k
    have hl := (Nat.le_log2 (by omega)).2 h
    refine ⟨(Nat.div_lt_iff_lt_mul hp).2 ?_, fun _ => (Nat.le_div_iff_mul_le hp).2 ?_⟩
    · rw [← Nat.pow_add, show 53 + k = m.log2 + 1 by omega]
      exact Nat.lt_log2_self
    · rw [← Nat.pow_add, show 52 + k = m.log2 by omega]
      exact Nat.log2_self_le (by omega)

theorem magnitude_half {e : Int} (he : -1074 ≤ e) : magnitude (2 ^ 53) e = magnitude (2 ^ 52) (e + 1) := by
  unfold magnitude
  rw [show (e + 1 + 1074).toNat = (e + 1074).toNat + 1 by omega]
  ring

/-- How far a mantissa is shifted to have the places of a double. -/
def excess (m : Nat) (e : Int) : Nat := (max (m.log2 + 1 + e - 53) (-1074) - e).toNat

/-- A mantissa with its exponent, or zero. -/
def ofMantissa (s : Sign) (m : Nat) (e : Int) : UnpackedFloat :=
  if h : m = 0 then .zero s else .finite s m e (Nat.pos_of_ne_zero h)

theorem ofMantissa_of_pos (s : Sign) {m : Nat} (hm : 0 < m) (e : Int) : ofMantissa s m e = .finite s m e hm :=
  dif_neg hm.ne'

/-- A rounded mantissa, shifted once more in case rounding has brought one place too many. -/
def carried (s : Sign) (r : Nat) (e : Int) : UnpackedFloat :=
  ofMantissa s (ExtendedMantissa.ofMantissaAndAccuracy r .exact >>> excess r e).mantissa (e + excess r e)

theorem roundWithAccuracy_eq (s : Sign) (m : Nat) (e : Int) (acc : Accuracy) :
    roundWithAccuracy Format.binary64 s m e acc
    = carried s (ExtendedMantissa.ofMantissaAndAccuracy m acc >>> excess m e).roundedMantissa (e + excess m e) := rfl

theorem standsAt_carried (s : Sign) {r : Nat} {e : Int} (hle : r ≤ 2 ^ 53) (he : -1074 ≤ e)
    (hplaces : 2 ^ 52 ≤ r ∨ e = -1074) :
    StandsAt (carried s r e) (s.apply (min (magnitude r e) infiniteLevel : Nat)) := by
  rw [carried, (shifted r _).mantissa]
  rcases Nat.lt_or_ge r (2 ^ 53) with hlt | hge
  · rcases Nat.eq_zero_or_pos r with rfl | hr
    · rw [Nat.zero_div, magnitude, Nat.zero_mul, Nat.zero_min]
      cases s <;> exact standsAt_zero _
    · have hl := (Nat.log2_lt (by omega)).2 hlt
      have h0 : excess r e = 0 := by
        unfold excess
        omega
      rw [h0, Nat.pow_zero, Nat.div_one, Int.natCast_zero, Int.add_zero, ofMantissa_of_pos s hr]
      exact standsAt_finite s hr hlt he hplaces
  · obtain rfl : r = 2 ^ 53 := by omega
    have h1 : excess (2 ^ 53) e = 1 := by
      unfold excess
      rw [Nat.log2_two_pow]
      omega
    rw [magnitude_half he, h1, show 2 ^ 53 / 2 ^ 1 = 2 ^ 52 from rfl, ofMantissa_of_pos s (by decide)]
    exact standsAt_finite s (by decide) (by decide) (by omega) (.inl (by decide))

/-- **Rounding a mantissa and what is known of the rest is rounding the level of the fraction**, for a mantissa with
more places than it needs or at the least exponent. -/
theorem standsAt_fraction (s : Sign) {n d : Nat} {e : Int} (hd : 0 < d) (he : -1074 ≤ e)
    (hplaces : 2 ^ 52 ≤ n / d ∨ e = -1074) :
    StandsAt (roundWithAccuracy Format.binary64 s (n / d) e (accuracyOfFraction (n % d) d))
      (s.apply (min (nearestTo (magnitude n e) d) infiniteLevel : Nat)) := by
  have hlog : 2 ^ 52 ≤ n / d → 52 ≤ (n / d).log2 :=
    fun h => (Nat.le_log2 (Nat.lt_of_lt_of_le (by decide) h).ne').2 h
  obtain ⟨j, hj⟩ : ∃ j, (e + 1074).toNat = j := ⟨_, rfl⟩
  have hk : excess (n / d) e = (n / d).log2 - 52 := by
    unfold excess
    omega
  have hkj : (n * 2 ^ j / d).log2 - 52 = excess (n / d) e + j := by
    rcases hplaces with h | h
    · rw [log2_mul_pow_div (Nat.lt_of_lt_of_le (by decide) h)]
      omega
    · obtain rfl : j = 0 := by omega
      rw [Nat.pow_zero, Nat.mul_one]
      omega
  have hnear : nearestTo (magnitude n e) d
    = magnitude (roundDiv n (d * 2 ^ excess (n / d) e)) (e + excess (n / d) e) := by
    rw [nearestTo, magnitude, hj, hkj, Nat.pow_add, ← Nat.mul_assoc d,
      roundDiv_mul_mul _ _ (Nat.two_pow_pos j), magnitude, show (e + excess (n / d) e + 1074).toNat
        = excess (n / d) e + j by omega, Nat.pow_add]
  have hshifted := (shifted_fraction n hd).shift hd (excess (n / d) e)
  rw [roundWithAccuracy_eq, hshifted.roundedMantissa (Nat.mul_pos hd (Nat.two_pow_pos _)), hnear]
  obtain ⟨hlt, hkeep⟩ := places_shift hk
  rw [Nat.div_div_eq_div_mul] at hlt hkeep
  obtain ⟨hlow, hhigh⟩ := roundDiv_bounds n (d * 2 ^ excess (n / d) e)
  refine standsAt_carried s (by omega) (by omega) ?_
  rcases Nat.lt_or_ge (n / d) (2 ^ 52) with h | h
  · have hl : (n / d).log2 ≤ 52 := by
      rcases Nat.eq_zero_or_pos (n / d) with h0 | hpos
      · rw [h0]
        decide
      · exact Nat.le_of_lt ((Nat.log2_lt hpos.ne').2 h)
    exact .inr (by omega)
  · exact .inl (Nat.le_trans (hkeep h) hlow)

/-- **Rounding a mantissa is rounding its level.** -/
theorem standsAt_roundWithAccuracy (s : Sign) {m : Nat} {e : Int} (he : -1074 ≤ e) (hplaces : 2 ^ 52 ≤ m ∨ e = -1074) :
    StandsAt (roundWithAccuracy Format.binary64 s m e .exact)
      (s.apply (min (nearest (magnitude m e)) infiniteLevel : Nat)) := by
  have h := standsAt_fraction s (n := m) Nat.one_pos he (by rwa [Nat.div_one])
  rwa [Nat.div_one, Nat.mod_one, nearestTo_one] at h

/-! ## Sums -/

theorem magnitude_shift {m k : Nat} {e : Int} (h : -1074 ≤ e - k) : magnitude (m <<< k) (e - k) = magnitude m e := by
  unfold magnitude
  rw [Nat.shiftLeft_eq, show (e + 1074).toNat = k + (e - k + 1074).toNat by omega, Nat.pow_add, Nat.mul_assoc]

theorem standsAt_round (s : Sign) {m : Nat} {e : Int} (hm : 0 < m) (he : -1074 ≤ e) :
    StandsAt (round Format.binary64 s m e) (s.apply (min (nearest (magnitude m e)) infiniteLevel : Nat)) := by
  obtain ⟨k, hk⟩ : ∃ k, (e - max (m.log2 + 1 + e - 53) (-1074)).toNat = k := ⟨_, rfl⟩
  have hr : round Format.binary64 s m e = roundWithAccuracy Format.binary64 s (m <<< k) (e - k) .exact := by
    rw [← hk]
    rfl
  have hpos : 0 < m <<< k := by
    rw [Nat.shiftLeft_eq]
    exact Nat.mul_pos hm (Nat.two_pow_pos k)
  have hlog : (m <<< k).log2 = m.log2 + k := by rw [Nat.shiftLeft_eq, log2_mul_pow hm]
  rw [hr, ← magnitude_shift (m := m) (k := k) (e := e) (by omega)]
  refine standsAt_roundWithAccuracy s (by omega) ?_
  rcases Nat.lt_or_ge (m <<< k) (2 ^ 52) with h | h
  · have := (Nat.log2_lt (by omega)).2 h
    exact .inr (by omega)
  · exact .inl h

theorem standsAt_normalize (z : Int) {e : Int} (he : -1074 ≤ e) (s : Sign) :
    StandsAt (UnpackedFloat.normalize Format.binary64 z e s) (rounded (z * 2 ^ (e + 1074).toNat)) := by
  unfold UnpackedFloat.normalize
  rcases lt_trichotomy z 0 with h | rfl | h
  · obtain ⟨n, hn⟩ := Int.eq_ofNat_of_zero_le (show 0 ≤ -z by omega)
    obtain rfl : z = -(n : Int) := by omega
    have hv : -(n : Int) * 2 ^ (e + 1074).toNat = Sign.negative.apply (magnitude n e) := by
      show _ = -((n * 2 ^ (e + 1074).toNat : Nat) : Int)
      push_cast
      ring
    rw [compare_lt_iff_lt.2 h, hv, rounded_apply, Int.neg_neg, Int.toNat_natCast]
    exact standsAt_round .negative (by omega) he
  · rw [compare_eq_iff_eq.2 rfl, Int.zero_mul, rounded_zero]
    exact standsAt_zero s
  · obtain ⟨n, rfl⟩ := Int.eq_ofNat_of_zero_le (Int.le_of_lt h)
    have hv : (n : Int) * 2 ^ (e + 1074).toNat = Sign.positive.apply (magnitude n e) := by
      show _ = ((n * 2 ^ (e + 1074).toNat : Nat) : Int)
      push_cast
      ring
    rw [compare_gt_iff_gt.2 h, hv, rounded_apply, Int.toNat_natCast]
    exact standsAt_round .positive (by omega) he

theorem apply_decreaseExponent (s : Sign) (m : Nat) {e f : Int} (hf : -1074 ≤ f) (h : f ≤ e) :
    s.apply (decreaseExponent m e f).1 * 2 ^ (f + 1074).toNat = s.apply (magnitude m e) := by
  obtain ⟨k, hk⟩ : ∃ k, (e - f).toNat = k := ⟨_, rfl⟩
  have hd : (decreaseExponent m e f).1 = m <<< k := by
    rw [← hk]
    rfl
  obtain rfl : f = e - k := by omega
  rw [hd, ← magnitude_shift hf, magnitude]
  cases s
  · show -((m <<< k : Nat) : Int) * 2 ^ (e - k + 1074).toNat = -((m <<< k * 2 ^ (e - k + 1074).toNat : Nat) : Int)
    push_cast
    ring
  · show ((m <<< k : Nat) : Int) * 2 ^ (e - k + 1074).toNat = ((m <<< k * 2 ^ (e - k + 1074).toNat : Nat) : Int)
    push_cast
    rfl

theorem standsAt_add {u v : UnpackedFloat} (hu : Canonical u) (hv : Canonical v) (huf : u.isFinite = true)
    (hvf : v.isFinite = true) : StandsAt (add Format.binary64 u v) (rounded (steps u + steps v)) := by
  cases u with
  | notANumber => cases huf
  | infinity s => cases huf
  | zero s =>
    have h0 : steps (.zero s) + steps v = steps v := Int.zero_add _
    rw [h0, rounded_steps hv hvf]
    cases v with
    | notANumber => cases hvf
    | infinity s' => cases hvf
    | zero s' => cases s <;> cases s' <;> exact standsAt_self trivial rfl
    | finite s' m' e' hm' => exact standsAt_self hv rfl
  | finite s m e hm =>
    cases v with
    | notANumber => cases hvf
    | infinity s' => cases hvf
    | zero s' =>
      have h0 : steps (.finite s m e hm) + steps (.zero s') = steps (.finite s m e hm) := Int.add_zero _
      rw [h0, rounded_steps hu huf]
      exact standsAt_self hu rfl
    | finite s' m' e' hm' =>
      have hmin : -1074 ≤ min e e' := le_min hu.2.1 hv.2.1
      have hsum : steps (.finite s m e hm) + steps (.finite s' m' e' hm')
          = (s.apply (decreaseExponent m e (min e e')).1 + s'.apply (decreaseExponent m' e' (min e e')).1)
            * 2 ^ (min e e' + 1074).toNat := by
        rw [Int.add_mul, apply_decreaseExponent s m hmin (min_le_left _ _),
          apply_decreaseExponent s' m' hmin (min_le_right _ _)]
        rfl
      rw [hsum]
      exact standsAt_normalize _ hmin .positive

/-- **The sum of two finite doubles is a number, and the nearest to the sum of the levels.** -/
theorem level_add {x y : Float} (hx : x.isFinite = true) (hy : y.isFinite = true) :
    (x + y).isNaN = false ∧ level (x + y) = rounded (level x + level y) :=
  standsAt_add (canonical x) (canonical y) hx hy

/-- **A sum grows with its parts.** -/
theorem add_le_add {x x' y y' : Float} (hx : x.isFinite = true) (hx' : x'.isFinite = true) (hy : y.isFinite = true)
    (hy' : y'.isFinite = true) (h : x ≤ x') (h' : y ≤ y') : x + y ≤ x' + y' := by
  obtain ⟨h1, h2⟩ := level_add hx hy
  obtain ⟨h1', h2'⟩ := level_add hx' hy'
  rw [le_iff (isNaN_of_isFinite hx) (isNaN_of_isFinite hx')] at h
  rw [le_iff (isNaN_of_isFinite hy) (isNaN_of_isFinite hy')] at h'
  rw [le_iff h1 h1', h2, h2']
  exact rounded_le_rounded (Int.add_le_add h h')

theorem rounded_level {x : Float} (hx : x.isFinite = true) : rounded (level x) = level x :=
  rounded_steps (canonical x) hx

/-- **A sum is not below a part** if the other is not negative. -/
theorem le_add {x y : Float} (hx : x.isFinite = true) (hy : y.isFinite = true) (h0 : 0.0 ≤ y) : x ≤ x + y := by
  obtain ⟨hnumber, hlevel⟩ := level_add hx hy
  have hzero : level (0.0 : Float) = 0 := by decide
  rw [le_iff (by decide) (isNaN_of_isFinite hy), hzero] at h0
  rw [le_iff (isNaN_of_isFinite hx) hnumber, hlevel, ← rounded_level hx]
  exact rounded_le_rounded (by rw [rounded_level hx]; omega)

theorem zero_le_add {x y : Float} (hx : x.isFinite = true) (hy : y.isFinite = true) (hx0 : 0.0 ≤ x) (hy0 : 0.0 ≤ y) :
    0.0 ≤ x + y := by
  have hsum := Double.add_le_add (by decide) hx (by decide) hy hx0 hy0
  rwa [show (0.0 : Float) + 0.0 = 0.0 by decide] at hsum

/-! ## Differences -/

theorem sub_eq_add (spec : Format) (u v : UnpackedFloat) : sub spec u v = add spec u v.neg := by
  cases u with
  | finite s m e hm =>
    cases v with
    | finite s' m' e' hm' =>
      have hsign : s.apply (decreaseExponent m e (min e e')).1 - s'.apply (decreaseExponent m' e' (min e e')).1
          = s.apply (decreaseExponent m e (min e e')).1 + (-s').apply (decreaseExponent m' e' (min e e')).1 := by
        rw [apply_neg, Int.sub_eq_add_neg]
      exact congrArg (UnpackedFloat.normalize spec · (min e e') .positive) hsign
    | _ => rfl
  | _ => cases v <;> rfl

/-- **The difference of two finite doubles is a number, and the nearest to the difference of the levels.** -/
theorem level_sub {x y : Float} (hx : x.isFinite = true) (hy : y.isFinite = true) :
    (x - y).isNaN = false ∧ level (x - y) = rounded (level x - level y) := by
  have hneg : Canonical y.toModel.unpack.neg ∧ y.toModel.unpack.neg.isFinite = true
      ∧ steps y.toModel.unpack.neg = -level y := by
    have hc := canonical y
    change y.toModel.unpack.isFinite = true at hy
    unfold level
    generalize y.toModel.unpack = v at hc hy
    cases v with
    | notANumber => cases hy
    | infinity s => cases hy
    | zero s => exact ⟨trivial, rfl, rfl⟩
    | finite s m e hm => exact ⟨hc, rfl, apply_neg s _⟩
  show StandsAt (sub Format.binary64 x.toModel.unpack y.toModel.unpack) _
  rw [sub_eq_add, Int.sub_eq_add_neg, ← hneg.2.2]
  exact standsAt_add (canonical x) hneg.1 hx hneg.2.1

theorem zero_le_sub {x y : Float} (hx : x.isFinite = true) (hy : y.isFinite = true) (h : y ≤ x) : 0.0 ≤ x - y := by
  obtain ⟨hnumber, hlevel⟩ := level_sub hx hy
  have hle : level y ≤ level x := (le_iff (isNaN_of_isFinite hy) (isNaN_of_isFinite hx)).1 h
  have hzero : level (0.0 : Float) = rounded 0 := by decide
  rw [le_iff (by decide) hnumber, hzero, hlevel]
  exact rounded_le_rounded (Int.sub_nonneg_of_le hle)

end PolicyGates.Double
