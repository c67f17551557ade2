import PolicyGates.Proofs.Double.Sum
/-!
# What is known of a result without working it out

A sum is a number unless two infinities cancel (`isNaN_add`), and is finite only if both parts are
(`isFinite_of_isFinite_add`).  A quotient by a number other than zero is a number (`isNaN_div`).  A product of numbers
that are not negative is not negative (`zero_le_mul`).  Additions that start from zero never come to the negative
zero, so adding nothing to them changes nothing (`IsSum.add_zero`).
-/
namespace PolicyGates.Double

open Float.Model (UnpackedFloat Format)
open Float.Model.UnpackedFloat

/-! ## Numbers -/

theorem exists_ofMantissa (s : Sign) (m : Nat) (e : Int) (a : Accuracy) :
    ∃ m' e', roundWithAccuracy Format.binary64 s m e a = ofMantissa s m' e' := ⟨_, _, rfl⟩

theorem isNaN_ofMantissa (s : Sign) (m : Nat) (e : Int) : (ofMantissa s m e).isNaN = false := by
  by_cases h : m = 0
  · rw [ofMantissa, dif_pos h]
    rfl
  · rw [ofMantissa, dif_neg h]
    rfl

theorem isNaN_roundWithAccuracy (s : Sign) (m : Nat) (e : Int) (a : Accuracy) :
    (roundWithAccuracy Format.binary64 s m e a).isNaN = false := by
  obtain ⟨m', e', h⟩ := exists_ofMantissa s m e a
  rw [h]
  exact isNaN_ofMantissa ..

theorem isNaN_normalize (z e : Int) (s : Sign) : (UnpackedFloat.normalize Format.binary64 z e s).isNaN = false := by
  unfold UnpackedFloat.normalize
  split
  · exact isNaN_roundWithAccuracy ..
  · rfl
  · exact isNaN_roundWithAccuracy ..

/-- **The sum of a number and a finite double is a number.** -/
theorem isNaN_add {x y : Float} (hx : x.isNaN = false) (hy : y.isFinite = true) : (x + y).isNaN = false := by
  have h : ∀ {u v : UnpackedFloat}, u.isNaN = false → v.isFinite = true → (add Format.binary64 u v).isNaN = false := by
    intro u v hu hv
    cases u with
    | notANumber => cases hu
    | infinity s =>
      cases v with
      | notANumber => cases hv
      | infinity s' => cases hv
      | zero s' => rfl
      | finite s' m' e' hm' => rfl
    | zero s =>
      cases v with
      | notANumber => cases hv
      | infinity s' => cases hv
      | zero s' => cases s <;> cases s' <;> rfl
      | finite s' m' e' hm' => rfl
    | finite s m e hm =>
      cases v with
      | notANumber => cases hv
      | infinity s' => cases hv
      | zero s' => rfl
      | finite s' m' e' hm' => exact isNaN_normalize ..
  exact isNaN_unpack_pack (h hx hy)

/-- **The quotient of a finite double by a number that is not zero is a number.** -/
theorem isNaN_div {x y : Float} (hx : x.isFinite = true) (hy : y.isNaN = false) (h0 : level y ≠ 0) :
    (x / y).isNaN = false := by
  have h : ∀ {u v : UnpackedFloat}, u.isFinite = true → v.isNaN = false → steps v ≠ 0 →
      (div Format.binary64 u v).isNaN = false := by
    intro u v hu hv h0
    cases v with
    | notANumber => cases hv
    | zero s' => exact absurd rfl h0
    | infinity s' =>
      cases u with
      | notANumber => cases hu
      | infinity s => cases hu
      | zero s => rfl
      | finite s m e hm => rfl
    | finite s' m' e' hm' =>
      cases u with
      | notANumber => cases hu
      | infinity s => cases hu
      | zero s => rfl
      | finite s m e hm => exact isNaN_roundWithAccuracy ..
  exact isNaN_unpack_pack (h hx hy h0)

/-! ## Finite sums -/

theorem isFinite_of_unpack_pack {u : UnpackedFloat}
    (h : (unpack Format.binary64 (pack Format.binary64 u)).isFinite = true) :
    u.isFinite = true := by
  cases u with
  | notANumber => cases h
  | infinity s =>
    rw [unpack_pack (u := .infinity s) trivial] at h
    cases h
  | zero s => rfl
  | finite s m e hm => rfl

/-- **A sum is finite only if both its parts are.** -/
theorem isFinite_of_isFinite_add {x y : Float} (h : (x + y).isFinite = true) :
    x.isFinite = true ∧ y.isFinite = true := by
  have hparts : ∀ {u v : UnpackedFloat}, (add Format.binary64 u v).isFinite = true → u.isFinite = true
    ∧ v.isFinite = true := by
    intro u v huv
    cases u with
    | notANumber => cases huv
    | infinity s =>
      cases v with
      | infinity s' => cases s <;> cases s' <;> cases huv
      | _ => cases huv
    | zero s => cases v <;> first | exact ⟨rfl, rfl⟩ | cases huv
    | finite s m e hm => cases v <;> first | exact ⟨rfl, rfl⟩ | cases huv
  exact hparts (isFinite_of_unpack_pack h)

/-! ## Products that are not negative -/

/-- Parts that do not lie below zero. -/
def NotBelow : UnpackedFloat → Prop
  | .notANumber => True
  | .infinity s => s = .positive
  | .zero _ => True
  | .finite s _ _ _ => s = .positive

theorem notBelow_iff {u : UnpackedFloat} : NotBelow u ↔ 0 ≤ steps u := by
  have hi := infiniteLevel_pos
  cases u with
  | notANumber => exact ⟨fun _ => Int.le_refl 0, fun _ => trivial⟩
  | infinity s =>
    cases s
    · exact ⟨(by intro h; cases h), fun h : 0 ≤ -(infiniteLevel : Int) => by omega⟩
    · exact ⟨fun _ => Int.natCast_nonneg _, fun _ => rfl⟩
  | zero s => exact ⟨fun _ => Int.le_refl 0, fun _ => trivial⟩
  | finite s m e hm =>
    have hp := magnitude_pos hm e
    cases s
    · exact ⟨(by intro h; cases h), fun h : 0 ≤ -(magnitude m e : Int) => by omega⟩
    · exact ⟨fun _ => Int.natCast_nonneg _, fun _ => rfl⟩

theorem notBelow_ofFields (b : BitVec 11) (f : BitVec 52) : NotBelow (ofFields .positive b f) :=
  ofFields_cases (motive := NotBelow) (fun _ => rfl) (fun _ => trivial) trivial (fun _ => rfl) (fun _ _ _ => rfl)

theorem notBelow_unpack_pack {u : UnpackedFloat} (h : NotBelow u) :
    NotBelow (unpack Format.binary64 (pack Format.binary64 u)) := by
  cases u with
  | notANumber => exact trivial
  | infinity s =>
    rw [unpack_pack (u := .infinity s) trivial]
    exact h
  | zero s =>
    rw [unpack_pack (u := .zero s) trivial]
    exact h
  | finite s m e hm =>
    obtain rfl : s = .positive := h
    rw [pack_finite]
    split
    · exact rfl
    · split <;> rw [unpack_packComponents] <;> exact notBelow_ofFields _ _

theorem notBelow_ofMantissa (m : Nat) (e : Int) : NotBelow (ofMantissa .positive m e) := by
  by_cases h : m = 0
  · rw [ofMantissa, dif_pos h]
    exact trivial
  · rw [ofMantissa, dif_neg h]
    exact rfl

theorem notBelow_roundWithAccuracy (m : Nat) (e : Int) (a : Accuracy) :
    NotBelow (roundWithAccuracy Format.binary64 .positive m e a) := by
  obtain ⟨m', e', h⟩ := exists_ofMantissa .positive m e a
  rw [h]
  exact notBelow_ofMantissa ..

theorem notBelow_mul {u v : UnpackedFloat} (hu : NotBelow u) (hv : NotBelow v) :
    NotBelow (mul Format.binary64 u v) := by
  cases u with
  | notANumber => exact trivial
  | infinity s =>
    obtain rfl : s = .positive := hu
    cases v with
    | infinity s' => obtain rfl : s' = .positive := hv; exact rfl
    | finite s' m' e' hm' => obtain rfl : s' = .positive := hv; exact rfl
    | _ => exact trivial
  | zero s => cases v <;> exact trivial
  | finite s m e hm =>
    obtain rfl : s = .positive := hu
    cases v with
    | infinity s' => obtain rfl : s' = .positive := hv; exact rfl
    | finite s' m' e' hm' =>
      obtain rfl : s' = .positive := hv
      exact notBelow_roundWithAccuracy ..
    | _ => exact trivial

theorem zero_le_iff {x : Float} (h : x.isNaN = false) : 0.0 ≤ x ↔ 0 ≤ level x := by
  rw [le_iff (by decide) h, show level (0.0 : Float) = 0 by decide]

/-- **A product of numbers that are not negative is not negative**, if it is a number. -/
theorem zero_le_mul {x y : Float} (hx : x.isNaN = false) (hy : y.isNaN = false) (h : (x * y).isNaN = false)
    (hx0 : 0.0 ≤ x) (hy0 : 0.0 ≤ y) :
    0.0 ≤ x * y := by
  rw [zero_le_iff hx] at hx0
  rw [zero_le_iff hy] at hy0
  rw [zero_le_iff h]
  exact notBelow_iff.1 (notBelow_unpack_pack (notBelow_mul (notBelow_iff.2 hx0) (notBelow_iff.2 hy0)))

/-! ## Sums from zero -/

/-- What additions that start from zero come to: finite, and zero or above it, but not the other zero. -/
structure IsSum (x : Float) : Prop where
  isFinite : x.isFinite = true
  isPositive : x = 0.0 ∨ 0 < level x

theorem isSum_zero : IsSum 0.0 := ⟨by decide, .inl rfl⟩

theorem IsSum.zero_le {x : Float} (h : IsSum x) : 0.0 ≤ x := by
  rcases h.isPositive with rfl | hpos
  · decide
  · exact (zero_le_iff (isNaN_of_isFinite h.isFinite)).2 (Int.le_of_lt hpos)

theorem rounded_pos {z : Int} (h : 0 < z) : 0 < rounded z := by
  have hone : rounded (1 : Nat) = 1 := by
    have := infiniteLevel_pos
    rw [rounded_natCast, nearest_of_lt (by decide)]
    omega
  have hle : rounded (1 : Nat) ≤ rounded z := rounded_le_rounded (by omega)
  omega

/-- **Adding nothing changes nothing.** -/
theorem IsSum.add_zero {x : Float} (h : IsSum x) : x + 0.0 = x := by
  rcases h.isPositive with rfl | hpos
  · decide
  · obtain ⟨hnumber, hlevel⟩ := level_add h.isFinite (show (0.0 : Float).isFinite = true by decide)
    rw [show level (0.0 : Float) = 0 by decide, Int.add_zero, rounded_level h.isFinite] at hlevel
    exact eq_of_level hnumber hlevel (by omega)

theorem IsSum.add {x y : Float} (h : IsSum x) (hy : y.isFinite = true) (h0 : 0.0 ≤ y)
    (hsum : (x + y).isFinite = true) : IsSum (x + y) := by
  refine ⟨hsum, ?_⟩
  have hx0 := h.zero_le
  rw [zero_le_iff (isNaN_of_isFinite h.isFinite)] at hx0
  rw [zero_le_iff (isNaN_of_isFinite hy)] at h0
  rcases h.isPositive with rfl | hpos
  · rcases Int.lt_or_eq_of_le h0 with hlt | hzero
    · right
      rw [(level_add h.isFinite hy).2]
      exact rounded_pos (by omega)
    · obtain ⟨s, hs⟩ := unpack_of_level_eq_zero hy hzero.symm
      left
      have hy' : y = 0.0 ∨ y = -0.0 := by
        cases s with
        | positive => exact .inl (eq_of_unpack (isNaN_of_isFinite hy) hs)
        | negative => exact .inr (eq_of_unpack (isNaN_of_isFinite hy) hs)
      rcases hy' with rfl | rfl <;> decide
  · right
    rw [(level_add h.isFinite hy).2]
    exact rounded_pos (by omega)

end PolicyGates.Double
