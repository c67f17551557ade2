import PolicyGates.Proofs.Double.Packing
import Mathlib.Order.Compare
/-!
# The order of doubles

A double that is a number lies a whole number of steps of `2^-1074` away from zero, its `level`; the infinities
stand at the level that comes after the last finite one.  Comparisons of doubles are comparisons of levels
(`le_iff`, `lt_iff`, `beq_iff`), which makes the order of all numbers, infinities included, a total one.
-/
namespace PolicyGates.Double

open Float.Model (UnpackedFloat Format)
open Float.Model.UnpackedFloat

/-- The steps from zero of a mantissa and an exponent. -/
def magnitude (m : Nat) (e : Int) : Nat := m * 2 ^ (e + 1074).toNat

/-- The steps from zero at which the infinities stand. -/
@[irreducible] def infiniteLevel : Nat := 2 ^ 2098

/-- The steps from zero of the parts of a double, with their sign. -/
def steps : UnpackedFloat → Int
  | .notANumber => 0
  | .infinity s => s.apply infiniteLevel
  | .zero _ => 0
  | .finite s m e _ => s.apply (magnitude m e)

/-- The steps from zero of a double. -/
def level (x : Float) : Int := steps x.toModel.unpack

theorem natAbs_apply (s : Sign) (n : Nat) : (s.apply (n : Int)).natAbs = n := by
  cases s
  · exact Int.natAbs_neg n
  · exact Int.natAbs_natCast n

/-! ## Mantissas and exponents -/

theorem magnitude_pos {m : Nat} (hm : 0 < m) (e : Int) : 0 < magnitude m e :=
  Nat.mul_pos hm (Nat.two_pow_pos _)

theorem places_lt {m k n : Nat} (h : m < 2 ^ 53) (hk : 53 + k ≤ n) : m * 2 ^ k < 2 ^ n :=
  calc m * 2 ^ k < 2 ^ 53 * 2 ^ k := Nat.mul_lt_mul_of_pos_right h (Nat.two_pow_pos _)
    _ = 2 ^ (53 + k) := by rw [Nat.pow_add]
    _ ≤ 2 ^ n := Nat.pow_le_pow_right (by decide) hk

/-- The exponent is kept a variable: the power itself is too large to be worked out. -/
theorem infiniteLevel_eq : ∃ n, n = 2098 ∧ infiniteLevel = 2 ^ n :=
  ⟨2098, rfl, by unfold infiniteLevel; rfl⟩

theorem magnitude_lt {m : Nat} {e : Int} (h : m < 2 ^ 53) (he : e ≤ 971) : magnitude m e < infiniteLevel := by
  obtain ⟨n, hn, hi⟩ := infiniteLevel_eq
  rw [hi]
  exact places_lt h (by omega)

theorem infiniteLevel_le_magnitude {m : Nat} {e : Int} (h : 2 ^ 52 ≤ m) (he : 972 ≤ e) :
    infiniteLevel ≤ magnitude m e := by
  obtain ⟨n, hn, hi⟩ := infiniteLevel_eq
  rw [hi, show n = 52 + (n - 52) by omega, Nat.pow_add]
  exact Nat.mul_le_mul h (Nat.pow_le_pow_right (by decide) (by omega))

theorem infiniteLevel_pos : 0 < infiniteLevel :=
  Nat.lt_of_le_of_lt (Nat.zero_le _) (magnitude_lt (m := 0) (e := 0) (by decide) (by decide))

theorem magnitude_lt_of_exponent {m m' : Nat} {e e' : Int} (h : m < 2 ^ 53) (he : -1074 ≤ e) (hlt : e < e')
    (hn : 2 ^ 52 ≤ m') : magnitude m e < magnitude m' e' := by
  unfold magnitude
  calc m * 2 ^ (e + 1074).toNat < 2 ^ 53 * 2 ^ (e + 1074).toNat := Nat.mul_lt_mul_of_pos_right h (Nat.two_pow_pos _)
    _ = 2 ^ 52 * 2 ^ ((e + 1074).toNat + 1) := by rw [Nat.pow_succ]; ring
    _ ≤ 2 ^ 52 * 2 ^ (e' + 1074).toNat := Nat.mul_le_mul_left _ (Nat.pow_le_pow_right (by decide) (by omega))
    _ ≤ m' * 2 ^ (e' + 1074).toNat := Nat.mul_le_mul_right _ hn

theorem compare_cast (a b : Nat) : compare (a : Int) (b : Int) = compare a b := by
  rcases Nat.lt_trichotomy a b with h | h | h
  · rw [Nat.compare_eq_lt.2 h, compare_lt_iff_lt.2 (by omega)]
  · rw [Nat.compare_eq_eq.2 h, compare_eq_iff_eq.2 (by omega)]
  · rw [Nat.compare_eq_gt.2 h, compare_gt_iff_gt.2 (by omega)]

/-- **Exponents first and then mantissas is the order of the steps.** -/
theorem compare_magnitude {s s' : Sign} {m m' : Nat} {e e' : Int} {hm : 0 < m} {hm' : 0 < m'}
    (h : Canonical (.finite s m e hm)) (h' : Canonical (.finite s' m' e' hm')) :
    (compare e e').then (compare m m') = compare (magnitude m e) (magnitude m' e') := by
  obtain ⟨h1, h2, h3, h4⟩ := h
  obtain ⟨h1', h2', h3', h4'⟩ := h'
  rcases lt_trichotomy e e' with hlt | rfl | hgt
  · rw [compare_lt_iff_lt.2 hlt,
      compare_lt_iff_lt.2 (magnitude_lt_of_exponent h1 h2 hlt (h4'.resolve_right (by omega)))]
    rfl
  · rw [compare_eq_iff_eq.2 rfl]
    unfold magnitude
    have hp := Nat.two_pow_pos (e + 1074).toNat
    rcases Nat.lt_trichotomy m m' with hlt | rfl | hgt
    · rw [compare_lt_iff_lt.2 hlt, compare_lt_iff_lt.2 (Nat.mul_lt_mul_of_pos_right hlt hp)]
      rfl
    · rw [compare_eq_iff_eq.2 rfl, compare_eq_iff_eq.2 rfl]
      rfl
    · rw [compare_gt_iff_gt.2 hgt, compare_gt_iff_gt.2 (Nat.mul_lt_mul_of_pos_right hgt hp)]
      rfl
  · rw [compare_gt_iff_gt.2 hgt,
      compare_gt_iff_gt.2 (magnitude_lt_of_exponent h1' h2' hgt (h4.resolve_right (by omega)))]
    rfl

/-! ## Parts -/

theorem compare_neg (a b : Int) : compare (-a) (-b) = (compare a b).swap := by
  rcases lt_trichotomy a b with h | rfl | h
  · rw [compare_lt_iff_lt.2 h, compare_gt_iff_gt.2 (by omega)]
    rfl
  · rw [compare_eq_iff_eq.2 rfl, compare_eq_iff_eq.2 rfl]
    rfl
  · rw [compare_gt_iff_gt.2 h, compare_lt_iff_lt.2 (by omega)]
    rfl

/-- **The parts are compared as their steps are.** -/
theorem compare_steps {u v : UnpackedFloat} (hu : Canonical u) (hv : Canonical v) (hun : u.isNaN = false)
    (hvn : v.isNaN = false) : u.compare v = some (compare (steps u) (steps v)) := by
  have hi := infiniteLevel_pos
  have hlt : ∀ {a b : Int}, a < b → some Ordering.lt = some (compare a b) := fun h => by rw [compare_lt_iff_lt.2 h]
  have hgt : ∀ {a b : Int}, b < a → some Ordering.gt = some (compare a b) := fun h => by rw [compare_gt_iff_gt.2 h]
  have heq : ∀ a : Int, some Ordering.eq = some (compare a a) := fun a => by rw [compare_eq_iff_eq.2 rfl]
  cases u with
  | notANumber => cases hun
  | infinity s =>
    cases v with
    | notANumber => cases hvn
    | infinity s' =>
      cases s <;> cases s'
      · exact heq _
      · exact hlt (show -(infiniteLevel : Int) < infiniteLevel by omega)
      · exact hgt (show -(infiniteLevel : Int) < infiniteLevel by omega)
      · exact heq _
    | zero s' =>
      cases s
      · exact hlt (show -(infiniteLevel : Int) < 0 by omega)
      · exact hgt (show (0 : Int) < infiniteLevel by omega)
    | finite s' m' e' hm' =>
      have := magnitude_lt hv.1 hv.2.2.1
      cases s <;> cases s'
      · exact hlt (show -(infiniteLevel : Int) < -(magnitude m' e' : Int) by omega)
      · exact hlt (show -(infiniteLevel : Int) < magnitude m' e' by omega)
      · exact hgt (show -(magnitude m' e' : Int) < infiniteLevel by omega)
      · exact hgt (show (magnitude m' e' : Int) < infiniteLevel by omega)
  | zero s =>
    cases v with
    | notANumber => cases hvn
    | infinity s' =>
      cases s'
      · exact hgt (show -(infiniteLevel : Int) < 0 by omega)
      · exact hlt (show (0 : Int) < infiniteLevel by omega)
    | zero s' => exact heq _
    | finite s' m' e' hm' =>
      have := magnitude_pos hm' e'
      cases s'
      · exact hgt (show -(magnitude m' e' : Int) < 0 by omega)
      · exact hlt (show (0 : Int) < magnitude m' e' by omega)
  | finite s m e hm =>
    have hp := magnitude_pos hm e
    have hl := magnitude_lt hu.1 hu.2.2.1
    cases v with
    | notANumber => cases hvn
    | infinity s' =>
      cases s <;> cases s'
      · exact hgt (show -(infiniteLevel : Int) < -(magnitude m e : Int) by omega)
      · exact hlt (show -(magnitude m e : Int) < infiniteLevel by omega)
      · exact hgt (show -(infiniteLevel : Int) < magnitude m e by omega)
      · exact hlt (show (magnitude m e : Int) < infiniteLevel by omega)
    | zero s' =>
      cases s
      · exact hlt (show -(magnitude m e : Int) < 0 by omega)
      · exact hgt (show (0 : Int) < magnitude m e by omega)
    | finite s' m' e' hm' =>
      have hp' := magnitude_pos hm' e'
      have hc := compare_magnitude hu hv
      cases s <;> cases s'
      · show some ((compare e e').then (compare m m')).swap
          = some (compare (-(magnitude m e : Int)) (-(magnitude m' e' : Int)))
        rw [hc, compare_neg, compare_cast]
      · exact hlt (show -(magnitude m e : Int) < magnitude m' e' by omega)
      · exact hgt (show -(magnitude m' e' : Int) < magnitude m e by omega)
      · show some ((compare e e').then (compare m m')) = some (compare (magnitude m e : Int) (magnitude m' e'))
        rw [hc, compare_cast]

/-! ## Doubles -/

theorem canonical (x : Float) : Canonical x.toModel.unpack := canonical_unpack _

theorem exists_finite {x : Float} (hf : x.isFinite = true) (h0 : level x ≠ 0) : ∃ s m e hm,
    x.toModel.unpack = .finite s m e hm ∧ Canonical (.finite s m e hm) ∧ level x = s.apply (magnitude m e) := by
  have hc := canonical x
  change x.toModel.unpack.isFinite = true at hf
  unfold level at h0 ⊢
  cases hu : x.toModel.unpack with
  | notANumber =>
    rw [hu] at hf
    cases hf
  | infinity s =>
    rw [hu] at hf
    cases hf
  | zero s =>
    rw [hu] at h0
    exact absurd rfl h0
  | finite s m e hm =>
    rw [hu] at hc
    exact ⟨s, m, e, hm, rfl, hc, rfl⟩

theorem unpack_of_level_eq_zero {x : Float} (hf : x.isFinite = true) (h : level x = 0) :
    ∃ s, x.toModel.unpack = .zero s := by
  change x.toModel.unpack.isFinite = true at hf
  unfold level at h
  cases hu : x.toModel.unpack with
  | notANumber =>
    rw [hu] at hf
    cases hf
  | infinity s =>
    rw [hu] at hf
    cases hf
  | zero s => exact ⟨s, rfl⟩
  | finite s m e hm =>
    rw [hu] at h
    have := magnitude_pos hm e
    cases s with
    | positive =>
      change (magnitude m e : Int) = 0 at h
      omega
    | negative =>
      change -(magnitude m e : Int) = 0 at h
      omega

section Comparisons

variable {x y : Float} (hx : x.isNaN = false) (hy : y.isNaN = false)

include hx hy in
theorem compare_level : x.toModel.unpack.compare y.toModel.unpack = some (compare (level x) (level y)) :=
  compare_steps (canonical x) (canonical y) hx hy

include hx hy in
/-- **At most is at most in steps.** -/
theorem le_iff : x ≤ y ↔ level x ≤ level y := by
  show decide ((x.toModel.unpack.compare y.toModel.unpack).any (·.isLE) = true) = true ↔ _
  rw [compare_level hx hy, decide_eq_true_eq, Option.any_some, Ordering.isLE_iff_ne_gt, compare_gt_iff_gt, not_lt]

include hx hy in
/-- **Less is less in steps.** -/
theorem lt_iff : x < y ↔ level x < level y := by
  show decide ((x.toModel.unpack.compare y.toModel.unpack == some .lt) = true) = true ↔ _
  rw [compare_level hx hy, decide_eq_true_eq, beq_iff_eq, Option.some.injEq, compare_lt_iff_lt]

include hx hy in
/-- **Equal is equal in steps**; the two zeros are equal. -/
theorem beq_iff : (x == y) = true ↔ level x = level y := by
  show (x.toModel.unpack.compare y.toModel.unpack == some .eq) = true ↔ _
  rw [compare_level hx hy, beq_iff_eq, Option.some.injEq, compare_eq_iff_eq]

include hx hy in
theorem not_le_iff : ¬x ≤ y ↔ y < x := by
  rw [le_iff hx hy, lt_iff hy hx, not_le]

include hx hy in
theorem not_lt_iff : ¬x < y ↔ y ≤ x := by
  rw [lt_iff hx hy, le_iff hy hx, not_lt]

end Comparisons

/-! ## Finite doubles -/

theorem isNaN_of_isFinite {x : Float} (h : x.isFinite = true) : x.isNaN = false := by
  change x.toModel.unpack.isFinite = true at h
  show x.toModel.unpack.isNaN = false
  cases hu : x.toModel.unpack with
  | notANumber => rw [hu] at h; cases h
  | infinity s => rfl
  | zero s => rfl
  | finite s m e hm => rfl

/-- **A number is finite if it stands before the infinities.** -/
theorem isFinite_iff {x : Float} (h : x.isNaN = false) : x.isFinite = true ↔ (level x).natAbs < infiniteLevel := by
  have hc := canonical x
  change x.toModel.unpack.isNaN = false at h
  show x.toModel.unpack.isFinite = true ↔ (steps x.toModel.unpack).natAbs < infiniteLevel
  generalize x.toModel.unpack = u at h hc ⊢
  cases u with
  | notANumber => cases h
  | infinity s =>
    refine ⟨(by intro h; cases h), fun h => absurd h ?_⟩
    change ¬(s.apply infiniteLevel).natAbs < infiniteLevel
    rw [natAbs_apply]
    exact Nat.lt_irrefl infiniteLevel
  | zero s => exact ⟨fun _ => infiniteLevel_pos, fun _ => rfl⟩
  | finite s m e hm =>
    refine ⟨fun _ => ?_, fun _ => rfl⟩
    change (s.apply (magnitude m e)).natAbs < infiniteLevel
    rw [natAbs_apply]
    exact magnitude_lt hc.1 hc.2.2.1

theorem isFinite_of_le {a x b : Float} (ha : a.isFinite = true) (hb : b.isFinite = true) (hx : x.isNaN = false)
    (h : a ≤ x) (h' : x ≤ b) :
    x.isFinite = true := by
  have han := isNaN_of_isFinite ha
  have hbn := isNaN_of_isFinite hb
  rw [isFinite_iff hx]
  rw [isFinite_iff han] at ha
  rw [isFinite_iff hbn] at hb
  rw [le_iff han hx] at h
  rw [le_iff hx hbn] at h'
  omega

theorem magnitude_injective {s s' : Sign} {m m' : Nat} {e e' : Int} {hm : 0 < m} {hm' : 0 < m'}
    (h : Canonical (.finite s m e hm)) (h' : Canonical (.finite s' m' e' hm')) (he : magnitude m e = magnitude m' e') :
    m = m' ∧ e = e' := by
  have hc := compare_magnitude h h'
  rw [he, compare_eq_iff_eq.2 rfl, Ordering.then_eq_eq, compare_eq_iff_eq, compare_eq_iff_eq] at hc
  exact ⟨hc.2, hc.1⟩

theorem apply_injective {s s' : Sign} {a b : Nat} (ha : 0 < a) (h : s.apply a = s'.apply b) : s = s' ∧ a = b := by
  cases s <;> cases s' <;> simp only [Sign.apply] at h <;> refine ⟨?_, by omega⟩
  · rfl
  · omega
  · omega
  · rfl

/-- Parts at one level are the same, zero aside, which has two signs. -/
theorem eq_of_steps {u v : UnpackedFloat} (hu : Canonical u) (hv : Canonical v) (h : steps u = steps v)
    (h0 : steps u ≠ 0) :
    u = v := by
  cases u with
  | notANumber => exact absurd rfl h0
  | zero s => exact absurd rfl h0
  | infinity s =>
    cases v with
    | notANumber => exact absurd h h0
    | zero s' => exact absurd h h0
    | infinity s' => rw [(apply_injective infiniteLevel_pos h).1]
    | finite s' m' e' hm' => exact absurd (apply_injective infiniteLevel_pos h).2 (magnitude_lt hv.1 hv.2.2.1).ne'
  | finite s m e hm =>
    cases v with
    | notANumber => exact absurd h h0
    | zero s' => exact absurd h h0
    | infinity s' => exact absurd (apply_injective (magnitude_pos hm e) h).2 (magnitude_lt hu.1 hu.2.2.1).ne
    | finite s' m' e' hm' =>
      obtain ⟨rfl, hmag⟩ := apply_injective (magnitude_pos hm e) h
      obtain ⟨rfl, rfl⟩ := magnitude_injective hu hv hmag
      rfl

/-- **Numbers at one level are the same double**, zero aside, which has two signs. -/
theorem eq_of_level {x y : Float} (hx : x.isNaN = false) (h : level x = level y) (h0 : level x ≠ 0) : x = y :=
  eq_of_unpack hx (eq_of_steps (canonical x) (canonical y) h h0)

theorem isNaN_of_beq {x y : Float} (h : (x == y) = true) : x.isNaN = false ∧ y.isNaN = false := by
  change (x.toModel.unpack.compare y.toModel.unpack == some .eq) = true at h
  show x.toModel.unpack.isNaN = false ∧ y.toModel.unpack.isNaN = false
  cases hu : x.toModel.unpack <;> cases hv : y.toModel.unpack <;> first | exact ⟨rfl, rfl⟩ | (rw [hu, hv] at h; cases h)

theorem isNaN_of_le {x y : Float} (h : x ≤ y) : x.isNaN = false ∧ y.isNaN = false := by
  change decide ((x.toModel.unpack.compare y.toModel.unpack).any (·.isLE) = true) = true at h
  show x.toModel.unpack.isNaN = false ∧ y.toModel.unpack.isNaN = false
  cases hu : x.toModel.unpack <;> cases hv : y.toModel.unpack <;> first | exact ⟨rfl, rfl⟩ | (rw [hu, hv] at h; cases h)

/-- **What equals a number other than zero is that number.** -/
theorem eq_of_beq {x y : Float} (h0 : level y ≠ 0) (h : (x == y) = true) : x = y := by
  obtain ⟨hx, hy⟩ := isNaN_of_beq h
  rw [beq_iff hx hy] at h
  exact eq_of_level hx h (by rw [h]; exact h0)

end PolicyGates.Double
