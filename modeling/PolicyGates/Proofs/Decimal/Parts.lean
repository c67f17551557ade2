import PolicyGates.Proofs.Double.Order
import PolicyGates.Decimal.Layout
/-!
# The parts of a double, twice

A number is written from its sign, its mantissa and its exponent, which are read off its bits.  They are the parts that
the arithmetic works on (`ofFloat?_eq`).
-/
namespace PolicyGates.Decimal

open Double
open Float.Model (UnpackedFloat Format)
open Float.Model.UnpackedFloat

theorem unpackMantissa_toNat (b : BitVec 64) : (@unpackMantissa Format.binary64 b).toNat = b.toNat % 2 ^ 52 := by
  rw [unpackMantissa, BitVec.toNat_cast, BitVec.extractLsb_toNat, Nat.shiftRight_zero]
  rfl

theorem unpackExponent_toNat (b : BitVec 64) :
    (@unpackExponent Format.binary64 b).toNat = b.toNat / 2 ^ 52 % 2048 := by
  rw [unpackExponent, BitVec.toNat_cast, BitVec.extractLsb_toNat, Nat.shiftRight_eq_div_pow]
  rfl

theorem unpackSign_toNat (b : BitVec 64) : (@unpackSign Format.binary64 b).toNat = b.toNat / 2 ^ 63 := by
  unfold unpackSign
  rw [BitVec.toNat_cast, BitVec.extractLsb_toNat, Nat.shiftRight_eq_div_pow]
  exact Nat.mod_eq_of_lt (by
    show b.toNat / 2 ^ 63 < 2
    omega)

def isNegative : Sign → Bool
  | .negative => true
  | .positive => false

/-- The parts of a number as it is written from them. -/
def Binary.ofParts? : UnpackedFloat → Option Binary
  | .notANumber => none
  | .infinity _ => none
  | .zero s => some ⟨isNegative s, 0, -1074⟩
  | .finite s m e _ => some ⟨isNegative s, m, e⟩

theorem isNegative_unpackSign (b : BitVec 64) :
    isNegative (Sign.ofBitVec (@unpackSign Format.binary64 b)) = decide (2 ^ 63 ≤ b.toNat) := by
  have hs := unpackSign_toNat b
  have hcases : ∀ c : BitVec 1, isNegative (Sign.ofBitVec c) = decide (c.toNat ≠ 0) := by decide
  rw [hcases, hs, decide_eq_decide]
  omega

/-- **The parts that the arithmetic works on are the parts that a number is written from.** -/
theorem ofFloat?_eq (x : Float) : Binary.ofFloat? x = Binary.ofParts? x.toModel.unpack := by
  obtain ⟨⟨⟨b⟩, hv⟩⟩ := x
  change (if b.toNat / 2 ^ 52 % 2048 = 2047 then none
    else if b.toNat / 2 ^ 52 % 2048 = 0 then some (⟨decide (2 ^ 63 ≤ b.toNat), b.toNat % 2 ^ 52, -1074⟩ : Binary)
    else some ⟨decide (2 ^ 63 ≤ b.toNat), 2 ^ 52 + b.toNat % 2 ^ 52, (b.toNat / 2 ^ 52 % 2048 : Nat) - 1075⟩)
    = Binary.ofParts? (unpack Format.binary64 b)
  rw [unpack_eq_ofFields, ← unpackExponent_toNat, ← unpackMantissa_toNat, ← isNegative_unpackSign]
  generalize @unpackExponent Format.binary64 b = ev
  generalize @unpackMantissa Format.binary64 b = fv
  unfold ofFields
  by_cases h1 : ev = -1#_
  · rw [if_pos h1, if_pos (by rw [h1]; rfl)]
    by_cases h2 : fv = 0#_
    · rw [if_pos h2]
      rfl
    · rw [if_neg h2]
      rfl
  · have hne1 : ev.toNat ≠ 2047 := fun hc => h1 (BitVec.eq_of_toNat_eq (by rw [hc]; rfl))
    rw [if_neg h1, if_neg hne1]
    by_cases h2 : ev = 0#_
    · rw [if_pos h2, if_pos (by rw [h2]; rfl)]
      by_cases h3 : fv = 0#_
      · rw [dif_pos h3, h3]
        rfl
      · rw [dif_neg h3]
        rfl
    · have hne0 : ev.toNat ≠ 0 := fun hc => h2 (BitVec.eq_of_toNat_eq hc)
      rw [if_neg h2, if_neg hne0, ← append_one_toNat]
      rfl

theorem ofFloat?_ne_none {x : Float} (h : x.isFinite = true) : Binary.ofFloat? x ≠ none := by
  change x.toModel.unpack.isFinite = true at h
  rw [ofFloat?_eq]
  cases hu : x.toModel.unpack with
  | notANumber => rw [hu] at h; cases h
  | infinity s => rw [hu] at h; cases h
  | zero s => exact Option.some_ne_none _
  | finite s m e hm => exact Option.some_ne_none _

theorem isFinite_of_isWhole {x : Float} (h : isWhole x = true) : x.isFinite = true := by
  unfold isWhole at h
  rw [ofFloat?_eq] at h
  show x.toModel.unpack.isFinite = true
  cases hu : x.toModel.unpack with
  | notANumber => rw [hu] at h; cases h
  | infinity s => rw [hu] at h; cases h
  | zero s => rfl
  | finite s m e hm => rfl

/-- How a decimal is written, without the zeros at its end. -/
def written (negative : Bool) (v : Nat) (e : Int) : List Char :=
  let body := Layout.standard.place (dropZeros (digitsOf v)) (e + (digitsOf v).length)
  if negative then '-' :: body else body

theorem chars_of_shortest {x : Float} {negative : Bool} {m v : Nat} {q e : Int}
    (hx : Binary.ofFloat? x = some ⟨negative, m, q⟩) (hm : m ≠ 0) (h : shortest m q = ⟨v, e⟩) :
    chars x = written negative v e := by
  unfold chars Layout.chars
  rw [hx]
  simp only [if_neg hm, h]
  rfl

theorem chars_of_level_eq_zero {x : Float} (hx : x.isNaN = false) (h : level x = 0) : chars x = ['0'] := by
  have hb : ∃ s, x.toModel.unpack = .zero s := by
    change x.toModel.unpack.isNaN = false at hx
    change steps x.toModel.unpack = 0 at h
    generalize x.toModel.unpack = u at hx h
    cases u with
    | notANumber => cases hx
    | infinity s =>
      have := infiniteLevel_pos
      have hl := natAbs_apply s infiniteLevel
      rw [show s.apply infiniteLevel = 0 from h] at hl
      exact absurd hl this.ne
    | zero s => exact ⟨s, rfl⟩
    | finite s m e hm =>
      have := magnitude_pos hm e
      have hl := natAbs_apply s (magnitude m e)
      rw [show s.apply (magnitude m e) = 0 from h] at hl
      exact absurd hl this.ne
  obtain ⟨s, hs⟩ := hb
  unfold chars Layout.chars
  rw [ofFloat?_eq, hs]
  rfl

end PolicyGates.Decimal
