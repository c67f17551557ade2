import PolicyGates.Proofs.Double.Rounding
/-!
# Doubles and their parts

The arithmetic works on the parts of a double, a sign, a mantissa and an exponent, and packs the result into
64 bits again.  The parts that come out of 64 bits are `Canonical`, and canonical parts are found again
after packing (`unpack_pack`).  Parts whose exponent is too large are packed as an infinity
(`unpack_pack_large`).
-/
namespace PolicyGates.Double

open Float.Model (UnpackedFloat Format)
open Float.Model.UnpackedFloat

/-- The parts of a double in the one form in which they come out of 64 bits: 53 digits, or fewer at the least
exponent. -/
def Canonical : UnpackedFloat → Prop
  | .finite _ m e _ => m < 2 ^ 53 ∧ -1074 ≤ e ∧ e ≤ 971 ∧ (2 ^ 52 ≤ m ∨ e = -1074)
  | _ => True

@[simp] theorem ofBitVec_toBitVec (s : Sign) : Sign.ofBitVec s.toBitVec = s := by
  cases s <;> rfl

@[simp] theorem unpackSign_packComponents {spec : Format} {sign : Sign} {exponent mantissa} :
    unpackSign (packComponents spec sign exponent mantissa) = sign.toBitVec := by
  ext i hi
  obtain rfl : i = 0 := by omega
  unfold unpackSign
  simp [packComponents, BitVec.getLsbD_append, BitVec.getElem_append]

theorem append_one_toNat (f : BitVec 52) : (1#1 ++ f).toNat = 2 ^ 52 + f.toNat := by
  rw [BitVec.toNat_append, Nat.shiftLeft_eq, Nat.or_comm]
  exact (Nat.or_two_pow_eq_add_of_lt f.isLt).trans (Nat.add_comm _ _)

/-- What three bit fields stand for. -/
def ofFields (s : Sign) (b : BitVec 11) (f : BitVec 52) : UnpackedFloat :=
  if b = -1#_ then (if f = 0#_ then .infinity s else .notANumber)
  else if b = 0#_ then
    if h : f = 0#_ then .zero s
    else .finite s f.toNat (-1074) (by simpa [BitVec.toNat_pos, BitVec.pos_iff_ne_zero] using h)
  else .finite s (1#1 ++ f).toNat (b.toNat - 1075) (by rw [append_one_toNat]; omega)

theorem unpack_eq_ofFields (b : BitVec 64) : unpack Format.binary64 b
    = ofFields (Sign.ofBitVec (@unpackSign Format.binary64 b)) (@unpackExponent Format.binary64 b)
      (@unpackMantissa Format.binary64 b) := by
  unfold unpack ofFields
  dsimp only
  by_cases h1 : @unpackExponent Format.binary64 b = -1#_
  · rw [if_pos h1, if_pos h1]
  · rw [if_neg h1, if_neg h1]
    by_cases h2 : @unpackExponent Format.binary64 b = 0#_
    · rw [if_pos h2, if_pos h2, h2]
      rfl
    · rw [if_neg h2, if_neg h2]
      rfl

theorem unpack_packComponents (s : Sign) (b : BitVec 11) (f : BitVec 52) :
    unpack Format.binary64 (packComponents Format.binary64 s b f) = ofFields s b f := by
  rw [unpack_eq_ofFields, unpackMantissa_packComponents, unpackExponent_packComponents, unpackSign_packComponents,
    ofBitVec_toBitVec]

/-- What holds of every kind of number that bit fields can stand for holds of what they stand for. -/
theorem ofFields_cases {motive : UnpackedFloat → Prop} {s : Sign} {b : BitVec 11} {f : BitVec 52}
    (infinite : b = -1#_ → motive (.infinity s)) (nan : b = -1#_ → motive .notANumber) (zero : motive (.zero s))
    (subnormal : ∀ hm, motive (.finite s f.toNat (-1074) hm))
    (normal : b ≠ -1#_ → b ≠ 0#_ → ∀ hm, motive (.finite s (1#1 ++ f).toNat (b.toNat - 1075) hm)) :
    motive (ofFields s b f) := by
  unfold ofFields
  by_cases h1 : b = -1#_
  · rw [if_pos h1]
    by_cases hf : f = 0#_
    · rw [if_pos hf]
      exact infinite h1
    · rw [if_neg hf]
      exact nan h1
  · rw [if_neg h1]
    by_cases h0 : b = 0#_
    · rw [if_pos h0]
      by_cases hf : f = 0#_
      · rw [dif_pos hf]
        exact zero
      · rw [dif_neg hf]
        exact subnormal _
    · rw [if_neg h0]
      exact normal h1 h0 _

theorem isNaN_ofFields (s : Sign) {b : BitVec 11} (h : b ≠ -1#_) (f : BitVec 52) : (ofFields s b f).isNaN = false :=
  ofFields_cases (motive := fun u => u.isNaN = false) (fun _ => rfl) (fun hc => absurd hc h) rfl (fun _ => rfl)
    (fun _ _ _ => rfl)

theorem canonical_ofFields (s : Sign) (b : BitVec 11) (f : BitVec 52) : Canonical (ofFields s b f) := by
  have hlt : b.toNat < 2 ^ 11 := b.isLt
  have hf : f.toNat < 2 ^ 52 := f.isLt
  have ha := append_one_toNat f
  refine ofFields_cases (motive := Canonical) (fun _ => trivial) (fun _ => trivial) trivial ?_ ?_
  · intro hm
    exact ⟨Nat.lt_trans hf (by decide), by decide, by decide, .inr rfl⟩
  · intro h1 h0 hm
    have hne1 : b.toNat ≠ 2047 := fun hc => h1 (BitVec.eq_of_toNat_eq (by rw [hc]; rfl))
    have hne0 : b.toNat ≠ 0 := fun hc => h0 (BitVec.eq_of_toNat_eq hc)
    exact ⟨by omega, by omega, by omega, .inl (by omega)⟩

theorem pack_finite (s : Sign) {m : Nat} (e : Int) (hm : 0 < m) :
    pack Format.binary64 (.finite s m e hm) =
      if 2 ^ 11 ≤ (e + 1075).toNat + 1 then packedInfinity Format.binary64 s
      else if m.log2 + 1 = 53 then
        packComponents Format.binary64 s (BitVec.ofNat 11 (e + 1075).toNat) (BitVec.ofNat 52 m)
      else packComponents Format.binary64 s 0#11 (BitVec.ofNat 52 m) := by
  have hb : e + 1023 + 52 = e + 1075 := by omega
  rw [← hb]
  rfl

/-- **Canonical parts are found again after packing.** -/
theorem unpack_pack {u : UnpackedFloat} (h : Canonical u) : unpack Format.binary64 (pack Format.binary64 u) = u := by
  cases u with
  | notANumber => rfl
  | infinity s => cases s <;> rfl
  | zero s => cases s <;> rfl
  | finite s m e hm =>
    obtain ⟨h1, h2, h3, h4⟩ := h
    rw [pack_finite, if_neg (show ¬ 2 ^ 11 ≤ (e + 1075).toNat + 1 by omega)]
    by_cases hn : 2 ^ 52 ≤ m
    · have hl : m.log2 + 1 = 53 := by rw [(Nat.log2_eq_iff (by omega)).2 ⟨hn, h1⟩]
      have hv : (BitVec.ofNat 11 (e + 1075).toNat).toNat = (e + 1075).toNat := by
        rw [BitVec.toNat_ofNat]
        exact Nat.mod_eq_of_lt (by omega)
      have hne : ∀ c : BitVec 11, c.toNat ≠ (e + 1075).toNat → BitVec.ofNat 11 (e + 1075).toNat ≠ c := by
        rintro c hc rfl
        exact hc hv
      rw [if_pos hl, unpack_packComponents, ofFields, if_neg (hne (-1#_) (by simp; omega)),
        if_neg (hne 0#_ (by simp; omega))]
      have hm' : (1#1 ++ BitVec.ofNat 52 m).toNat = m := by
        rw [append_one_toNat, BitVec.toNat_ofNat]
        omega
      rw [UnpackedFloat.finite.injEq, hv]
      exact ⟨rfl, hm', by omega⟩
    · obtain rfl : e = -1074 := h4.resolve_left hn
      have hl : ¬ m.log2 + 1 = 53 := by
        have := (Nat.log2_lt (by omega)).2 (show m < 2 ^ 52 by omega)
        omega
      have hv : (BitVec.ofNat 52 m).toNat = m := by
        rw [BitVec.toNat_ofNat]
        exact Nat.mod_eq_of_lt (by omega)
      have hne : BitVec.ofNat 52 m ≠ 0#_ := fun hc => by
        rw [hc] at hv
        simp at hv
        omega
      rw [if_neg hl, unpack_packComponents, ofFields, if_neg (by decide), if_pos rfl, dif_neg hne,
        UnpackedFloat.finite.injEq]
      exact ⟨rfl, hv, rfl⟩

/-- **An exponent that is too large makes an infinity.** -/
theorem unpack_pack_large (s : Sign) {m : Nat} {e : Int} (hm : 0 < m) (h : 972 ≤ e) :
    unpack Format.binary64 (pack Format.binary64 (.finite s m e hm)) = .infinity s := by
  rw [pack_finite, if_pos (show 2 ^ 11 ≤ (e + 1075).toNat + 1 by omega)]
  exact unpack_pack (u := .infinity s) trivial

theorem isNaN_packedInfinity (s : Sign) :
    (unpack Format.binary64 (packedInfinity Format.binary64 s)).isNaN = false := by
  cases s <;> rfl

/-- **Parts that are a number are packed as a number**, whatever their exponent. -/
theorem isNaN_unpack_pack {u : UnpackedFloat} (h : u.isNaN = false) :
    (unpack Format.binary64 (pack Format.binary64 u)).isNaN = false := by
  cases u with
  | notANumber => cases h
  | infinity s => exact isNaN_packedInfinity s
  | zero s => cases s <;> rfl
  | finite s m e hm =>
    rw [pack_finite]
    split
    · exact isNaN_packedInfinity s
    · next hlt =>
      have hne : BitVec.ofNat 11 (e + 1075).toNat ≠ -1#_ := fun hc => by
        have hv := congrArg BitVec.toNat hc
        rw [BitVec.toNat_ofNat, Nat.mod_eq_of_lt (by omega)] at hv
        simp at hv
        omega
      split
      · rw [unpack_packComponents]
        exact isNaN_ofFields s hne _
      · rw [unpack_packComponents]
        exact isNaN_ofFields s (by decide) _

/-- **What comes out of 64 bits is canonical.** -/
theorem canonical_unpack (b : BitVec 64) : Canonical (unpack Format.binary64 b) := by
  rw [unpack_eq_ofFields]
  exact canonical_ofFields _ _ _

/-! ## Back to the bits -/

theorem eq_packComponents (b : BitVec 64) :
    b = packComponents Format.binary64 (Sign.ofBitVec (@unpackSign Format.binary64 b))
      (@unpackExponent Format.binary64 b) (@unpackMantissa Format.binary64 b) := by
  have hs : ∀ c : BitVec 1, (Sign.ofBitVec c).toBitVec = c := by decide
  unfold packComponents
  rw [hs]
  ext i hi
  rw [BitVec.getElem_append]
  split
  · simp [unpackMantissa, BitVec.getLsbD_eq_getElem hi]
  · next h52 =>
    have hge : 52 ≤ i := Nat.le_of_not_lt h52
    rw [BitVec.getElem_append]
    split
    · simp [unpackExponent, show 52 + (i - 52) = i by omega, BitVec.getLsbD_eq_getElem hi]
    · next h11 =>
      have hge' : 11 ≤ i - 52 := Nat.le_of_not_lt h11
      unfold unpackSign
      simp [show 63 + (i - 52 - 11) = i by omega, BitVec.getLsbD_eq_getElem hi]

/-- **Bits that hold a number are found again from their parts.** -/
theorem pack_unpack {b : BitVec 64} (h : (unpack Format.binary64 b).isNaN = false) :
    pack Format.binary64 (unpack Format.binary64 b) = b := by
  have hb := eq_packComponents b
  rw [unpack_eq_ofFields] at h ⊢
  conv => rhs; rw [hb]
  generalize Sign.ofBitVec (@unpackSign Format.binary64 b) = s at h ⊢
  generalize @unpackExponent Format.binary64 b = ev at h ⊢
  generalize @unpackMantissa Format.binary64 b = fv at h ⊢
  have hlt : ev.toNat < 2 ^ 11 := ev.isLt
  have hf : fv.toNat < 2 ^ 52 := fv.isLt
  rw [ofFields] at h ⊢
  by_cases h1 : ev = -1#_
  · rw [if_pos h1] at h ⊢
    by_cases h2 : fv = 0#_
    · rw [if_pos h2, h1, h2]
      rfl
    · rw [if_neg h2] at h
      cases h
  · have hne1 : ev.toNat ≠ 2047 := fun hc => h1 (BitVec.eq_of_toNat_eq (by rw [hc]; rfl))
    rw [if_neg h1]
    by_cases h2 : ev = 0#_
    · rw [if_pos h2]
      by_cases h3 : fv = 0#_
      · rw [dif_pos h3, h2, h3]
        rfl
      · have hpos : fv.toNat ≠ 0 := fun hc => h3 (BitVec.eq_of_toNat_eq hc)
        have hl := (Nat.log2_lt hpos).2 hf
        rw [dif_neg h3, pack_finite, if_neg (by decide), if_neg (by omega), h2, BitVec.ofNat_toNat, BitVec.setWidth_eq]
    · have ha := append_one_toNat fv
      have hl : (1#1 ++ fv).toNat.log2 = 52 := (Nat.log2_eq_iff (by omega)).2 ⟨by omega, by omega⟩
      have he : ((ev.toNat : Int) - 1075 + 1075).toNat = ev.toNat := by omega
      rw [if_neg h2, pack_finite, he, if_neg (by omega), if_pos (by omega), BitVec.ofNat_toNat, BitVec.setWidth_eq]
      congr 1
      apply BitVec.eq_of_toNat_eq
      rw [BitVec.toNat_ofNat, ha]
      omega

theorem eq_of_unpack {x y : Float} (hx : x.isNaN = false) (h : x.toModel.unpack = y.toModel.unpack) : x = y := by
  have hy : y.isNaN = false := by
    rw [← hx]
    show y.toModel.unpack.isNaN = x.toModel.unpack.isNaN
    rw [h]
  obtain ⟨⟨⟨bx⟩, hvx⟩⟩ := x
  obtain ⟨⟨⟨vy⟩, hvy⟩⟩ := y
  obtain rfl : bx = vy := (pack_unpack hx).symm.trans ((congrArg _ h).trans (pack_unpack hy))
  rfl

end PolicyGates.Double
