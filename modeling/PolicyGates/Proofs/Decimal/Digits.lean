import Mathlib.Data.List.TakeDrop
import PolicyGates.Decimal.Numeral
import PolicyGates.Proofs.Double.Scientific
/-!
# Reading digits

Digits with an exponent are read as the double nearest to what they write (`level_nearest`), however many there are and
however far out: what is decided by its size alone lies past the least or the largest double.
-/
namespace PolicyGates.Decimal

open Double

/-! ## Powers of two and of ten -/

theorem two_pow_le_ten_pow {x n : Nat} (h : 28 * x ≤ 93 * n) : 2 ^ x ≤ 10 ^ n := by
  refine (Nat.pow_le_pow_iff_left (show 93 ≠ 0 by decide)).1 ?_
  calc (2 ^ x) ^ 93 = (2 ^ 93) ^ x := by rw [← Nat.pow_mul, ← Nat.pow_mul, Nat.mul_comm]
    _ ≤ (10 ^ 28) ^ x := Nat.pow_le_pow_left (by decide) x
    _ = 10 ^ (28 * x) := (Nat.pow_mul 10 28 x).symm
    _ ≤ 10 ^ (93 * n) := Nat.pow_le_pow_right (by decide) h
    _ = (10 ^ n) ^ 93 := by rw [← Nat.pow_mul, Nat.mul_comm]

theorem ten_pow_le_two_pow {x n : Nat} (h : 103 * n ≤ 31 * x) : 10 ^ n ≤ 2 ^ x := by
  refine (Nat.pow_le_pow_iff_left (show 31 ≠ 0 by decide)).1 ?_
  calc (10 ^ n) ^ 31 = (10 ^ 31) ^ n := by rw [← Nat.pow_mul, ← Nat.pow_mul, Nat.mul_comm]
    _ ≤ (2 ^ 103) ^ n := Nat.pow_le_pow_left (by decide) n
    _ = 2 ^ (103 * n) := (Nat.pow_mul 2 103 n).symm
    _ ≤ 2 ^ (31 * x) := Nat.pow_le_pow_right (by decide) h
    _ = (2 ^ x) ^ 31 := by rw [← Nat.pow_mul, Nat.mul_comm]

theorem decimalLevel_eq_zero {v n : Nat} {e : Int} (hv : v < 10 ^ n) (h : e + n < -330) : decimalLevel v e = 0 := by
  obtain ⟨w, hw, hwhole⟩ := wholeLevel_eq
  obtain ⟨j, hj⟩ : ∃ j, j = 330 := ⟨_, rfl⟩
  refine nearestTo_eq_zero ?_
  rw [hwhole, show e.toNat = 0 by omega, Nat.pow_zero, Nat.mul_one]
  calc 2 * (v * 2 ^ w) = v * 2 ^ (w + 1) := by ring
    _ < 10 ^ n * 2 ^ (w + 1) := Nat.mul_lt_mul_of_pos_right hv (Nat.two_pow_pos _)
    _ ≤ 10 ^ n * 10 ^ j := Nat.mul_le_mul_left _ (two_pow_le_ten_pow (by omega))
    _ = 10 ^ (n + j) := (Nat.pow_add 10 n j).symm
    _ ≤ 10 ^ (-e).toNat := Nat.pow_le_pow_right (by decide) (by omega)

/-- A decimal that starts so far before the point is nearer to infinity than to any double. -/
theorem infiniteLevel_le_decimalLevel {v n : Nat} {e : Int} (hv : 10 ^ n ≤ v) (h : 309 ≤ e + n) :
    infiniteLevel ≤ decimalLevel v e := by
  obtain ⟨w, hw, hwhole⟩ := wholeLevel_eq
  obtain ⟨k, hk, hi⟩ := infiniteLevel_eq
  obtain ⟨j, hj⟩ : ∃ j, j = 309 := ⟨_, rfl⟩
  rw [hi]
  refine le_nearestTo (Nat.pow_pos (by decide)) (by omega) ?_
  rw [hwhole, show k = k - w + w by omega, Nat.pow_add, Nat.mul_right_comm]
  refine Nat.mul_le_mul_right _ ?_
  calc 2 ^ (k - w) * 10 ^ (-e).toNat
    _ ≤ 10 ^ j * 10 ^ (-e).toNat := Nat.mul_le_mul_right _ (two_pow_le_ten_pow (by omega))
    _ = 10 ^ (j + (-e).toNat) := (Nat.pow_add 10 j _).symm
    _ ≤ 10 ^ (n + e.toNat) := Nat.pow_le_pow_right (by decide) (by omega)
    _ = 10 ^ n * 10 ^ e.toNat := Nat.pow_add 10 n _
    _ ≤ v * 10 ^ e.toNat := Nat.mul_le_mul_right _ hv

/-! ## What digits stand for -/

theorem valueOfDigits_eq (ds : List Char) : valueOfDigits ds = Nat.ofDigitChars 10 ds 0 :=
  Nat.ofDigitChars_eq_foldl.symm

theorem valueOfDigits_append (ds es : List Char) :
    valueOfDigits (ds ++ es) = valueOfDigits ds * 10 ^ es.length + valueOfDigits es := by
  rw [valueOfDigits_eq, Nat.ofDigitChars_append, Nat.ofDigitChars_eq_ofDigitChars_zero, Nat.mul_comm,
    ← valueOfDigits_eq, ← valueOfDigits_eq]

theorem valueOfDigits_toDigits (n : Nat) : valueOfDigits (Nat.toDigits 10 n) = n := by
  rw [valueOfDigits_eq, Nat.ofDigitChars_ten_toDigits]

theorem valueOfDigits_zeros (k : Nat) : valueOfDigits (List.replicate k '0') = 0 := by
  rw [valueOfDigits_eq, Nat.ofDigitChars_replicate_zero, Nat.mul_zero]

theorem valueOfDigits_cons (c : Char) (cs : List Char) :
    valueOfDigits (c :: cs) = (c.toNat - 48) * 10 ^ cs.length + valueOfDigits cs := by
  have h := valueOfDigits_append [c] cs
  rwa [show valueOfDigits [c] = c.toNat - 48 from Nat.zero_add _] at h

theorem valueOfDigits_lt {ds : List Char} (h : ∀ c ∈ ds, c.isDigit = true) : valueOfDigits ds < 10 ^ ds.length := by
  induction ds with
  | nil => decide
  | cons c cs ih =>
    obtain ⟨hc, hcs⟩ := List.forall_mem_cons.1 h
    have hlt := ih hcs
    have hdigit : c.toNat - 48 + 1 ≤ 10 := by
      have := (Char.isDigit_iff_toNat.1 hc).2
      change c.toNat ≤ 57 at this
      omega
    have hmul := Nat.mul_le_mul_right (10 ^ cs.length) hdigit
    rw [Nat.add_one_mul] at hmul
    rw [valueOfDigits_cons, List.length_cons, Nat.pow_succ]
    omega

theorem pow_le_valueOfDigits {c : Char} (hc : c.isDigit = true) (h0 : c ≠ '0') (cs : List Char) :
    10 ^ cs.length ≤ valueOfDigits (c :: cs) := by
  have hdigit : 1 ≤ c.toNat - 48 := by
    have := (Char.isDigit_iff_toNat.1 hc).1
    have hne : c.toNat ≠ 48 := fun hn => h0 (Char.toNat_inj.1 hn)
    change 48 ≤ c.toNat at this
    omega
  have hmul := Nat.mul_le_mul_right (10 ^ cs.length) hdigit
  rw [Nat.one_mul] at hmul
  rw [valueOfDigits_cons]
  omega

/-! ## The double nearest to digits -/

theorem valueOfDigits_dropWhile (ds : List Char) : valueOfDigits (ds.dropWhile (· == '0')) = valueOfDigits ds := by
  induction ds with
  | nil => rfl
  | cons c cs ih =>
    by_cases hc : c = '0'
    · subst hc
      rw [List.dropWhile_cons_of_pos (by decide), ih, valueOfDigits_cons]
      exact (Nat.zero_add _).symm.trans (congrArg (· + _) (Nat.zero_mul _).symm)
    · rw [List.dropWhile_cons_of_neg (by simpa using hc)]

/-- **Digits with an exponent are read as the double nearest to them**, and as infinity if there is none. -/
theorem level_nearest {ds : List Char} (h : ∀ c ∈ ds, c.isDigit = true) (e : Int) : (nearest ds e).isNaN = false
    ∧ level (nearest ds e) = (min (decimalLevel (valueOfDigits ds) e) infiniteLevel : Nat) := by
  have hdigits : ∀ c ∈ ds.dropWhile (· == '0'), c.isDigit = true := fun c hc => h c (List.dropWhile_subset _ hc)
  have hhead := List.head?_dropWhile_not (· == '0') ds
  rw [← valueOfDigits_dropWhile ds]
  unfold nearest
  dsimp only
  generalize ds.dropWhile (· == '0') = ds' at hdigits hhead
  cases ds' with
  | nil =>
    rw [if_pos (.inl rfl), show valueOfDigits [] = 0 from rfl, decimalLevel_zero, Nat.zero_min]
    exact ⟨by decide, by decide⟩
  | cons c cs =>
    have hc : c ≠ '0' := by simpa using hhead
    have hlow := pow_le_valueOfDigits (hdigits c List.mem_cons_self) hc cs
    have hhigh := valueOfDigits_lt hdigits
    rw [List.length_cons] at hhigh ⊢
    by_cases hsmall : e + (cs.length + 1 : Nat) < -330
    · rw [if_pos (.inr hsmall), decimalLevel_eq_zero hhigh hsmall, Nat.zero_min]
      exact ⟨by decide, by decide⟩
    · rw [if_neg (not_or.2 ⟨List.cons_ne_nil c cs, hsmall⟩)]
      by_cases hlarge : 310 < e + (cs.length + 1 : Nat)
      · rw [if_pos hlarge, Nat.min_eq_right (infiniteLevel_le_decimalLevel hlow (by omega))]
        exact ⟨by decide, by decide +kernel⟩
      · have hpos : 0 < valueOfDigits (c :: cs) := Nat.lt_of_lt_of_le (Nat.pow_pos (by decide)) hlow
        have hlog : cs.length ≤ (valueOfDigits (c :: cs)).log2 :=
          (Nat.le_log2 hpos.ne').2 (Nat.le_trans (Nat.pow_le_pow_left (by decide) _) hlow)
        rw [if_neg hlarge]
        exact level_scientific hpos (by omega) (by omega)

end PolicyGates.Decimal
