import PolicyGates.Proofs.Decimal.Parts
import PolicyGates.Proofs.Double.Whole
/-!
# How whole numbers are written

A double that stands for a whole number below `2^53` is written with the digits of that number (`chars_ofNat`), so
different numbers are written differently.

The value is `m · 2^q` with `q ≤ 0`, and the points that read back as it lie less than one away.  A grid whose steps
are whole numbers therefore has such a point only where it has the value itself, and the first grid that does has
a step `10^j` that divides the value.
-/
namespace PolicyGates.Decimal

open Double
open Float.Model (UnpackedFloat Format)
open Float.Model.UnpackedFloat

/-! ## The parts -/

theorem ofFloat?_ofNat {n : Nat} (h0 : 0 < n) (h : n < 2 ^ 53) :
    ∃ k : Nat, Binary.ofFloat? (Float.ofNat n) = some ⟨false, n * 2 ^ k, -(k : Int)⟩ ∧ (n * 2 ^ k).log2 = 52 := by
  have hle : n ≤ limit := Nat.le_of_lt h
  obtain ⟨m, e, hm, hu, hmag, hplaces, hlow, -⟩ := exists_whole_parts (isFinite_ofNat hle) h0 (level_ofNat_of_le hle)
  have he : e ≤ 0 := by
    by_contra hc
    have := magnitude_lt_of_exponent h (by decide) (Int.not_le.1 hc) hplaces.2
    rw [hmag] at this
    exact Nat.lt_irrefl _ this
  obtain ⟨k, rfl⟩ : ∃ k : Nat, e = 0 - (k : Int) := ⟨(-e).toNat, by omega⟩
  rw [wholeLevel, ← magnitude_shift (show -1074 ≤ 0 - (k : Int) by omega)] at hmag
  obtain rfl : m = n * 2 ^ k := by
    rw [← Nat.shiftLeft_eq]
    exact Nat.eq_of_mul_eq_mul_right (Nat.two_pow_pos _) hmag
  refine ⟨k, ?_, (Nat.log2_eq_iff (by omega)).2 ⟨hplaces.2, hplaces.1⟩⟩
  rw [ofFloat?_eq, hu, Int.zero_sub]
  rfl

/-! ## The shortest decimal -/

/-- Four times a width, as a grid of that width appears beside the value. -/
def wide (w : Nat) : Ratio := ⟨4 * w, 1⟩

theorem holds_iff {m : Nat} (hm : 0 < m) (q : Int) (w s : Nat) :
    (Rounding.of m q).holds (wide w) s = true ↔ s * w = m := by
  have hmul : s * (4 * w) = 4 * (s * w) := by ring
  unfold Rounding.holds Rounding.of wide
  simp only [hmul]
  generalize s * w = t
  split <;> split <;> simp only [Bool.and_eq_true, decide_eq_true_eq] <;> omega

/-- **A wide grid has the value itself or nothing.** -/
theorem nearest?_wide {m w : Nat} (hm : 0 < m) (hw : 0 < w) (q : Int) :
    (Rounding.of m q).nearest? (wide w) = if w ∣ m then some (m / w) else none := by
  have hs : (Rounding.of m q).value * (wide w).den / (wide w).num = m / w := by
    show 4 * m * 1 / (4 * w) = m / w
    rw [Nat.mul_one, Nat.mul_div_mul_left _ _ (by decide)]
  have habove : (Rounding.of m q).holds (wide w) (m / w + 1) = false := by
    rw [Bool.eq_false_iff, Ne, holds_iff hm]
    have := Nat.lt_div_mul_add (a := m) hw
    rw [Nat.add_mul, Nat.one_mul]
    omega
  unfold Rounding.nearest?
  simp only [hs, habove]
  by_cases hd : w ∣ m
  · rw [if_pos hd, (holds_iff hm q w _).2 (Nat.div_mul_cancel hd)]
  · have hbelow : (Rounding.of m q).holds (wide w) (m / w) = false := by
      rw [Bool.eq_false_iff, Ne, holds_iff hm]
      exact fun hc => hd ⟨_, by rw [← hc, Nat.mul_comm]⟩
    rw [if_neg hd, hbelow]

theorem gridStep_eq (e u : Int) :
    gridStep e u = ⟨10 ^ e.toNat * 2 ^ (-u).toNat, 10 ^ (-e).toNat * 2 ^ u.toNat⟩ := rfl

theorem gridStep_whole (j k : Nat) : gridStep j (-(k : Int) - 2) = wide (10 ^ j * 2 ^ k) := by
  unfold wide
  have hu : (-(-(k : Int) - 2)).toNat = k + 2 := by omega
  have hu' : (-(k : Int) - 2).toNat = 0 := by omega
  have hj : (-(j : Int)).toNat = 0 := by omega
  rw [gridStep_eq, hu, hu', hj, Int.toNat_natCast, Nat.pow_add]
  congr 1
  ring

/-- The search starts at a grid of whole numbers, not far out. -/
theorem decade_whole {n k : Nat} (h0 : 0 < n) (hl : (n * 2 ^ k).log2 = 52) :
    ∃ t : Nat, decade (n * 2 ^ k) (-(k : Int)) = t ∧ t ≤ 16 := by
  have hk : k ≤ 52 := by
    rw [log2_mul_pow h0] at hl
    omega
  obtain ⟨near, hnear⟩ : ∃ near, (((n * 2 ^ k).log2 : Int) + -(k : Int)) * 30103 / 100000 = near := ⟨_, rfl⟩
  have hzero : (gridStep 0 (-(k : Int))).num ≤ n * 2 ^ k * (gridStep 0 (-(k : Int))).den := by
    rw [gridStep_eq, Int.neg_neg, Int.toNat_natCast, Int.neg_zero, Int.toNat_zero, show (-(k : Int)).toNat = 0 by omega]
    simp only [Nat.pow_zero, Nat.one_mul, Nat.mul_one]
    exact Nat.le_mul_of_pos_left _ h0
  unfold decade
  simp only [hnear, decide_eq_true_eq]
  rw [hl] at hnear
  split
  · exact ⟨(near + 1).toNat, by omega, by omega⟩
  · split
    · exact ⟨near.toNat, by omega, by omega⟩
    · next hc =>
      have hne : near ≠ 0 := by
        rintro rfl
        exact hc hzero
      exact ⟨(near - 1).toNat, by omega, by omega⟩

/-- What the `i`-th grid has. -/
def offered? (m : Nat) (q : Int) (i : Nat) : Option Scientific :=
  ((Rounding.of m q).nearest? (gridStep (decade m q - (i : Int)) (q - 2))).map (fun s => ⟨s, decade m q - (i : Int)⟩)

theorem shortest_eq (m : Nat) (q : Int) : shortest m q = ((List.range 17).findSome? (offered? m q)).getD ⟨0, 0⟩ := rfl

theorem offered?_whole {n k t i : Nat} (h0 : 0 < n) (ht : decade (n * 2 ^ k) (-(k : Int)) = t) (hi : i ≤ t) :
    offered? (n * 2 ^ k) (-(k : Int)) i
      = if 10 ^ (t - i) ∣ n then some ⟨n / 10 ^ (t - i), (t - i : Nat)⟩ else none := by
  have hp : 0 < 2 ^ k := Nat.two_pow_pos k
  have he : (t : Int) - (i : Int) = (t - i : Nat) := by omega
  unfold offered?
  rw [ht, he, gridStep_whole, nearest?_wide (Nat.mul_pos h0 hp) (Nat.mul_pos (Nat.pow_pos (by decide)) hp),
    Nat.mul_div_mul_right _ _ hp]
  simp only [Nat.mul_dvd_mul_iff_right hp]
  split <;> rfl

/-- **The shortest decimal of a whole number is that number**, short of zeros at its end. -/
theorem shortest_whole {n k : Nat} (h0 : 0 < n) (hl : (n * 2 ^ k).log2 = 52) :
    ∃ s j : Nat, shortest (n * 2 ^ k) (-(k : Int)) = ⟨s, j⟩ ∧ s * 10 ^ j = n := by
  obtain ⟨t, ht, hle⟩ := decade_whole h0 hl
  -- the last grid before fractions, the `t`-th, has the number itself
  have hrange : List.range 17 = List.range (t + 1) ++ (List.range (16 - t)).map (t + 1 + ·) := by
    rw [← List.range_add, show t + 1 + (16 - t) = 17 by omega]
  rw [shortest_eq, hrange, List.findSome?_append]
  cases hf : (List.range (t + 1)).findSome? (offered? (n * 2 ^ k) (-(k : Int))) with
  | none =>
    have hlast := List.findSome?_eq_none_iff.1 hf t (by simp)
    rw [offered?_whole h0 ht (Nat.le_refl t), Nat.sub_self, if_pos (by simp)] at hlast
    cases hlast
  | some r =>
    obtain ⟨i, hi, hr⟩ := List.exists_of_findSome?_eq_some hf
    rw [offered?_whole h0 ht (by rw [List.mem_range] at hi; omega)] at hr
    split at hr
    · next hd =>
      cases hr
      exact ⟨_, _, rfl, Nat.div_mul_cancel hd⟩
    · cases hr

/-! ## Digits -/

theorem toDigits_mul_ten_pow {s : Nat} (hs : 0 < s) (j : Nat) :
    Nat.toDigits 10 (s * 10 ^ j) = Nat.toDigits 10 s ++ List.replicate j '0' := by
  induction j with
  | zero => simp
  | succ j ih =>
    have hpos : 0 < s * 10 ^ j := Nat.mul_pos hs (Nat.pow_pos (by decide))
    have hn : s * 10 ^ (j + 1) = 10 * (s * 10 ^ j) + 0 := by
      rw [Nat.pow_succ]
      ring
    rw [hn, ← Nat.toDigits_append_toDigits (by decide) hpos (by decide), ih, Nat.toDigits_zero, List.append_assoc,
      List.replicate_succ']

theorem dropZeros_append (ds : List Char) : ∃ z, dropZeros ds ++ List.replicate z '0' = ds := by
  obtain ⟨z, hz⟩ : ∃ z, ds.reverse.takeWhile (· == '0') = List.replicate z '0' := by
    refine ⟨_, List.eq_replicate_iff.2 ⟨rfl, fun c hc => ?_⟩⟩
    exact beq_iff_eq.1 (List.all_eq_true.1 List.all_takeWhile c hc)
  have hsplit := List.takeWhile_append_dropWhile (p := (· == '0')) (l := ds.reverse)
  refine ⟨z, ?_⟩
  rw [dropZeros, ← List.reverse_replicate, ← hz, ← List.reverse_append, hsplit, List.reverse_reverse]

theorem length_dropZeros {ds : List Char} {z : Nat} (hz : dropZeros ds ++ List.replicate z '0' = ds) :
    ds.length = (dropZeros ds).length + z := by
  rw [← List.length_replicate (n := z) (a := '0'), ← List.length_append, hz]

/-- **Zeros at the end that the point needs are written.** -/
theorem place_dropZeros {ds : List Char} {j : Nat} (hne : ds ≠ []) (hlen : ds.length + j ≤ 21) :
    Layout.standard.place (dropZeros ds) ((j : Int) + ds.length) = ds ++ List.replicate j '0' := by
  obtain ⟨z, hz⟩ := dropZeros_append ds
  have hpos := List.length_pos_iff.2 hne
  have hl := length_dropZeros hz
  have hn : ((j : Int) + ds.length).toNat - (dropZeros ds).length = z + j := by omega
  unfold Layout.place
  rw [if_pos (by show -5 ≤ _ ∧ _ ≤ (21 : Int); omega), if_neg (by omega), if_pos (by omega), hn,
    ← List.replicate_append_replicate, ← List.append_assoc, hz]

/-- **A whole number is written with its digits.** -/
theorem chars_ofNat {n : Nat} (h : n < 2 ^ 53) : chars (Float.ofNat n) = Nat.toDigits 10 n := by
  rcases Nat.eq_zero_or_pos n with rfl | h0
  · decide
  · obtain ⟨k, hb, hl⟩ := ofFloat?_ofNat h0 h
    obtain ⟨s, j, hs, rfl⟩ := shortest_whole h0 hl
    have hs0 : 0 < s := Nat.pos_of_mul_pos_right h0
    have hdigits := toDigits_mul_ten_pow hs0 j
    have hlen : (Nat.toDigits 10 (s * 10 ^ j)).length ≤ 16 :=
      (Nat.length_toDigits_le_iff (by decide) (by decide)).2 (Nat.lt_trans h (by decide))
    rw [hdigits, List.length_append, List.length_replicate] at hlen
    have hm : s * 10 ^ j * 2 ^ k ≠ 0 := (Nat.mul_pos h0 (Nat.two_pow_pos k)).ne'
    rw [chars_of_shortest hb hm hs, written, if_neg Bool.false_ne_true, digitsOf, hdigits]
    exact place_dropZeros Nat.toDigits_ne_nil (by omega)

/-- **Different whole numbers are written differently.** -/
theorem chars_ofNat_inj {m n : Nat} (hm : m < 2 ^ 53) (hn : n < 2 ^ 53)
    (h : chars (Float.ofNat m) = chars (Float.ofNat n)) : m = n := by
  rw [chars_ofNat hm, chars_ofNat hn] at h
  rw [← Nat.ofDigitChars_ten_toDigits (n := m), h, Nat.ofDigitChars_ten_toDigits]

end PolicyGates.Decimal
