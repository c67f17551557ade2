import Mathlib.Algebra.Order.Ring.Nat
import Mathlib.Tactic.Ring
/-!
# Rounding to doubles, on whole numbers

Every finite double is a whole number of steps of `2^-1074`, and those that are doubles are the
ones with at most 53 significant binary digits.  So rounding is an operation on whole numbers: the digits
past the 53rd are dropped, a remainder of more than half a place counts as one, and of half a place goes
to the even side (`nearest`).  It never turns the order around (`nearest_le_nearest`) and leaves doubles
as they are (`nearest_of_places`).  `Shifted.roundedMantissa` finds the same operation in the round and
sticky bits of the arithmetic, also of a fraction (`nearestTo`).
-/
namespace PolicyGates.Double

open Float.Model.UnpackedFloat (ExtendedMantissa Accuracy accuracyOfFraction)

/-- The quotient to the nearest, and from the middle to the even one. -/
def roundDiv (n d : Nat) : Nat := if 2 * (n % d) < d ∨ (2 * (n % d) = d ∧ n / d % 2 = 0) then n / d else n / d + 1

def halfEven (n k : Nat) : Nat := roundDiv n (2 ^ k)

/-- The whole number with at most 53 significant binary digits that is nearest. -/
def nearest (n : Nat) : Nat := halfEven n (n.log2 - 52) * 2 ^ (n.log2 - 52)

/-- The one that is nearest to a fraction. -/
def nearestTo (n d : Nat) : Nat := roundDiv n (d * 2 ^ ((n / d).log2 - 52)) * 2 ^ ((n / d).log2 - 52)

/-! ## The quotient -/

theorem roundDiv_bounds (n d : Nat) : n / d ≤ roundDiv n d ∧ roundDiv n d ≤ n / d + 1 := by
  unfold roundDiv
  split
  · exact ⟨Nat.le_refl _, Nat.le_succ _⟩
  · exact ⟨Nat.le_succ _, Nat.le_refl _⟩

/-- **The quotients keep the order.** -/
theorem roundDiv_le_roundDiv {n n' : Nat} (h : n ≤ n') (d : Nat) : roundDiv n d ≤ roundDiv n' d := by
  have hn := Nat.div_add_mod n d
  have hn' := Nat.div_add_mod n' d
  rcases Nat.lt_or_ge (n / d) (n' / d) with hq | hq
  · exact Nat.le_trans (roundDiv_bounds n d).2 (Nat.le_trans hq (roundDiv_bounds n' d).1)
  · have he : n / d = n' / d := Nat.le_antisymm (Nat.div_le_div_right h) hq
    have hr : n % d ≤ n' % d := by
      rw [he] at hn
      omega
    unfold roundDiv
    rw [he]
    -- the same quotient: only the remainders decide, and the smaller one goes up only if the larger does
    split <;> split <;> omega

theorem roundDiv_within (n : Nat) {d : Nat} (hd : 0 < d) :
    2 * n ≤ 2 * (roundDiv n d * d) + d ∧ 2 * (roundDiv n d * d) ≤ 2 * n + d := by
  have hn := Nat.div_add_mod' n d
  have hr := Nat.mod_lt n hd
  unfold roundDiv
  split
  · omega
  · rw [Nat.add_one_mul (n / d) d]
    omega

/-- **Numbers that are more than a place apart have different quotients.** -/
theorem roundDiv_lt_roundDiv {n n' d : Nat} (hd : 0 < d) (h : n + d < n') : roundDiv n d < roundDiv n' d := by
  have hlow := (roundDiv_within n hd).2
  have hhigh := (roundDiv_within n' hd).1
  exact Nat.lt_of_mul_lt_mul_right (show roundDiv n d * d < roundDiv n' d * d by omega)

theorem roundDiv_mul (m : Nat) {d : Nat} (hd : 0 < d) : roundDiv (m * d) d = m := by
  unfold roundDiv
  rw [Nat.mul_mod_left, Nat.mul_div_cancel _ hd, if_pos (.inl (by omega))]

theorem roundDiv_mul_mul (n d : Nat) {c : Nat} (hc : 0 < c) : roundDiv (n * c) (d * c) = roundDiv n d := by
  unfold roundDiv
  rw [Nat.mul_div_mul_right _ _ hc, Nat.mul_mod_mul_right, ← Nat.mul_assoc]
  simp only [Nat.mul_lt_mul_right hc, Nat.mul_left_inj hc.ne']

/-- **A whole number at most half a place away is the quotient**; from the middle, if it is even. -/
theorem roundDiv_eq {n d m : Nat} (hd : 0 < d) (hlow : 2 * (m * d) ≤ 2 * n + d) (hhigh : 2 * n ≤ 2 * (m * d) + d)
    (hodd : m % 2 = 1 → 2 * (m * d) ≠ 2 * n + d ∧ 2 * n ≠ 2 * (m * d) + d) : roundDiv n d = m := by
  have hr : n % d < d := Nat.mod_lt n hd
  have hn : n / d * d + n % d = n := Nat.div_add_mod' n d
  have hle : n / d ≤ m := by
    by_contra hc
    have := Nat.mul_le_mul_right d (Nat.succ_le_of_lt (Nat.not_le.1 hc))
    rw [Nat.succ_mul] at this
    omega
  have hge : m ≤ n / d + 1 := by
    by_contra hc
    have := Nat.mul_le_mul_right d (Nat.succ_le_of_lt (Nat.not_le.1 hc))
    rw [Nat.succ_mul, Nat.succ_mul] at this
    omega
  unfold roundDiv
  rcases Nat.lt_or_ge (n / d) m with hlt | hge'
  · obtain rfl : m = n / d + 1 := by omega
    rw [Nat.add_one_mul (n / d) d] at hlow hhigh hodd
    split <;> omega
  · obtain rfl : m = n / d := by omega
    split <;> omega

theorem halfEven_zero (n : Nat) : halfEven n 0 = n := by
  simp [halfEven, roundDiv, Nat.mod_one]

theorem halfEven_mul (m k : Nat) : halfEven (m * 2 ^ k) k = m := roundDiv_mul m (Nat.two_pow_pos k)

/-! ## The nearest double -/

theorem nearest_of_lt {n : Nat} (h : n < 2 ^ 53) : nearest n = n := by
  have hl : n.log2 - 52 = 0 := by
    rcases Nat.eq_zero_or_pos n with rfl | hn
    · rfl
    · have := (Nat.log2_lt (by omega)).2 h
      omega
  rw [nearest, hl, halfEven_zero, Nat.pow_zero, Nat.mul_one]

/-- **A number with at most 53 significant digits stays.** -/
theorem nearest_of_places {m : Nat} (h : m < 2 ^ 53) (j : Nat) : nearest (m * 2 ^ j) = m * 2 ^ j := by
  rcases Nat.eq_zero_or_pos m with rfl | hm
  · rw [Nat.zero_mul]; exact nearest_of_lt (by decide)
  · have hpos : m * 2 ^ j ≠ 0 := Nat.mul_ne_zero (by omega) (Nat.two_pow_pos j).ne'
    have hlog : (m * 2 ^ j).log2 < 53 + j := (Nat.log2_lt hpos).2 (by
      rw [Nat.pow_add]; exact Nat.mul_lt_mul_of_pos_right h (Nat.two_pow_pos j))
    unfold nearest
    obtain ⟨i, hi⟩ : ∃ i, j = i + ((m * 2 ^ j).log2 - 52) := ⟨j - ((m * 2 ^ j).log2 - 52), by omega⟩
    generalize (m * 2 ^ j).log2 - 52 = k at hi ⊢
    rw [hi, Nat.pow_add, ← Nat.mul_assoc, halfEven_mul]

/-! ## Fractions -/

theorem nearestTo_one (n : Nat) : nearestTo n 1 = nearest n := by
  rw [nearestTo, Nat.div_one, Nat.one_mul]
  rfl

theorem nearestTo_mul_mul (n d : Nat) {c : Nat} (hc : 0 < c) : nearestTo (n * c) (d * c) = nearestTo n d := by
  unfold nearestTo
  rw [Nat.mul_div_mul_right _ _ hc, Nat.mul_right_comm, roundDiv_mul_mul _ _ hc]

/-- Only the value of a fraction matters. -/
theorem nearestTo_congr {n d n' d' : Nat} (hd : 0 < d) (hd' : 0 < d') (h : n * d' = n' * d) :
    nearestTo n d = nearestTo n' d' := by
  rw [← nearestTo_mul_mul n d hd', ← nearestTo_mul_mul n' d' hd, h, Nat.mul_comm d d']

theorem nearestTo_of_lt {n d : Nat} (h : n / d < 2 ^ 53) : nearestTo n d = roundDiv n d := by
  have hlog : (n / d).log2 - 52 = 0 := by
    rcases Nat.eq_zero_or_pos (n / d) with h0 | hpos
    · rw [h0]
      rfl
    · have := (Nat.log2_lt hpos.ne').2 h
      omega
  rw [nearestTo, hlog, Nat.pow_zero, Nat.mul_one, Nat.mul_one]

theorem nearestTo_of_binade {n d k : Nat} (hd : 0 < d) (hlow : 2 ^ 52 * (d * 2 ^ k) ≤ n)
    (hhigh : n < 2 ^ 53 * (d * 2 ^ k)) :
    nearestTo n d = roundDiv n (d * 2 ^ k) * 2 ^ k := by
  have h1 : 2 ^ (52 + k) ≤ n / d := by
    rw [Nat.le_div_iff_mul_le hd, Nat.pow_add, Nat.mul_assoc, Nat.mul_comm (2 ^ k) d]
    exact hlow
  have h2 : n / d < 2 ^ (52 + k + 1) := by
    rw [Nat.div_lt_iff_lt_mul hd, Nat.add_right_comm, Nat.pow_add, Nat.mul_assoc, Nat.mul_comm (2 ^ k) d]
    exact hhigh
  have hlog : (n / d).log2 = 52 + k := (Nat.log2_eq_iff (Nat.lt_of_lt_of_le (Nat.two_pow_pos _) h1).ne').2 ⟨h1, h2⟩
  rw [nearestTo, hlog, Nat.add_sub_cancel_left]

/-- **A fraction between the middles to the neighbours of `m · 2^i` is rounded to it.**  Below the first mantissa of a
binade the neighbour is twice as near. -/
theorem nearestTo_eq {n d m i : Nat} (hd : 0 < d) (hm : m < 2 ^ 53) (hplaces : 2 ^ 52 ≤ m ∨ i = 0)
    (hlow : 4 * (m * (d * 2 ^ i)) ≤ 4 * n + 2 * (d * 2 ^ i))
    (hfirst : m = 2 ^ 52 → i ≠ 0 → 4 * (m * (d * 2 ^ i)) ≤ 4 * n + d * 2 ^ i)
    (hhigh : 4 * n ≤ 4 * (m * (d * 2 ^ i)) + 2 * (d * 2 ^ i))
    (hodd : m % 2 = 1 → 4 * (m * (d * 2 ^ i)) ≠ 4 * n + 2 * (d * 2 ^ i)
      ∧ 4 * n ≠ 4 * (m * (d * 2 ^ i)) + 2 * (d * 2 ^ i)) :
    nearestTo n d = m * 2 ^ i := by
  have hdiv : roundDiv n (d * 2 ^ i) = m :=
    roundDiv_eq (Nat.mul_pos hd (Nat.two_pow_pos i)) (by omega) (by omega) (by omega)
  have hw : 0 < d * 2 ^ i := Nat.mul_pos hd (Nat.two_pow_pos i)
  have hlt : n < 2 ^ 53 * (d * 2 ^ i) := by
    have := Nat.mul_le_mul_right (d * 2 ^ i) (Nat.succ_le_of_lt hm)
    rw [Nat.succ_mul] at this
    omega
  rcases Nat.lt_or_ge n (2 ^ 52 * (d * 2 ^ i)) with hn | hn
  · rcases Nat.eq_zero_or_pos i with rfl | hi
    · rw [Nat.pow_zero, Nat.mul_one d] at hlt hdiv
      rw [nearestTo_of_lt ((Nat.div_lt_iff_lt_mul hd).2 hlt), hdiv, Nat.pow_zero, Nat.mul_one]
    · -- the value lies in the binade below, which ends with `m · 2^i`
      obtain ⟨k, rfl⟩ : ∃ k, i = k + 1 := ⟨i - 1, by omega⟩
      have hle := hplaces.resolve_right (by omega)
      have hfirst52 : m = 2 ^ 52 := by
        by_contra hc
        have := Nat.mul_le_mul_right (d * 2 ^ (k + 1)) (show 2 ^ 52 + 1 ≤ m by omega)
        rw [Nat.succ_mul] at this
        omega
      subst hfirst52
      have hhalf : d * 2 ^ (k + 1) = 2 * (d * 2 ^ k) := by
        rw [Nat.pow_succ]
        ring
      have := hfirst rfl (by omega)
      rw [hhalf] at this hn
      rw [nearestTo_of_binade (k := k) hd (by omega) (by omega),
        roundDiv_eq (m := 2 ^ 53) (Nat.mul_pos hd (Nat.two_pow_pos k)) (by omega) (by omega) (by omega), Nat.pow_succ]
      ring
  · rw [nearestTo_of_binade hd hn hlt, hdiv]

theorem nearestTo_eq_zero {n d : Nat} (h : 2 * n < d) : nearestTo n d = 0 := by
  have h0 : n / d = 0 := Nat.div_eq_of_lt (by omega)
  have hr : n % d = n := Nat.mod_eq_of_lt (by omega)
  rw [nearestTo, h0, Nat.log2_zero, Nat.zero_sub, Nat.pow_zero, Nat.mul_one, Nat.mul_one, roundDiv, hr,
    if_pos (.inl h), h0]

/-! ## The order of fractions -/

theorem le_nearestTo {n d k : Nat} (hd : 0 < d) (hk : 52 ≤ k) (h : 2 ^ k * d ≤ n) : 2 ^ k ≤ nearestTo n d := by
  have hq : 2 ^ k ≤ n / d := (Nat.le_div_iff_mul_le hd).2 h
  have hq0 : n / d ≠ 0 := (Nat.lt_of_lt_of_le (Nat.two_pow_pos k) hq).ne'
  have hlog : k ≤ (n / d).log2 := (Nat.le_log2 hq0).2 hq
  obtain ⟨j, hj⟩ : ∃ j, (n / d).log2 - 52 = j := ⟨_, rfl⟩
  have hplaces : 2 ^ 52 ≤ n / d / 2 ^ j := by
    rw [Nat.le_div_iff_mul_le (Nat.two_pow_pos j), ← Nat.pow_add, show 52 + j = (n / d).log2 by omega]
    exact Nat.log2_self_le hq0
  rw [nearestTo, hj]
  calc 2 ^ k ≤ 2 ^ (52 + j) := Nat.pow_le_pow_right (by decide) (by omega)
    _ = 2 ^ 52 * 2 ^ j := Nat.pow_add 2 52 j
    _ ≤ n / (d * 2 ^ j) * 2 ^ j := by
      rw [← Nat.div_div_eq_div_mul]
      exact Nat.mul_le_mul_right _ hplaces
    _ ≤ roundDiv n (d * 2 ^ j) * 2 ^ j := Nat.mul_le_mul_right _ (roundDiv_bounds n _).1

theorem nearestTo_le {n d l : Nat} (hl : (n / d).log2 = l) (h : 52 ≤ l) : nearestTo n d ≤ 2 ^ (l + 1) := by
  obtain ⟨k, rfl⟩ : ∃ k, l = 52 + k := ⟨l - 52, by omega⟩
  have hlt : n / d < 2 ^ 53 * 2 ^ k := by
    rw [← Nat.pow_add, show 53 + k = (n / d).log2 + 1 by omega]
    exact Nat.lt_log2_self
  have hle := (roundDiv_bounds n (d * 2 ^ k)).2
  rw [← Nat.div_div_eq_div_mul] at hle
  have hplaces := (Nat.div_lt_iff_lt_mul (Nat.two_pow_pos k)).2 hlt
  rw [nearestTo, hl, Nat.add_sub_cancel_left, show 52 + k + 1 = 53 + k by omega, Nat.pow_add]
  exact Nat.mul_le_mul_right _ (by omega)

/-- **Rounding fractions keeps their order.** -/
theorem nearestTo_le_nearestTo {n n' d : Nat} (hd : 0 < d) (h : n ≤ n') : nearestTo n d ≤ nearestTo n' d := by
  have hq : n / d ≤ n' / d := Nat.div_le_div_right h
  rcases Nat.lt_or_ge (n' / d) (2 ^ 53) with hs | hs
  · rw [nearestTo_of_lt hs, nearestTo_of_lt (Nat.lt_of_le_of_lt hq hs)]
    exact roundDiv_le_roundDiv h d
  · have hl' : 53 ≤ (n' / d).log2 := (Nat.le_log2 (by omega)).2 hs
    have hstart : 2 ^ (n' / d).log2 ≤ nearestTo n' d :=
      le_nearestTo hd (by omega) ((Nat.le_div_iff_mul_le hd).1 (Nat.log2_self_le (by omega)))
    rcases Nat.lt_or_ge (n / d) (2 ^ 53) with hs2 | hs2
    · rw [nearestTo_of_lt hs2]
      have := (roundDiv_bounds n d).2
      have := Nat.pow_le_pow_right (show 0 < 2 by decide) hl'
      omega
    · have hl : 53 ≤ (n / d).log2 := (Nat.le_log2 (by omega)).2 hs2
      have hll : (n / d).log2 ≤ (n' / d).log2 :=
        (Nat.le_log2 (by omega)).2 (Nat.le_trans (Nat.log2_self_le (by omega)) hq)
      rcases Nat.lt_or_ge (n / d).log2 (n' / d).log2 with hlt | hge
      · -- another binade: the end of the one lies below the start of the other
        exact Nat.le_trans (nearestTo_le rfl (by omega)) (Nat.le_trans (Nat.pow_le_pow_right (by decide) hlt) hstart)
      · unfold nearestTo
        rw [Nat.le_antisymm hll hge]
        exact Nat.mul_le_mul_right _ (roundDiv_le_roundDiv h _)

/-- **Rounding keeps the order.** -/
theorem nearest_le_nearest {n n' : Nat} (h : n ≤ n') : nearest n ≤ nearest n' := by
  rw [← nearestTo_one, ← nearestTo_one]
  exact nearestTo_le_nearestTo Nat.one_pos h

/-- **A fraction that fills its places is off by one part in `2^53` at most.** -/
theorem nearestTo_within {n d : Nat} (hd : 0 < d) (h : 2 ^ 52 ≤ n / d) :
    2 ^ 53 * n ≤ 2 ^ 53 * (nearestTo n d * d) + n ∧ 2 ^ 53 * (nearestTo n d * d) ≤ 2 ^ 53 * n + n := by
  have hl : 52 ≤ (n / d).log2 := (Nat.le_log2 (by omega)).2 h
  obtain ⟨k, hk⟩ : ∃ k, (n / d).log2 - 52 = k := ⟨_, rfl⟩
  have hwidth : 2 ^ 52 * (d * 2 ^ k) ≤ n := by
    rw [Nat.mul_left_comm, ← Nat.pow_add, show 52 + k = (n / d).log2 by omega, Nat.mul_comm]
    exact (Nat.le_div_iff_mul_le hd).1 (Nat.log2_self_le (by omega))
  have hround := roundDiv_within n (Nat.mul_pos hd (Nat.two_pow_pos k))
  have hvalue : nearestTo n d * d = roundDiv n (d * 2 ^ k) * (d * 2 ^ k) := by
    rw [nearestTo, hk]
    ring
  rw [hvalue]
  omega

/-- **A fraction with fewer places is off by half of one at most.** -/
theorem nearestTo_within_half {n d : Nat} (hd : 0 < d) (h : n / d < 2 ^ 53) :
    2 * n ≤ 2 * (nearestTo n d * d) + d ∧ 2 * (nearestTo n d * d) ≤ 2 * n + d := by
  rw [nearestTo_of_lt h]
  exact roundDiv_within n hd

/-- **A number is off by one part in `2^53` at most.** -/
theorem nearest_within (n : Nat) : 2 ^ 53 * n ≤ 2 ^ 53 * nearest n + n ∧ 2 ^ 53 * nearest n ≤ 2 ^ 53 * n + n := by
  rcases Nat.lt_or_ge n (2 ^ 53) with h | h
  · rw [nearest_of_lt h]
    omega
  · have hround := nearestTo_within Nat.one_pos (n := n) (by rw [Nat.div_one]; omega)
    rwa [nearestTo_one, Nat.mul_one] at hround

/-! ## The round and sticky bits -/

/-- The mantissa and the bits are those of a fraction. -/
structure Shifted (n d : Nat) (em : ExtendedMantissa) : Prop where
  mantissa : em.mantissa = n / d
  roundBit : em.roundBit = decide (d ≤ 2 * (n % d))
  stickyBit : em.stickyBit = decide (2 * (n % d) % d ≠ 0)

theorem shifted_fraction (n : Nat) {d : Nat} (hd : 0 < d) :
    Shifted n d (.ofMantissaAndAccuracy (n / d) (accuracyOfFraction (n % d) d)) := by
  have hr : n % d < d := Nat.mod_lt n hd
  unfold accuracyOfFraction
  by_cases h0 : n % d = 0
  · rw [if_pos h0]
    refine ⟨rfl, (decide_eq_false (by omega)).symm, (decide_eq_false ?_).symm⟩
    rw [h0, Nat.mul_zero, Nat.zero_mod, not_not]
  · rw [if_neg h0]
    rcases Nat.lt_trichotomy (2 * (n % d)) d with hc | hc | hc
    · rw [Nat.compare_eq_lt.2 hc]
      refine ⟨rfl, (decide_eq_false (by omega)).symm, (decide_eq_true ?_).symm⟩
      rw [Nat.mod_eq_of_lt hc]
      omega
    · rw [Nat.compare_eq_eq.2 hc]
      refine ⟨rfl, (decide_eq_true (by omega)).symm, (decide_eq_false ?_).symm⟩
      rw [hc, Nat.mod_self, not_not]
    · rw [Nat.compare_eq_gt.2 hc]
      refine ⟨rfl, (decide_eq_true (by omega)).symm, (decide_eq_true ?_).symm⟩
      rw [Nat.mod_eq_sub_mod (by omega), Nat.mod_eq_of_lt (by omega)]
      omega

theorem Shifted.succ {n d : Nat} {em : ExtendedMantissa} (hd : 0 < d) (h : Shifted n d em) :
    Shifted n (d * 2) em.shiftRightOne := by
  have hr : n % d < d := Nat.mod_lt _ hd
  have hb := Nat.mod_two_eq_zero_or_one (n / d)
  have hsplit : n % (d * 2) = n % d + d * (n / d % 2) := Nat.mod_mul
  refine ⟨?_, ?_, ?_⟩
  · show em.mantissa / 2 = _
    rw [h.mantissa, Nat.div_div_eq_div_mul]
  · show (em.mantissa % 2 != 0) = _
    rw [h.mantissa, hsplit]
    rcases hb with hb | hb <;> rw [hb] <;> simp <;> omega
  · show (em.roundBit || em.stickyBit) = _
    rw [h.roundBit, h.stickyBit, hsplit]
    -- both sides say that something of `n` was shifted out
    have hl : d ≤ 2 * (n % d) ∨ 2 * (n % d) % d ≠ 0 ↔ n % d ≠ 0 := by
      rcases Nat.lt_or_ge (2 * (n % d)) d with hlt | hge
      · rw [Nat.mod_eq_of_lt hlt]; omega
      · omega
    have hm : 2 * (n % d + d * (n / d % 2)) % (d * 2) = 2 * (n % d) := by
      rw [show 2 * (n % d + d * (n / d % 2)) = 2 * (n % d) + d * 2 * (n / d % 2) by ring, Nat.add_mul_mod_self_left]
      exact Nat.mod_eq_of_lt (by omega)
    rw [hm, ← Bool.decide_or, decide_eq_decide, hl]
    omega

theorem Shifted.shift {n d : Nat} {em : ExtendedMantissa} (hd : 0 < d) (h : Shifted n d em) :
    ∀ k, Shifted n (d * 2 ^ k) (em >>> k)
  | 0 => by rwa [Nat.pow_zero, Nat.mul_one]
  | k + 1 => by
    rw [Nat.pow_succ, ← Nat.mul_assoc]
    exact (h.shift hd k).succ (Nat.mul_pos hd (Nat.two_pow_pos k))

theorem shifted (n k : Nat) : Shifted n (2 ^ k) (ExtendedMantissa.ofMantissaAndAccuracy n .exact >>> k) := by
  have h := (shifted_fraction n Nat.one_pos).shift Nat.one_pos k
  rwa [Nat.div_one, Nat.mod_one, Nat.one_mul] at h

theorem Shifted.roundedMantissa {n d : Nat} {em : ExtendedMantissa} (hd : 0 < d) (h : Shifted n d em) :
    em.roundedMantissa = roundDiv n d := by
  obtain ⟨m, r, s⟩ := em
  obtain ⟨rfl, hr, hs⟩ := h
  simp only at hr hs
  have hlt : n % d < d := Nat.mod_lt _ hd
  unfold ExtendedMantissa.roundedMantissa roundDiv
  rcases Nat.lt_trichotomy (2 * (n % d)) d with hc | hc | hc
  · rw [if_pos (.inl hc)]
    have hr' : r = false := by rw [hr]; simp; omega
    subst hr'
    cases s <;> rfl
  · have hr' : r = true := by rw [hr]; simp; omega
    have hs' : s = false := by rw [hs, hc]; simp
    subst hr' hs'
    show n / d + n / d % 2 = _
    split <;> omega
  · have hr' : r = true := by rw [hr]; simp; omega
    have hs' : s = true := by
      rw [hs, decide_eq_true_eq, Nat.mod_eq_sub_mod (by omega), Nat.mod_eq_of_lt (by omega)]
      omega
    subst hr' hs'
    rw [if_neg (by omega)]
    rfl

end PolicyGates.Double
