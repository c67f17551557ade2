import PolicyGates.Proofs.Decimal.Digits
import PolicyGates.Proofs.Decimal.Whole
/-!
# The shortest decimal reads back

The digits with which a double is written are those of a decimal that the double is nearest to (`shortest_holds`,
`decimalLevel_of_holds`).  The search never ends without one: a grid of seventeen digits is so fine that one of the
two points next to the value lies in the interval of what rounds to it.
-/
namespace PolicyGates.Decimal

open Double

/-! ## Points that read back -/

theorem low_mul {m : Nat} (hm : 0 < m) (q : Int) (d : Nat) :
    (Rounding.of m q).low * d + (if m = 2 ^ 52 ∧ q ≠ -1074 then d else 2 * d) = 4 * (m * d) := by
  show (if m = 2 ^ 52 ∧ q ≠ -1074 then 4 * m - 1 else 4 * m - 2) * d + _ = _
  split
  · rw [← Nat.add_one_mul, Nat.sub_add_cancel (by omega), Nat.mul_assoc]
  · rw [← Nat.add_mul, Nat.sub_add_cancel (by omega), Nat.mul_assoc]

theorem high_mul (m : Nat) (q : Int) (d : Nat) : (Rounding.of m q).high * d = 4 * (m * d) + 2 * d := by
  show (4 * m + 2) * d = _
  rw [Nat.add_mul, Nat.mul_assoc]

/-- What it means that a point of a grid reads back. -/
theorem bounds_of_holds {m s : Nat} {q : Int} {g : Ratio} (hm : 0 < m) (h : (Rounding.of m q).holds g s = true) :
    4 * (m * g.den) ≤ s * g.num + 2 * g.den
    ∧ (m = 2 ^ 52 → q ≠ -1074 → 4 * (m * g.den) ≤ s * g.num + g.den)
    ∧ s * g.num ≤ 4 * (m * g.den) + 2 * g.den
    ∧ (m % 2 = 1 → 4 * (m * g.den) ≠ s * g.num + 2 * g.den ∧ s * g.num ≠ 4 * (m * g.den) + 2 * g.den) := by
  have hlow := low_mul hm q g.den
  unfold Rounding.holds at h
  rw [high_mul] at h
  by_cases heven : m % 2 = 0
  · rw [if_pos (show (Rounding.of m q).closed = true from beq_iff_eq.2 heven), Bool.and_eq_true, decide_eq_true_eq,
      decide_eq_true_eq] at h
    split at hlow
    · exact ⟨by omega, fun _ _ => by omega, h.2, by omega⟩
    · next hm52 => exact ⟨by omega, fun h1 h2 => absurd ⟨h1, h2⟩ hm52, h.2, by omega⟩
  · rw [if_neg (show ¬(Rounding.of m q).closed = true from fun hc => heven (beq_iff_eq.1 hc)), Bool.and_eq_true,
      decide_eq_true_eq, decide_eq_true_eq] at h
    rw [if_neg (show ¬(m = 2 ^ 52 ∧ q ≠ -1074) by omega)] at hlow
    exact ⟨by omega, by omega, by omega, by omega⟩

theorem holds_mul (r : Rounding) (num den s : Nat) {c : Nat} (hc : 0 < c) :
    r.holds ⟨num * c, den * c⟩ s = r.holds ⟨num, den⟩ s := by
  unfold Rounding.holds
  simp only [← Nat.mul_assoc, Nat.mul_le_mul_right_iff hc, Nat.mul_lt_mul_right hc]

theorem gridStep_pos (e u : Int) : 0 < (gridStep e u).num ∧ 0 < (gridStep e u).den := by
  rw [gridStep_eq]
  exact ⟨Nat.mul_pos (Nat.pow_pos (by decide)) (Nat.two_pow_pos _),
    Nat.mul_pos (Nat.pow_pos (by decide)) (Nat.two_pow_pos _)⟩

/-- **What a point that reads back is nearest to**: the value. -/
theorem decimalLevel_of_holds {m s : Nat} {q e : Int} (h0 : 0 < m) (hm : m < 2 ^ 53) (hq : -1074 ≤ q)
    (hplaces : 2 ^ 52 ≤ m ∨ q = -1074) (h : (Rounding.of m q).holds (gridStep e (q - 2)) s = true) :
    decimalLevel s e = magnitude m q := by
  obtain ⟨w, hw, hwhole⟩ := wholeLevel_eq
  obtain ⟨i, hi⟩ : ∃ i, (q + 1074).toNat = i := ⟨_, rfl⟩
  obtain ⟨x, hx⟩ : ∃ x, i - (q - 2).toNat = x := ⟨_, rfl⟩
  -- the grid, counted in steps from zero
  have hnum : 10 ^ e.toNat * 2 ^ (-(q - 2)).toNat * 2 ^ x = 4 * (10 ^ e.toNat * 2 ^ w) := by
    rw [Nat.mul_assoc, ← Nat.pow_add, show (-(q - 2)).toNat + x = 2 + w by omega, Nat.pow_add]
    ring
  have hden : 10 ^ (-e).toNat * 2 ^ (q - 2).toNat * 2 ^ x = 10 ^ (-e).toNat * 2 ^ i := by
    rw [Nat.mul_assoc, ← Nat.pow_add, show (q - 2).toNat + x = i by omega]
  rw [gridStep_eq, ← holds_mul _ _ _ _ (Nat.two_pow_pos x), hnum, hden] at h
  obtain ⟨hlow, hfirst, hhigh, hodd⟩ := bounds_of_holds h0 h
  have hn : s * (4 * (10 ^ e.toNat * 2 ^ w)) = 4 * (s * 10 ^ e.toNat * 2 ^ w) := by ring
  dsimp only at hlow hfirst hhigh hodd
  rw [hn] at hlow hfirst hhigh hodd
  rw [decimalLevel, hwhole, magnitude, hi]
  exact nearestTo_eq (Nat.pow_pos (by decide)) hm (hplaces.imp_right (by omega)) hlow
    (fun h1 h2 => hfirst h1 (by omega)) hhigh hodd

/-! ## The last grid has a point -/

theorem holds_of_nearest? {r : Rounding} {g : Ratio} {s : Nat} (h : r.nearest? g = some s) : r.holds g s = true := by
  unfold Rounding.nearest? at h
  dsimp only at h
  split at h
  · next hbelow habove =>
    obtain rfl := Option.some.inj h
    split
    · exact hbelow
    · exact habove
  · next hbelow _ =>
    obtain rfl := Option.some.inj h
    exact hbelow
  · next _ habove =>
    obtain rfl := Option.some.inj h
    exact habove
  · cases h

theorem exists_nearest? {r : Rounding} {g : Ratio}
    (h : r.holds g (r.value * g.den / g.num) = true ∨ r.holds g (r.value * g.den / g.num + 1) = true) :
    ∃ s, r.nearest? g = some s := by
  unfold Rounding.nearest?
  dsimp only
  split
  · exact ⟨_, rfl⟩
  · exact ⟨_, rfl⟩
  · exact ⟨_, rfl⟩
  · next hbelow habove =>
    rw [hbelow, habove] at h
    rcases h with h | h <;> cases h

theorem holds_of_lt {m s : Nat} {q : Int} {g : Ratio} (hlow : (Rounding.of m q).low * g.den < s * g.num)
    (hhigh : s * g.num < (Rounding.of m q).high * g.den) : (Rounding.of m q).holds g s = true := by
  unfold Rounding.holds
  split
  · rw [Bool.and_eq_true, decide_eq_true_eq, decide_eq_true_eq]
    exact ⟨Nat.le_of_lt hlow, Nat.le_of_lt hhigh⟩
  · rw [Bool.and_eq_true, decide_eq_true_eq, decide_eq_true_eq]
    exact ⟨hlow, hhigh⟩

/-- **A grid of seventeen digits has a point that reads back**: one of the two next to the value is near enough. -/
theorem exists_nearest?_of_step {m : Nat} {q : Int} {g : Ratio} (h0 : 0 < m) (hm : m < 2 ^ 53) (hnum : 0 < g.num)
    (hden : 0 < g.den) (hstep : 10 ^ 16 * g.num ≤ 4 * m * g.den) :
    ∃ s, (Rounding.of m q).nearest? g = some s := by
  obtain ⟨s, hs⟩ : ∃ s, 4 * m * g.den / g.num = s := ⟨_, rfl⟩
  have hdiv : s * g.num + 4 * m * g.den % g.num = 4 * m * g.den := by
    rw [← hs]
    exact Nat.div_add_mod' _ _
  have hmod : 4 * m * g.den % g.num < g.num := Nat.mod_lt _ hnum
  have hmden : m * g.den < 2 ^ 53 * g.den := Nat.mul_lt_mul_of_pos_right hm hden
  have hassoc : 4 * m * g.den = 4 * (m * g.den) := Nat.mul_assoc 4 m g.den
  have hlow := low_mul h0 q g.den
  have hhigh := high_mul m q g.den
  have hsucc : (s + 1) * g.num = s * g.num + g.num := Nat.add_one_mul s g.num
  refine exists_nearest? ?_
  show (Rounding.of m q).holds g (4 * m * g.den / g.num) = true
    ∨ (Rounding.of m q).holds g (4 * m * g.den / g.num + 1) = true
  rw [hs]
  by_cases hm52 : m = 2 ^ 52 ∧ q ≠ -1074
  · -- here a step is less than the half place above, so the point above is near enough
    rw [if_pos hm52] at hlow
    have hfirst : m * g.den = 2 ^ 52 * g.den := by rw [hm52.1]
    exact .inr (holds_of_lt (by omega) (by omega))
  · rw [if_neg hm52] at hlow
    rcases Nat.lt_or_ge (4 * m * g.den % g.num) (2 * g.den) with hnear | hfar
    · exact .inl (holds_of_lt (by omega) (by omega))
    · exact .inr (holds_of_lt (by omega) (by omega))

/-- A grid with steps `10^j` times finer in units `2^i` times finer. -/
theorem gridStep_sub (e u : Int) (j i : Nat) : 10 ^ j * (gridStep (e - j) (u - i)).num * (gridStep e u).den
    = 2 ^ i * (gridStep e u).num * (gridStep (e - j) (u - i)).den := by
  rw [gridStep_eq, gridStep_eq]
  dsimp only
  calc 10 ^ j * (10 ^ (e - j).toNat * 2 ^ (-(u - i)).toNat) * (10 ^ (-e).toNat * 2 ^ u.toNat)
      = 10 ^ (j + (e - j).toNat + (-e).toNat) * 2 ^ ((-(u - i)).toNat + u.toNat) := by
        rw [Nat.pow_add, Nat.pow_add, Nat.pow_add]
        ring
    _ = 10 ^ (e.toNat + (-(e - j)).toNat) * 2 ^ (i + (-u).toNat + (u - i).toNat) := by
        congr 2 <;> omega
    _ = 2 ^ i * (10 ^ e.toNat * 2 ^ (-u).toNat) * (10 ^ (-(e - j)).toNat * 2 ^ (u - i).toNat) := by
        rw [Nat.pow_add, Nat.pow_add, Nat.pow_add]
        ring

/-- **The search starts at a power of ten that is not above the value.** -/
theorem decade_reaches {m : Nat} {q : Int} (h0 : 0 < m) (hm : m < 2 ^ 53) (hq : -1074 ≤ q) (hq' : q ≤ 971) :
    (gridStep (decade m q) q).num ≤ m * (gridStep (decade m q) q).den := by
  have hlog : m.log2 < 53 := (Nat.log2_lt h0.ne').2 hm
  obtain ⟨near, hnear⟩ : ∃ near, ((m.log2 : Int) + q) * 30103 / 100000 = near := ⟨_, rfl⟩
  unfold decade
  simp only [hnear, decide_eq_true_eq]
  split
  · next h => exact h
  · split
    · next h => exact h
    · obtain ⟨e, he⟩ : ∃ e, near - 1 = e := ⟨_, rfl⟩
      rw [he, gridStep_eq]
      dsimp only
      have hgoal : 10 ^ e.toNat * 2 ^ (-q).toNat ≤ 2 ^ (m.log2 + q.toNat) * 10 ^ (-e).toNat := by
        rcases Int.lt_or_le e 0 with hneg | hpos
        · rw [show e.toNat = 0 by omega, Nat.pow_zero, Nat.one_mul]
          obtain ⟨y, hy⟩ : ∃ y, (-((m.log2 : Int) + q)).toNat = y := ⟨_, rfl⟩
          calc 2 ^ (-q).toNat ≤ 2 ^ (m.log2 + q.toNat + y) := Nat.pow_le_pow_right (by decide) (by omega)
            _ = 2 ^ (m.log2 + q.toNat) * 2 ^ y := Nat.pow_add 2 _ y
            _ ≤ 2 ^ (m.log2 + q.toNat) * 10 ^ (-e).toNat := Nat.mul_le_mul_left _ (two_pow_le_ten_pow (by omega))
        · rw [show (-e).toNat = 0 by omega, Nat.pow_zero, Nat.mul_one]
          obtain ⟨x, hx⟩ : ∃ x, ((m.log2 : Int) + q).toNat = x := ⟨_, rfl⟩
          calc 10 ^ e.toNat * 2 ^ (-q).toNat
            _ ≤ 2 ^ x * 2 ^ (-q).toNat := Nat.mul_le_mul_right _ (ten_pow_le_two_pow (by omega))
            _ = 2 ^ (x + (-q).toNat) := (Nat.pow_add 2 x _).symm
            _ ≤ 2 ^ (m.log2 + q.toNat) := Nat.pow_le_pow_right (by decide) (by omega)
      calc 10 ^ e.toNat * 2 ^ (-q).toNat ≤ 2 ^ (m.log2 + q.toNat) * 10 ^ (-e).toNat := hgoal
        _ = 2 ^ m.log2 * (10 ^ (-e).toNat * 2 ^ q.toNat) := by
          rw [Nat.pow_add]
          ring
        _ ≤ m * (10 ^ (-e).toNat * 2 ^ q.toNat) := Nat.mul_le_mul_right _ (Nat.log2_self_le h0.ne')

/-! ## The shortest decimal -/

/-- **The shortest decimal reads back.** -/
theorem shortest_holds {m : Nat} {q : Int} (h0 : 0 < m) (hm : m < 2 ^ 53) (hq : -1074 ≤ q) (hq' : q ≤ 971) :
    ∃ s e, shortest m q = ⟨s, e⟩ ∧ (Rounding.of m q).holds (gridStep e (q - 2)) s = true := by
  rw [shortest_eq]
  cases hf : (List.range 17).findSome? (offered? m q) with
  | some r =>
    obtain ⟨i, -, hi⟩ := List.exists_of_findSome?_eq_some hf
    obtain ⟨s, hs, rfl⟩ := Option.map_eq_some_iff.1 hi
    exact ⟨s, _, rfl, holds_of_nearest? hs⟩
  | none =>
    have hlast := List.findSome?_eq_none_iff.1 hf 16 (by decide)
    obtain ⟨hnum, hden⟩ := gridStep_pos (decade m q - (16 : Nat)) (q - (2 : Nat))
    have hstep : 10 ^ 16 * (gridStep (decade m q - (16 : Nat)) (q - (2 : Nat))).num
        ≤ 4 * m * (gridStep (decade m q - (16 : Nat)) (q - (2 : Nat))).den := by
      refine Nat.le_of_mul_le_mul_right ?_ (gridStep_pos (decade m q) q).2
      rw [gridStep_sub, Nat.mul_assoc, Nat.mul_assoc, Nat.mul_assoc, Nat.mul_comm _ (gridStep (decade m q) q).den,
        ← Nat.mul_assoc m]
      exact Nat.mul_le_mul_left _ (Nat.mul_le_mul_right _ (decade_reaches h0 hm hq hq'))
    obtain ⟨s, hs⟩ := exists_nearest?_of_step (q := q) h0 hm hnum hden hstep
    exact absurd (Option.map_eq_none_iff.1 hlast) (by
      rw [show (gridStep (decade m q - (16 : Nat)) (q - 2))
        = gridStep (decade m q - (16 : Nat)) (q - (2 : Nat)) from rfl, hs]
      exact Option.some_ne_none s)

end PolicyGates.Decimal
