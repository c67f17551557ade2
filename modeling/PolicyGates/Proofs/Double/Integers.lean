import PolicyGates.Proofs.Double.Products
/-!
# Integers among the doubles

A double that holds an integer stands a whole number of ones away from zero, on either side (`exists_level_eq`).  Up to
`2^53` every integer is a double of its own (`level_ofInt`), and is compared with such a double as with its integer.
-/
namespace PolicyGates.Double

/-- All integers up to this one and its neighbour are told apart. -/
def IsSafe (z : Int) : Prop := z.natAbs < limit

instance (z : Int) : Decidable (IsSafe z) := inferInstanceAs (Decidable (z.natAbs < limit))

variable {x : Float} {z n : Int}

/-- **An integer stands a whole number of ones away from zero.** -/
theorem exists_level_eq (h : Decimal.isWhole x = true) : ∃ z : Int, level x = z * wholeLevel 1 := by
  by_cases hzero : level x = 0
  · exact ⟨0, by rw [hzero, Int.zero_mul]⟩
  · obtain ⟨s, m, e, hm, -, hlevel, hmagnitude⟩ := exists_whole_magnitude h hzero
    rw [hlevel, hmagnitude, wholeLevel_eq_mul]
    cases s with
    | positive => exact ⟨_, by rw [← Int.natCast_mul]; rfl⟩
    | negative => exact ⟨_, by rw [Int.neg_mul, ← Int.natCast_mul]; rfl⟩

theorem level_ofInt (h : z.natAbs ≤ limit) :
    (Float.ofInt z).isNaN = false ∧ level (Float.ofInt z) = z * wholeLevel 1 := by
  cases z with
  | ofNat k =>
    refine ⟨isNaN_ofNat k, ?_⟩
    rw [Int.ofNat_eq_natCast, ← Int.natCast_mul, ← wholeLevel_eq_mul]
    exact level_ofNat_of_le h
  | negSucc k =>
    obtain ⟨hnumber, hlevel⟩ := level_neg (isNaN_ofNat (k + 1))
    have hk : k + 1 ≤ limit := h
    refine ⟨hnumber, hlevel.trans ?_⟩
    rw [level_ofNat_of_le hk, wholeLevel_eq_mul, Int.negSucc_eq, Int.neg_mul, Nat.cast_mul, Nat.cast_add_one]

section Comparisons

variable (hz : z.natAbs ≤ limit) (hx : x.isNaN = false) (hn : level x = n * wholeLevel 1)
include hz hx hn

theorem ofInt_lt_iff_of_level : Float.ofInt z < x ↔ z < n := by
  obtain ⟨hnumber, hlevel⟩ := level_ofInt hz
  have hone : (0 : Int) < wholeLevel 1 := Int.natCast_pos.2 (wholeLevel_pos Nat.one_pos)
  rw [lt_iff hnumber hx, hlevel, hn, Int.mul_lt_mul_right hone]

theorem ofInt_le_iff_of_level : Float.ofInt z ≤ x ↔ z ≤ n := by
  obtain ⟨hnumber, hlevel⟩ := level_ofInt hz
  have hone : (0 : Int) < wholeLevel 1 := Int.natCast_pos.2 (wholeLevel_pos Nat.one_pos)
  rw [le_iff hnumber hx, hlevel, hn, Int.mul_le_mul_right hone]

end Comparisons

end PolicyGates.Double
