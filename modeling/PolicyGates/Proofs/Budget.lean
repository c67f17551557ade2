import PolicyGates.Budget
import PolicyGates.Proofs.Double.Results
/-!
# Charges on budgets

An open budget takes a charge exactly if the sum of what has been spent and the charge does not go beyond its cap
(`charge_eq`).  Sums are those of the doubles.  What a charge leaves of a budget whose numbers are finite is such a
budget again (`IsFinite.charge`), and one that stood within its cap still does (`IsWithin.charge`).
-/
namespace PolicyGates.Budget

open Double

/-- A budget that takes charges: not closed, and with numbers in it. -/
structure IsOpen (b : Budget) : Prop where
  notClosed : b.closed = false
  isNaN_maxTokens : b.maxTokens.isNaN = false
  isNaN_spent : b.spent.isNaN = false

variable {b : Budget} {x : Float}

theorem isOpen_fresh {cap : Float} (h : cap.isNaN = false) : (fresh cap).IsOpen :=
  ⟨rfl, h, show (0.0 : Float).isNaN = false by decide⟩

theorem IsOpen.spend (h : b.IsOpen) (hx : x.isFinite = true) : IsOpen { b with spent := b.spent + x } :=
  ⟨h.notClosed, h.isNaN_maxTokens, isNaN_add h.isNaN_spent hx⟩

theorem chargeable_iff : ¬((!x.isFinite) = true ∨ x < 0.0) ↔ x.isFinite = true ∧ 0.0 ≤ x := by
  rw [not_or, Bool.not_eq_true, Bool.not_eq_false']
  exact and_congr_right fun hx => not_lt_iff (isNaN_of_isFinite hx) (by decide)

/-- **A charge is taken if it fits**, and changes nothing otherwise. -/
theorem charge_eq (h : b.IsOpen) (hx : x.isFinite = true) (h0 : 0.0 ≤ x) :
    b.charge x = if b.spent + x ≤ b.maxTokens then .ok { b with spent := b.spent + x }
      else .error (.budgetExceeded x b.remaining) := by
  have hfits := not_lt_iff h.isNaN_maxTokens (isNaN_add h.isNaN_spent hx)
  unfold charge
  rw [if_neg (by simp [h.notClosed]), if_neg (chargeable_iff.2 ⟨hx, h0⟩)]
  by_cases hc : b.maxTokens < b.spent + x
  · rw [if_pos hc, if_neg (fun hle => hfits.2 hle hc)]
  · rw [if_neg hc, if_pos (hfits.1 hc)]

/-- **What it takes for a charge to be taken**, whatever the budget and the amount. -/
theorem charge_eq_ok_iff {b' : Budget} : b.charge x = .ok b' ↔ b.closed = false ∧ x.isFinite = true ∧ 0.0 ≤ x
    ∧ ¬b.maxTokens < b.spent + x ∧ b' = { b with spent := b.spent + x } := by
  unfold charge
  constructor
  · intro h
    split at h
    · cases h
    · next hclosed =>
      split at h
      · cases h
      · next hamount =>
        obtain ⟨hx, h0⟩ := chargeable_iff.1 hamount
        split at h
        · cases h
        · next hcap =>
          cases h
          exact ⟨by simpa using hclosed, hx, h0, hcap, rfl⟩
  · rintro ⟨hclosed, hx, h0, hcap, rfl⟩
    rw [if_neg (by simp [hclosed]), if_neg (chargeable_iff.2 ⟨hx, h0⟩), if_neg hcap]

/-! ## Finite budgets -/

structure IsFinite (b : Budget) : Prop where
  maxTokens : b.maxTokens.isFinite = true
  spent : b.spent.isFinite = true
  zero_le_spent : 0.0 ≤ b.spent

theorem isFinite_fresh {cap : Float} (h : cap.isFinite = true) : (fresh cap).IsFinite :=
  ⟨h, show (0.0 : Float).isFinite = true by decide, show (0.0 : Float) ≤ 0.0 by decide⟩

/-- **What a charge leaves is finite**, and so is what was charged. -/
theorem IsFinite.charge {b' : Budget} (hb : b.IsFinite) (h : b.charge x = .ok b') :
    x.isFinite = true ∧ b'.IsFinite := by
  obtain ⟨-, hx, h0, hcap, rfl⟩ := charge_eq_ok_iff.1 h
  have hsum := isNaN_add (isNaN_of_isFinite hb.spent) hx
  have hle := (not_lt_iff (isNaN_of_isFinite hb.maxTokens) hsum).1 hcap
  have hge := zero_le_add hb.spent hx hb.zero_le_spent h0
  exact ⟨hx, hb.maxTokens, isFinite_of_le (by decide) hb.maxTokens hsum hge hle, hge⟩

/-- Between nothing and the cap. -/
structure IsWithin (b : Budget) : Prop extends b.IsFinite where
  spent_le : b.spent ≤ b.maxTokens

/-- **A charge that is taken leaves the budget within its cap**, and nothing of what was spent comes back. -/
theorem IsWithin.charge {b' : Budget} (hb : b.IsWithin) (h : b.charge x = .ok b') :
    b'.IsWithin ∧ b'.maxTokens = b.maxTokens ∧ b.spent ≤ b'.spent := by
  obtain ⟨hx, hleft⟩ := hb.toIsFinite.charge h
  obtain ⟨-, -, h0, hcap, rfl⟩ := charge_eq_ok_iff.1 h
  have hsum := isNaN_add (isNaN_of_isFinite hb.spent) hx
  exact ⟨⟨hleft, (not_lt_iff (isNaN_of_isFinite hb.maxTokens) hsum).1 hcap⟩, rfl, le_add hb.spent hx h0⟩

theorem IsWithin.zero_le_remaining (hb : b.IsWithin) : 0.0 ≤ b.remaining :=
  zero_le_sub hb.maxTokens hb.spent hb.spent_le

end PolicyGates.Budget
