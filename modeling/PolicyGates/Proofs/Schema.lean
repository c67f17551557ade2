import PolicyGates.Proofs.Decimal.Whole
import PolicyGates.Schema
/-!
# What passes a check

A value passes a check if the check has no issue with it.  For every kind of check this says of which form the value
is and what its parts pass (`number_eq_nil`, `optional_eq_nil`, `listOf_eq_nil`, `issues_eq_nil`), so a checked
document can be read member by member.  A number that passes `Keeps` its rules, and the rules are then facts about
doubles.
-/
namespace PolicyGates.Schema

open Double

/-! ## Issues -/

theorem refuse_ne_nil (message : Text) : refuse message ≠ [] := List.cons_ne_nil _ _

theorem expected_ne_nil (what : Text) (v : Value) : expected what v ≠ [] := refuse_ne_nil _

theorem under_eq_nil {key : String} {issues : List Issue} : under key issues = [] ↔ issues = [] := List.map_eq_nil_iff

/-! ## Numbers -/

/-- A number within every rule. -/
def Keeps (rules : List NumberRule) (x : Float) : Prop := x.isNaN = false ∧ ∀ r ∈ rules, r.admits x = true

/-- **What passes as a number is a number that keeps the rules.** -/
theorem number_eq_nil {rules : List NumberRule} {v : Value} :
    number rules v = [] ↔ ∃ x, v = .num x ∧ Keeps rules x := by
  cases v with
  | num x =>
    simp only [number, Value.num.injEq, exists_eq_left', Keeps]
    split
    · next h => exact iff_of_false (expected_ne_nil _ _) (fun hk => Bool.false_ne_true (hk.1.symm.trans h))
    · next h =>
      rw [List.flatMap_eq_nil_iff]
      constructor
      · intro hall
        refine ⟨by simpa using h, fun r hr => ?_⟩
        by_contra hc
        exact refuse_ne_nil _ (hall r (List.mem_filter.2 ⟨hr, by simpa using hc⟩))
      · rintro ⟨-, hkeep⟩ r hr
        obtain ⟨hr, hc⟩ := List.mem_filter.1 hr
        rw [hkeep r hr] at hc
        cases hc
  | _ => simp [number, expected_ne_nil]

variable {rules : List NumberRule} {x b : Float}

theorem Keeps.isFinite_of_finite (h : Keeps rules x) (hr : .finite ∈ rules) : x.isFinite = true := h.2 _ hr

section Bounds

variable (hx : x.isNaN = false) (hb : b.isNaN = false)
include hx hb

theorem admits_least : (NumberRule.least b).admits x = true ↔ b ≤ x := by
  rw [NumberRule.admits, Bool.not_eq_true', decide_eq_false_iff_not, not_lt_iff hx hb]

theorem admits_greatest : (NumberRule.greatest b).admits x = true ↔ x ≤ b := by
  rw [NumberRule.admits, Bool.not_eq_true', decide_eq_false_iff_not, not_lt_iff hb hx]

theorem admits_above : (NumberRule.above b).admits x = true ↔ b < x := by
  rw [NumberRule.admits, Bool.not_eq_true', decide_eq_false_iff_not, not_le_iff hx hb]

end Bounds

theorem Keeps.least_le (h : Keeps rules x) (hr : .least b ∈ rules) (hb : b.isNaN = false) : b ≤ x :=
  (admits_least h.1 hb).1 (h.2 _ hr)

theorem Keeps.le_greatest (h : Keeps rules x) (hr : .greatest b ∈ rules) (hb : b.isNaN = false) : x ≤ b :=
  (admits_greatest h.1 hb).1 (h.2 _ hr)

theorem Keeps.above_lt (h : Keeps rules x) (hr : .above b ∈ rules) (hb : b.isNaN = false) : b < x :=
  (admits_above h.1 hb).1 (h.2 _ hr)

/-! ## Values and their parts -/

theorem optional_eq_nil {c : Check} {v : Value} : optional c v = [] ↔ v.isAbsent = true ∨ c v = [] := by
  unfold optional
  split <;> simp_all

theorem itemIssues_eq_nil {c : Check} {vs : List Value} (n : Nat) : itemIssues c n vs = [] ↔ ∀ v ∈ vs, c v = [] := by
  induction vs generalizing n with
  | nil => simp [itemIssues]
  | cons v r ih => simp [itemIssues, under_eq_nil, ih]

theorem listOf_eq_nil {c : Check} {v : Value} : listOf c v = [] ↔ ∃ vs, v = .arr vs ∧ ∀ w ∈ vs, c w = [] := by
  cases v with
  | arr vs => simp [listOf, itemIssues_eq_nil]
  | _ => simp [listOf, expected_ne_nil]

/-- **Members pass if each named one does.** -/
theorem issues_eq_nil {fs : Fields} {ms : Members} : fs.issues ms = [] ↔ ∀ f ∈ fs, f.2 (Members.get f.1 ms) = [] := by
  simp [Fields.issues, List.flatMap_eq_nil_iff, under_eq_nil]

theorem openObject_eq_nil {fs : Fields} {v : Value} : openObject fs v = [] ↔ ∃ ms, v = .obj ms ∧ fs.issues ms = [] := by
  cases v with
  | obj ms => simp [openObject]
  | _ => simp [openObject, expected_ne_nil]

theorem listing_eq_keys {ms : Members} (h : ∀ k ∈ ms.keys, Members.index? k = none) : Members.listing ms = ms.keys := by
  have hnone : ms.keys.filterMap (fun k => (Members.index? k).map (fun n => (n, k))) = [] := by
    rw [List.filterMap_eq_nil_iff]
    intro k hk
    rw [h k hk]
    rfl
  have hall : ms.keys.filter (fun k => (Members.index? k).isNone) = ms.keys := by
    rw [List.filter_eq_self]
    intro k hk
    rw [h k hk]
    rfl
  unfold Members.listing
  simp only [hnone, hall, List.mergeSort_nil, List.map_nil, List.nil_append]

theorem closedObject_eq_nil {fs : Fields} {v : Value} :
    closedObject fs v = [] ↔ ∃ ms, v = .obj ms ∧ fs.issues ms = [] ∧ fs.unknown ms = [] := by
  cases v with
  | obj ms =>
    simp only [closedObject, List.append_eq_nil_iff, Value.obj.injEq, exists_eq_left']
    split
    · next h => simp [h]
    · next h => simp [h, refuse_ne_nil]
  | _ => simp [closedObject, expected_ne_nil]

/-! ## Reading numbers -/

theorem Keeps.of_number {v : Value} (h : number rules v = []) (d : Float) : Keeps rules (v.asNumber?.getD d) := by
  obtain ⟨x, rfl, hx⟩ := number_eq_nil.1 h
  exact hx

theorem Keeps.of_optional {v : Value} (h : optional (number rules) v = []) {d : Float} (hd : Keeps rules d) :
    Keeps rules (v.asNumber?.getD d) := by
  rcases optional_eq_nil.1 h with ha | hn
  · cases v with
    | absent => exact hd
    | _ => cases ha
  · exact .of_number hn d

end PolicyGates.Schema
