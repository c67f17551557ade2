import PolicyGates.Evidence
import PolicyGates.Proofs.Checked
import PolicyGates.Proofs.Double.Products
/-!
# The score of checked evidence

Evidence is weighed as a document.  Where the document is that of evidence items, the score is the sum of their
weights over their number (`score_toValue`), and if the weights are shares of one, which those of a checked proposal
are, the sum stays between zero and the number of items (`totalWeight_le`) and the score is a number
(`isNaN_meanWeight`).
-/
namespace PolicyGates

open Schema Double

/-! ## Items -/

/-- What an item weighs: its own weight, or that of its tier. -/
def EvidenceItem.weight (e : EvidenceItem) : Float := e.weightOverride.getD e.tier.weight

/-- The weights of items, added to a number in their order. -/
def totalWeight (start : Float) (items : List EvidenceItem) : Float := items.foldl (fun sum e => sum + e.weight) start

theorem totalWeight_cons (start : Float) (e : EvidenceItem) (items : List EvidenceItem) :
    totalWeight start (e :: items) = totalWeight (start + e.weight) items := rfl

theorem totalWeight_concat (start : Float) (items : List EvidenceItem) (e : EvidenceItem) :
    totalWeight start (items ++ [e]) = totalWeight start items + e.weight := List.foldl_append

def meanWeight (items : List EvidenceItem) : Float := totalWeight 0.0 items / Float.ofNat items.length

/-- Some item is strong enough for the phase. -/
def HoldsTier (phase : Phase) (items : List EvidenceItem) : Prop :=
  ∃ e ∈ items, e.tier.number ≤ phase.weakestTier.number

theorem Tier.number_le_limit (t : Tier) : t.number ≤ limit := by
  cases t <;> decide

theorem Tier.isShare_weight (t : Tier) : IsShare t.weight := by
  cases t <;> exact ⟨by decide, by decide⟩

theorem Evidence.weight_toValue (e : EvidenceItem) : Evidence.weight e.toValue = .ok (.value (.num e.weight)) := by
  obtain ⟨tier, own⟩ := e
  cases own with
  | some w => rfl
  | none => cases tier <;> rfl

theorem Evidence.meets_toValue (t : Tier) (e : EvidenceItem) :
    Evidence.meets (.ofCount t.number) e.toValue = .ok (decide (e.tier.number ≤ t.number)) := by
  have h : Evidence.meets (.ofCount t.number) e.toValue
      = .ok (decide (Float.ofNat e.tier.number ≤ Float.ofNat t.number)) := rfl
  rw [h, decide_eq_decide.2 (ofNat_le_iff e.tier.number_le_limit t.number_le_limit)]

theorem Phase.threshold_name (phase : Phase) :
    Phase.threshold (.str phase.name) = .ok (.ofCount phase.weakestTier.number) := by
  cases phase <;> rfl

/-! ## The score -/

theorem total_toValue (items : List EvidenceItem) (start : Float) :
    (items.map EvidenceItem.toValue).foldlM (fun (sum item : Value) => do sum.plus (← Evidence.weight item).toValue)
      (Value.num start) = Except.ok (Value.num (totalWeight start items)) := by
  induction items generalizing start with
  | nil => rfl
  | cons e rest ih =>
    rw [List.map_cons, List.foldlM_cons, Evidence.weight_toValue]
    exact ih (start + e.weight)

theorem anyM_toValue (phase : Phase) (items : List EvidenceItem) :
    (items.map EvidenceItem.toValue).anyM (Evidence.meets (.ofCount phase.weakestTier.number))
      = .ok (items.any (fun e => e.tier.number ≤ phase.weakestTier.number)) := by
  induction items with
  | nil => rfl
  | cons e rest ih =>
    rw [List.map_cons, List.anyM, Evidence.meets_toValue, List.any_cons]
    cases decide (e.tier.number ≤ phase.weakestTier.number) with
    | true => rfl
    | false => exact ih

theorem ofCount_same_zero {n : Nat} (h : 0 < n) : (Value.ofCount n).same (.num 0.0) = false := by
  have hpos := level_ofNat_pos h
  have hzero : level (0.0 : Float) = 0 := by decide
  rw [Bool.eq_false_iff]
  intro hc
  change (Float.ofNat n == 0.0) = true at hc
  rw [beq_iff (isNaN_ofNat n) (by decide)] at hc
  omega

/-- **The score of evidence as it is computed**, where there is some. -/
theorem score_toValue {items : List EvidenceItem} (h : items ≠ []) (phase : Phase) :
    EvidenceScore.of (.arr (items.map EvidenceItem.toValue)) (.str phase.name)
      = .ok ⟨meanWeight items, items.any (fun e => e.tier.number ≤ phase.weakestTier.number)⟩ := by
  have hlength : (items.map EvidenceItem.toValue).length = items.length := List.length_map _
  have hask : (Value.arr (items.map EvidenceItem.toValue)).ask "length" = .ok (.ofCount items.length) := by
    rw [← hlength]
    rfl
  have htotal : Evidence.total (items.map EvidenceItem.toValue) = .ok (.num (totalWeight 0.0 items)) :=
    total_toValue items 0.0
  unfold EvidenceScore.of
  rw [hask]
  simp only [bind, Except.bind, ofCount_same_zero (List.length_pos_iff.2 h), htotal, Phase.threshold_name,
    Value.number_num, anyM_toValue, hlength]
  rfl

theorem score_nil (phase : Value) : EvidenceScore.of (.arr []) phase = .ok ⟨0.0, false⟩ := rfl

/-! ## Weights that are shares -/

variable {items : List EvidenceItem} (hw : ∀ e ∈ items, ∀ w, e.weightOverride = some w → IsShare w)

include hw in
theorem isShare_weight {e : EvidenceItem} (he : e ∈ items) : IsShare e.weight := by
  unfold EvidenceItem.weight
  cases ho : e.weightOverride with
  | none => exact e.tier.isShare_weight
  | some w => exact hw e he w ho

/-- What holds of the items holds of those before the last one, and that one's weight is a share too. -/
theorem weights_of_concat {e : EvidenceItem} (h : ∀ e' ∈ items ++ [e], ∀ w, e'.weightOverride = some w → IsShare w) :
    (∀ e' ∈ items, ∀ w, e'.weightOverride = some w → IsShare w) ∧ IsShare e.weight :=
  ⟨fun e' he' => h e' (List.mem_append_left _ he'),
    isShare_weight h (List.mem_append_right items (List.mem_singleton_self e))⟩

include hw in
/-- **Adding shares keeps a sum between zero and their number**, as it can be counted. -/
theorem totalWeight_le {start : Float} {n : Nat} (h0 : 0.0 ≤ start) (hn : start ≤ counted n)
    (hs : start.isFinite = true) :
    (totalWeight start items).isFinite = true ∧ 0.0 ≤ totalWeight start items
      ∧ totalWeight start items ≤ counted (n + items.length) := by
  induction items generalizing start n with
  | nil => exact ⟨hs, h0, hn⟩
  | cons e rest ih =>
    have hshare : IsShare e.weight := isShare_weight hw List.mem_cons_self
    obtain ⟨hfin, hlow, hhigh⟩ := add_le_counted hs h0 hn hshare.isFinite hshare.zero_le hshare.le_one
    obtain ⟨h1, h2, h3⟩ := ih (fun e' he' => hw e' (List.mem_cons_of_mem _ he')) hlow hhigh hfin
    refine ⟨h1, h2, ?_⟩
    rw [show n + (e :: rest).length = n + 1 + rest.length by rw [List.length_cons]; omega]
    exact h3

include hw in
theorem totalWeight_le_counted :
    (totalWeight 0.0 items).isFinite = true ∧ 0.0 ≤ totalWeight 0.0 items
      ∧ totalWeight 0.0 items ≤ counted items.length := by
  have hstart : (0.0 : Float) ≤ counted 0 := by decide
  have hle := totalWeight_le hw (by decide) hstart (by decide)
  rwa [Nat.zero_add] at hle

include hw in
theorem isNaN_meanWeight (h : items ≠ []) : (meanWeight items).isNaN = false := by
  have hpos := level_ofNat_pos (List.length_pos_iff.2 h)
  exact isNaN_div (totalWeight_le_counted hw).1 (isNaN_ofNat _) (by omega)

end PolicyGates
