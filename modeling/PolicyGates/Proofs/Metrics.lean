import PolicyGates.Metrics
import PolicyGates.Audit.Record
import PolicyGates.Proofs.Endings
import Mathlib.Data.List.Nodup
/-!
# What the metrics count

The metrics are a count of records (`Metrics.Counts`): each number in them can be read off the records alone, where
the energy is summed up in the order of the records.  They stay a count of the records when one more decision is
counted whose record comes after the others (`Counts.count`), as long as the decision is in order: it names each gate
that failed once, and leaves a proposal to people when its run was cancelled (`Decision.IsInOrder`).
-/
namespace PolicyGates

/-! ## Decisions in order -/

/-- What a decision says of failures and of cancellation fits what it says of the gates and of the proposal. -/
structure Decision.IsInOrder (d : Decision) : Prop where
  gatesFailed : d.gatesFailed = (d.results.filter (fun x => x.outcome == .fail)).map GateResult.gate
  gates : (d.results.map GateResult.gate).Nodup
  cancelled : d.cancelled = true → d.overall = .escalateHuman

/-- **The decision on a run that has ended is in order.** -/
theorem Run.Ends.isInOrder {c : Circumstances} {document : Value} {closed : Bool} {r : Run}
    (h : r.Ends c document closed) (id : String) (proposalId : Text) (mode : Mode) (spent : Float) (time : Instant) :
    (Decision.ofRun id proposalId mode r spent time).IsInOrder where
  gatesFailed := rfl
  gates := h.gates_prefix.sublist.nodup (by decide)
  cancelled hcancelled := by
    show r.verdict = .escalateHuman
    rw [Run.verdict, show r.isCancelled = true from hcancelled]
    rfl

/-! ## Reading records -/

namespace Audit.Record

/-- The decision of the record has a value under a key. -/
def tells (r : Record) (key : Text) (v : Value) : Bool := (r.decision.member key).same v

/-- Among the results of the decision is a failure of the gate. -/
def tellsFailureOf (r : Record) (g : Gate) : Bool :=
  (r.decision.member "results").items.any
    (fun x => (x.member "gate").same (.str g.name) && (x.member "outcome").same (.str "FAIL"))

variable {r : Record} {d : Decision}

theorem tells_overall (h : r.decision = d.toValue) (v : Verdict) :
    r.tells "overall" (.str v.name) = (d.overall == v) := by
  have htells : r.tells "overall" (.str v.name) = (Value.str d.overall.name).same (.str v.name) := by rw [tells, h]; rfl
  rw [htells]
  cases d.overall <;> cases v <;> rfl

theorem tells_cancelled (h : r.decision = d.toValue) : r.tells "cancelled" (.bool true) = d.cancelled := by
  have htells : r.tells "cancelled" (.bool true) = (d.cancelled == true) := by rw [tells, h]; rfl
  rw [htells, beq_true]

theorem tellsFailureOf_iff (h : r.decision = d.toValue) (hd : d.IsInOrder) (g : Gate) :
    r.tellsFailureOf g = true ↔ g ∈ d.gatesFailed := by
  have hgate : ∀ x : GateResult, (x.toValue.member "gate").same (.str g.name) = true ↔ x.gate = g := by
    intro x
    show (Value.str x.gate.name).same _ = true ↔ _
    cases x.gate <;> cases g <;> decide
  have houtcome : ∀ x : GateResult, (x.toValue.member "outcome").same (.str "FAIL") = (x.outcome == .fail) := by
    intro x
    show (Value.str x.outcome.name).same _ = _
    cases x.outcome <;> rfl
  have hitems : (r.decision.member "results").items = d.results.map GateResult.toValue := by rw [h]; rfl
  rw [tellsFailureOf, hitems, List.any_map, List.any_eq_true, hd.gatesFailed]
  simp only [Function.comp_apply, Bool.and_eq_true, hgate, houtcome, List.mem_map, List.mem_filter]
  constructor
  · rintro ⟨x, hx, rfl, hf⟩
    exact ⟨x, ⟨hx, hf⟩, rfl⟩
  · rintro ⟨x, ⟨hx, hf⟩, rfl⟩
    exact ⟨x, hx, rfl, hf⟩

end Audit.Record

/-! ## Counting -/

namespace Metrics

/-- The metrics are a count of the decisions in the records. -/
structure Counts (m : Metrics) (records : List Audit.Record) : Prop where
  evaluated : m.evaluated = records.length
  verdicts : m.evaluated = m.approved + m.rejected + m.escalated
  approved : m.approved = records.countP (·.tells "overall" (.str "APPROVE"))
  rejected : m.rejected = records.countP (·.tells "overall" (.str "REJECT"))
  escalated : m.escalated = records.countP (·.tells "overall" (.str "ESCALATE_HUMAN"))
  cancelled : m.cancelled = records.countP (·.tells "cancelled" (.bool true))
  cancelled_le : m.cancelled ≤ m.escalated
  /-- The energy is added up in the order of the records. -/
  energyConsumed : ∃ energies : List Float, records.map (·.decision.member "energyConsumed") = energies.map .num
    ∧ m.energyConsumed = energies.foldl (· + ·) 0.0
  gateFailures : ∀ g, m.gateFailures g = records.countP (·.tellsFailureOf g)

theorem counts_zero : zero.Counts [] :=
  ⟨rfl, rfl, rfl, rfl, rfl, rfl, Nat.le_refl _, ⟨[], rfl, rfl⟩, fun _ => rfl⟩

theorem countFailures_eq (m : Metrics) (gates : List Gate) :
    (m.countFailures gates).1 = { m with gateFailures := fun g => m.gateFailures g + gates.count g } := by
  induction gates generalizing m with
  | nil => rfl
  | cons g rest ih =>
    rw [countFailures]
    dsimp only
    rw [ih, countFailure]
    congr 1
    funext h
    rw [List.count_cons]
    dsimp only
    by_cases hg : h = g
    · rw [if_pos hg, if_pos (beq_iff_eq.2 hg.symm)]
      omega
    · rw [if_neg hg, if_neg (fun hc => hg (eq_of_beq hc).symm), Nat.add_zero]

theorem tally_eq (n : Nat) (b : Bool) : tally n b = n + if b then 1 else 0 := by
  cases b <;> rfl

theorem countP_concat (p : Audit.Record → Bool) (records : List Audit.Record) (r : Audit.Record) :
    (records ++ [r]).countP p = tally (records.countP p) (p r) := by
  rw [List.countP_append, List.countP_singleton, tally_eq]

/-- **One more decision is counted with its record.** -/
theorem Counts.count {m : Metrics} {records : List Audit.Record} (h : m.Counts records) {d : Decision}
    (hd : d.IsInOrder) {r : Audit.Record} (hr : r.decision = d.toValue) :
    (m.count d).1.Counts (records ++ [r]) := by
  have hoverall := Audit.Record.tells_overall hr
  rw [Metrics.count, countFailures_eq]
  obtain ⟨energies, henergies, hsum⟩ := h.energyConsumed
  refine ⟨?_, ?_, ?_, ?_, ?_, ?_, ?_, ⟨energies ++ [d.energyConsumed], ?_, ?_⟩, fun g => ?_⟩
  · rw [List.length_append, List.length_singleton, ← h.evaluated]
  · have := h.verdicts
    simp only [tally_eq]
    cases d.overall <;> simp <;> omega
  · rw [countP_concat, ← h.approved]
    exact congrArg (tally m.approved) (hoverall .approve).symm
  · rw [countP_concat, ← h.rejected]
    exact congrArg (tally m.rejected) (hoverall .reject).symm
  · rw [countP_concat, ← h.escalated]
    exact congrArg (tally m.escalated) (hoverall .escalateHuman).symm
  · rw [countP_concat, ← h.cancelled, Audit.Record.tells_cancelled hr]
  · have := h.cancelled_le
    simp only [tally_eq]
    cases hc : d.cancelled with
    | false => simp; omega
    | true => simp [hd.cancelled hc]; omega
  · rw [List.map_append, List.map_append, henergies, List.map_singleton, List.map_singleton, hr]
    rfl
  · rw [List.foldl_append, ← hsum]
    rfl
  · -- a gate is named once if it failed, and not at all otherwise
    have hnodup : d.gatesFailed.Nodup := by
      rw [hd.gatesFailed]
      exact hd.gates.sublist (List.filter_sublist.map _)
    have htells := Audit.Record.tellsFailureOf_iff hr hd g
    rw [countP_concat, ← h.gateFailures]
    show m.gateFailures g + d.gatesFailed.count g = _
    rw [tally_eq]
    by_cases hg : g ∈ d.gatesFailed
    · rw [if_pos (htells.2 hg)]
      exact congrArg _ (List.nodup_iff_count_eq_one.1 hnodup g hg)
    · rw [if_neg (fun hc => hg (htells.1 hc))]
      exact congrArg _ (List.count_eq_zero_of_not_mem hg)

end Metrics

end PolicyGates
