import PolicyGates.Proofs.Decimal.Parts
import PolicyGates.Proofs.Registry
import PolicyGates.Proofs.Run
import PolicyGates.Proofs.Value.Document
/-!
# Decisions as documents

A budget with a finite cap never holds anything but finite numbers, whatever it is asked to pay
(`Budget.IsFinite.charge`), and a gate reports finite numbers only.  So each check of a run of a checked proposal
leaves finite numbers behind (`Progress.IsReported.check`), and the decision on the run is a document
(`Run.IsReported.isDocument`), whatever the texts in it.
-/
namespace PolicyGates

open Schema Double

/-! ## Results -/

/-- What a gate reports in numbers is finite. -/
structure GateResult.IsReported (r : GateResult) : Prop where
  energySpent : r.energySpent.isFinite = true
  viabilityPowerDelta : r.viabilityPowerDelta = .absent ∨ ∃ x : Float, r.viabilityPowerDelta = .num x
    ∧ x.isFinite = true

variable {s : Settings} {phase : Phase} {p : Proposal} {mode : Mode}

theorem isReported_refusal (g : Gate) (f : Failure) : (Progress.refusal g f).IsReported :=
  ⟨show (0.0 : Float).isFinite = true by decide, .inl rfl⟩

theorem isFinite_accrued (hp : p.IsChecked) : (Gate.accrued s p).isFinite = true := by
  unfold Gate.accrued
  split
  · exact hp.viabilityPowerClaim.isFinite_of_finite List.mem_cons_self
  · decide

theorem delta_cases (hp : p.IsChecked) (g : Gate) :
    g.delta s p = .absent ∨ ∃ x : Float, g.delta s p = .num x ∧ x.isFinite = true := by
  unfold Gate.delta
  split
  · exact .inr ⟨_, rfl, isFinite_accrued hp⟩
  · exact .inl rfl

theorem evaluate_isFinite (hs : s.IsChecked) (hp : p.IsChecked) (phase : Phase) (mode : Mode) (g : Gate) {b : Budget}
    (hb : b.IsFinite) :
    (g.evaluate ⟨s.toValue, .str phase.name, mode⟩ p.toValue b).1.IsFinite
    ∧ ∀ r, (g.evaluate ⟨s.toValue, .str phase.name, mode⟩ p.toValue b).2 = .ok r → r.IsReported := by
  have hopines : g.Opines s phase p (g.judge s.toValue (.str phase.name) p.toValue) := Gate.judge_opines hs hp g
  obtain ⟨o, ho, -, hdelta⟩ := hopines
  unfold Gate.evaluate
  simp only [Gate.cost_toValue, Budget.chargeAny]
  cases hc : b.charge (g.price s p) with
  | error e => exact ⟨hb, fun r hr => by cases hr⟩
  | ok charged =>
    obtain ⟨hprice, hcharged⟩ := hb.charge hc
    refine ⟨hcharged, fun r hr => ?_⟩
    simp only [Gate.finding, ho] at hr
    cases hr
    exact ⟨hprice, hdelta ▸ delta_cases hp g⟩

/-! ## Runs -/

/-- A run that has reported finite numbers so far, at most one result for each gate. -/
structure Progress.IsReported (q : Progress) : Prop where
  budget : q.budget.IsFinite
  results : ∀ x ∈ q.results, x.IsReported
  count : q.results.length + q.ahead.length = Gate.all.length

/-- What a run has come to that has reported finite numbers. -/
structure Run.IsReported (r : Run) : Prop where
  results : ∀ x ∈ r.results, x.IsReported
  count : r.results.length ≤ Gate.all.length

namespace Progress

def Step.IsReported : Step → Prop
  | .running q => q.IsReported
  | .ended r b => r.IsReported ∧ b.IsFinite

theorem Step.isReported_next {b : Budget} {results : List GateResult} {ahead : List Gate}
    (h : Progress.IsReported ⟨b, results, ahead⟩) :
    (Step.next b results ahead).IsReported := by
  unfold Step.next
  split
  · exact ⟨⟨h.results, Nat.le_of_add_right_le (Nat.le_of_eq h.count)⟩, h.budget⟩
  · exact h

theorem Step.isReported_ite {c : Prop} [Decidable c] {step step' : Step} (h : step.IsReported) (h' : step'.IsReported) :
    (if c then step else step').IsReported := by
  split
  · exact h
  · exact h'

/-- **A check reports finite numbers.** -/
theorem IsReported.check (hs : s.IsChecked) (hp : p.IsChecked) (phase : Phase) (mode : Mode)
    (cancellation : Option Text) {q : Progress} (h : q.IsReported) :
    (q.check ⟨s.toValue, .str phase.name, mode⟩ p.toValue cancellation).IsReported := by
  obtain ⟨budget, results, ahead⟩ := q
  obtain ⟨hbudget, hresults, hcount⟩ := h
  dsimp only at hbudget hresults hcount
  cases ahead with
  | nil => exact ⟨⟨hresults, Nat.le_of_eq hcount⟩, hbudget⟩
  | cons g rest =>
    rw [List.length_cons] at hcount
    cases cancellation with
    | some reason => exact ⟨⟨hresults, by dsimp only; omega⟩, hbudget⟩
    | none =>
      obtain ⟨hafter, hreported⟩ := evaluate_isFinite hs hp phase mode g hbudget
      have hconcat : ∀ x : GateResult, x.IsReported → (∀ y ∈ results ++ [x], y.IsReported)
          ∧ (results ++ [x]).length + rest.length = Gate.all.length := by
        intro x hx
        refine ⟨List.forall_mem_append.2 ⟨hresults, List.forall_mem_singleton.2 hx⟩, ?_⟩
        rw [List.length_append, List.length_singleton]
        omega
      cases he : g.evaluate ⟨s.toValue, .str phase.name, mode⟩ p.toValue budget with
      | mk b answer =>
        rw [he] at hafter hreported
        cases answer with
        | error f =>
          obtain ⟨hall, hlength⟩ := hconcat _ (isReported_refusal g f)
          simp only [Progress.check, he]
          refine Step.isReported_ite ?_ (Step.isReported_next ⟨hafter, hall, hlength⟩)
          exact ⟨⟨hall, Nat.le_of_add_right_le (Nat.le_of_eq hlength)⟩, hafter⟩
        | ok x =>
          obtain ⟨hall, hlength⟩ := hconcat x (hreported x rfl)
          simp only [Progress.check, he]
          refine Step.isReported_ite ?_ (Step.isReported_next ⟨hafter, hall, hlength⟩)
          exact ⟨⟨hall, Nat.le_of_add_right_le (Nat.le_of_eq hlength)⟩, hafter⟩

theorem isReported_fresh (hp : p.IsChecked) : IsReported (.fresh (.fresh p.energyBudgetTokens)) :=
  ⟨Budget.isFinite_fresh (Decimal.isFinite_of_isWhole (hp.energyBudgetTokens.2 _ List.mem_cons_self)),
    List.forall_mem_nil _, rfl⟩

/-- **A run of a checked proposal reports finite numbers**, however it ends. -/
theorem EndsIn.isReported (hs : s.IsChecked) (hp : p.IsChecked) {r : Run} {b : Budget}
    (h : EndsIn ⟨s.toValue, .str phase.name, mode⟩ p.toValue (.fresh (.fresh p.energyBudgetTokens)) r b) :
    r.IsReported ∧ b.IsFinite := by
  obtain ⟨q, cancellation, hreach, hend⟩ := h
  have hq : q.IsReported := by
    clear hend
    induction hreach with
    | start => exact isReported_fresh hp
    | check _ hc ih =>
      have := ih.check hs hp phase mode none
      rwa [hc] at this
  have := hq.check hs hp phase mode cancellation
  rwa [hend] at this

end Progress

/-! ## Decisions -/

open Value

theorem isDocument_ofCount {n : Nat} (h : n ≤ limit) : (ofCount n).IsDocument := .num (isFinite_ofNat h)

theorem Mode.isDocument (h : ∀ asked, mode = .unlisted asked → asked.IsDocument) : mode.toValue.IsDocument := by
  cases mode with
  | unlisted asked => exact h asked rfl
  | _ => exact .str _

theorem GateResult.IsReported.isDocument {r : GateResult} (h : r.IsReported) : r.toValue.IsDocument := by
  have hnumber : r.gate.number ≤ limit := by cases r.gate <;> decide
  have hdelta : r.viabilityPowerDelta ≠ .absent → r.viabilityPowerDelta.IsDocument := by
    intro hdelta
    rcases h.viabilityPowerDelta with habsent | ⟨x, hx, hfinite⟩
    · exact absurd habsent hdelta
    · rw [hx]
      exact .num hfinite
  refine .obj (by simp [Members.keys]) ?_
  simp only [List.forall_mem_cons]
  exact ⟨fun _ => isDocument_ofCount hnumber, fun _ => .str _, fun _ => .str _, fun _ => .str _,
    fun _ => .num h.energySpent, hdelta, List.forall_mem_nil _⟩

theorem Run.IsReported.isFinite_powerDelta {r : Run} (h : r.IsReported) : r.powerDelta.isFinite = true := by
  unfold Run.powerDelta
  split
  · cases hf : r.results.find? (fun x => x.gate == .viabilityPower) with
    | none => decide
    | some x =>
      rcases (h.results x (List.mem_of_find?_eq_some hf)).viabilityPowerDelta with habsent | ⟨y, hy, hfinite⟩
      · simp only [Option.bind_some, habsent]
        decide
      · simp only [Option.bind_some, hy]
        exact hfinite
  · decide

/-- **The decision on a run that reported finite numbers is a document**, whatever its texts. -/
theorem Run.IsReported.isDocument {r : Run} (h : r.IsReported) {spent : Float} (hspent : spent.isFinite = true)
    (hmode : mode.toValue.IsDocument) (id : String) (proposalId : Text) (time : Instant) :
    (Decision.ofRun id proposalId mode r spent time).toValue.IsDocument := by
  have hpassed : r.passedCount ≤ limit := by
    have hle : r.passedCount ≤ r.results.length := List.length_filter_le _ _
    exact Nat.le_trans (Nat.le_trans hle h.count) (by decide)
  have hresults : (Value.arr (r.results.map GateResult.toValue)).IsDocument :=
    .arr (List.forall_mem_map.2 fun x hx => (h.results x hx).isDocument)
  have hfailed : (Value.strings (r.failed.map Gate.name)).IsDocument :=
    .arr (List.forall_mem_map.2 fun t _ => .str t)
  have hnote : Value.ofOption .str r.note ≠ .absent → (Value.ofOption .str r.note).IsDocument := by
    intro hnote
    cases hn : r.note with
    | none => exact absurd (congrArg (Value.ofOption .str) hn) hnote
    | some t => exact .str t
  refine .obj (by simp [Members.keys]) ?_
  simp only [List.forall_mem_cons]
  exact ⟨fun _ => .str _, fun _ => .str _, fun _ => hmode, fun _ => hresults, fun _ => isDocument_ofCount hpassed,
    fun _ => hfailed, fun _ => .str _, fun _ => .num hspent, fun _ => .num h.isFinite_powerDelta, fun _ => .bool _,
    fun _ => .bool _, fun _ => .bool _, hnote, fun _ => .str _, List.forall_mem_nil _⟩

end PolicyGates
