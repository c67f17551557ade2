import PolicyGates.Proofs.Alone
/-!
# The verdict on a proposal

Whatever else is evaluated at the same time, the decision on a proposal that is not cancelled is the one that the
proposal, the settings, the phase and the mode ask for (`Decision.IsOn.isDecided`); and there is a decision wherever
the log takes every record and the clock has an instant for each.  Both are said of checks and of batches
(`decision_exact`).
-/
namespace PolicyGates

open Scheduler

theorem Decision.IsOn.isDecided {reg : Registry} {p : Proposal} {mode : Mode} {d : Decision} (h : d.IsOn reg p mode)
    (hs : reg.settings.IsChecked) (hp : p.IsChecked) (hprices : HasFinitePrices reg.settings p)
    (hcancel : d.cancelled = false) :
    Registry.IsDecided reg.settings (reg.phaseOf p) p mode d := by
  obtain ⟨r, b, id, time, hends, rfl⟩ := h
  exact Registry.isDecided_of_isSettled hs hp (hends.isSettled hs hp hprices hcancel) id b.spent time

namespace Registry

variable {reg : Registry} {r : Request} {p : Proposal}

/-- Wherever the request is checked, together with others or not, its decision is the one that the proposal asks for,
unless it is cancelled, which it is not where no cancellation fires; and there is a decision if the log takes
everything. -/
def DecidesInChecks (reg : Registry) (r : Request) (p : Proposal) : Prop :=
  ∀ (requests : List Request) (events : List Event) (i : Nat), requests[i]? = some r →
    ∃ c : Conclusion, (reg.checkAll requests events).2[i]? = some c.outcome
      ∧ (∀ d, c.decision? = .ok d → c = d.conclusion
        ∧ (d.cancelled = false ∨ IsQuiet reg (reg.jobsFor requests) (reg.jobsFor requests).length events →
          IsDecided reg.settings (reg.phaseOf p) p (r.mode.getD reg.settings.mode) d))
      ∧ (reg.log.IsSound → reg.log.Accepts → (∀ k < requests.length, (reg.clock.later k).now?.isSome) →
        ∃ d, c.decision? = .ok d)

/-- Wherever the document is coordinated in a batch, in this mode, the decision on it is the one that the proposal
asks for, unless it is cancelled, which it is not where no cancellation fires; and there are decisions if the log
takes everything. -/
def DecidesInBatches (reg : Registry) (document : Value) (mode : Option Mode) (p : Proposal) : Prop :=
  ∀ (documents : List Value) (proposals ordered : List Proposal) (timeoutMs : Value) (jobs : List Job)
    (events : List Event) (i : Nat),
    readBatch documents = .ok proposals → Batch.order proposals = .ok ordered →
    reg.jobsOf ordered mode timeoutMs = .ok jobs → documents[i]? = some document →
    (∀ ds, (reg.coordinate documents mode timeoutMs events).2 = .ok ds → ∃ d, ds[i]? = some d
      ∧ (d.cancelled = false ∨ IsQuiet reg jobs (Decimal.toCount reg.settings.concurrency) events →
        IsDecided reg.settings (reg.phaseOf p) p (mode.getD reg.settings.mode) d))
    ∧ (1 ≤ Decimal.toCount reg.settings.concurrency → reg.log.IsSound → reg.log.Accepts →
      (∀ k < proposals.length, (reg.clock.later k).now?.isSome) →
      ∃ ds, (reg.coordinate documents mode timeoutMs events).2 = .ok ds)

/-- **The decision on a proposal, exactly.**  Take a proposal that was made from a document, checked settings, prices
that are finite and a time limit that can be set.  Wherever the document is checked and wherever it is coordinated,
whatever is evaluated beside it: a decision on it that is not cancelled is the one that the proposal, the settings,
the phase and the mode ask for.  None is cancelled where no cancellation fires, and there is a decision wherever the
log takes every record and the clock has an instant for each. -/
theorem decision_exact {overrides : Value} (hsettings : Settings.create overrides = .ok reg.settings)
    (hp : Proposal.create r.document = .ok p) {limit : Option TimeLimit}
    (hlimit : TimeLimit.ofValue (r.timeoutMs.orElse (.ofOption .num reg.settings.timeoutMs)) = .ok limit)
    (hprices : HasFinitePrices reg.settings p) :
    reg.DecidesInChecks r p ∧ reg.DecidesInBatches r.document r.mode p := by
  have hs := Settings.isChecked_of_create hsettings
  have hchecked := Proposal.isChecked_of_create hp
  have hdecided : ∀ {d : Decision}, d.IsOn reg p (r.mode.getD reg.settings.mode) → d.cancelled = false →
      IsDecided reg.settings (reg.phaseOf p) p (r.mode.getD reg.settings.mode) d :=
    fun hon hcancel => hon.isDecided hs hchecked hprices hcancel
  constructor
  · intro requests events i hr
    obtain ⟨c, hc, hdecision, hexists⟩ := decision_of_checkAll requests events hr (prepare_eq_ok hp hlimit)
    refine ⟨c, hc, fun d hd => ?_, hexists⟩
    obtain ⟨hconclusion, hon, hspared⟩ := hdecision d hd
    exact ⟨hconclusion, fun hfree => hdecided hon (hfree.elim id hspared)⟩
  · intro documents proposals ordered timeoutMs jobs events i hread horder hjobs hi
    refine ⟨fun ds hds => ?_, fun hslots hsound htakes hnow => ?_⟩
    · obtain ⟨d, hd, hon, hspared⟩ := decision_of_coordinate hread horder hjobs hds hi hp
      exact ⟨d, hd, fun hfree => hdecided hon (hfree.elim id hspared)⟩
    · exact exists_decisions_of_coordinate hread horder hjobs hslots hsound htakes hnow events

/-- Of two proposals that are checked at once, the one with a piece of evidence is approved and the one without any is
rejected. -/
theorem bare_isDecided :
    let reg := Registry.start (.ofValue (Settings.merged (.obj []))) none (.startingAt Clock.defaultStart)
    let document (evidence : List Value) : Value :=
      .obj (Members.put Proposal.bareMembers "evidenceItems" (.arr evidence))
    let p (evidence : List Value) : Proposal := .ofValue (document evidence)
    let backed : List Value := [.obj [("tier", .num 1.0)]]
    let requests : List Request := [⟨document backed, none, .absent⟩, ⟨document [], some .advise, .absent⟩]
    ∃ d d' : Decision, (reg.checkAll requests []).2[0]? = some d.conclusion.outcome ∧ d.overall = .approve
      ∧ IsDecided reg.settings (reg.phaseOf (p backed)) (p backed) .enforce d
      ∧ (reg.checkAll requests []).2[1]? = some d'.conclusion.outcome ∧ d'.overall = .reject
      ∧ IsDecided reg.settings (reg.phaseOf (p [])) (p []) .advise d' := by
  intro reg document p backed requests
  have hsettings : Settings.create (.obj []) = .ok reg.settings := rfl
  have hproposal : ∀ evidence ∈ [backed, []], Proposal.create (document evidence) = .ok (p evidence) := by
    intro evidence hevidence
    have hunknown : Schema.Fields.unknown Proposal.fields (document evidence).members = [] := by
      unfold Schema.Fields.unknown
      rw [Schema.listing_eq_keys (by
        rw [show (document evidence).members.keys = (document []).members.keys from rfl]
        decide)]
      rfl
    have hfields : (Schema.Fields.issues Proposal.fields (document evidence).members).isEmpty = true := by
      rcases List.mem_cons.1 hevidence with rfl | hevidence
      · decide +kernel
      · obtain rfl := List.mem_singleton.1 hevidence
        decide +kernel
    exact Proposal.create_eq_ok.2 ⟨Schema.closedObject_eq_nil.2 ⟨_, rfl, List.isEmpty_iff.1 hfields, hunknown⟩, rfl⟩
  have hlimit : TimeLimit.ofValue (Value.absent.orElse (.ofOption .num reg.settings.timeoutMs)) = .ok none := rfl
  have hprices : HasFinitePrices reg.settings (p backed) ∧ HasFinitePrices reg.settings (p []) := by
    constructor <;> intro g <;> cases g <;> decide +kernel
  have hlog : reg.log.IsSound := Audit.Log.isSound_unstored
  have haccepts : reg.log.Accepts := Audit.Log.accepts_unstored
  have hclock : ∀ k < requests.length, (reg.clock.later k).now?.isSome := by
    show ∀ k < 2, _
    decide +kernel
  obtain ⟨c, hc, hdecision, hexists⟩ :=
    (decision_exact (r := ⟨document backed, none, .absent⟩) hsettings (hproposal backed (by simp))
    hlimit hprices.1).1 requests [] 0 rfl
  obtain ⟨d, hd⟩ := hexists hlog haccepts hclock
  obtain ⟨rfl, hdecided⟩ := hdecision d hd
  obtain ⟨c', hc', hdecision', hexists'⟩ := (decision_exact (r := ⟨document [], some .advise, .absent⟩) hsettings
    (hproposal [] (by simp)) hlimit hprices.2).1 requests [] 1 rfl
  obtain ⟨d', hd'⟩ := hexists' hlog haccepts hclock
  obtain ⟨rfl, hdecided'⟩ := hdecision' d' hd'
  have hdecided := hdecided (.inr (isQuiet_nil _ _ _))
  have hdecided' := hdecided' (.inr (isQuiet_nil _ _ _))
  refine ⟨d, d', hc, ?_, hdecided, hc', ?_, hdecided'⟩
  · have happroved : ((reg.checkAll requests []).2[0]?.bind (·.toOption)).any (·.overall = .approve)
      = true := by decide +kernel
    rw [hc] at happroved
    obtain ⟨told, htold, happrove⟩ := (Option.any_eq_true _ _).1 happroved
    unfold Decision.conclusion at htold
    split at htold
    · cases htold
    · cases htold
      exact of_decide_eq_true happrove
  · -- without evidence the fourth gate is not passed, and the impact is no reason to ask people
    refine hdecided'.reject.2 ⟨fun h => (h.1 .evidenceSufficiency).1 rfl, fun h => absurd h.1 ?_⟩
    decide +kernel

end Registry

end PolicyGates
