import PolicyGates.Proofs.AtRest
import PolicyGates.Proofs.Scheduler.Quiet
/-!
# Decisions taken alone

Evaluations that share a registry share nothing else: a run that is not cancelled is the run of the gates on the
proposal's own budget, whatever goes on beside it (`Progress.EndsIn.eq_of`).  So the decision on a proposal is, but
for its id and its time, the one that a lone check on a fresh registry comes to, wherever the proposal is checked or
coordinated (`decides_as_alone`).
-/
namespace PolicyGates

/-! ## Runs -/

namespace Progress

variable {c : Circumstances} {document : Value} {q start : Progress} {r : Run} {b : Budget}

theorem Reaches.finish_eq (h : Reaches c document start q) :
    ∃ n, finish c document (fun _ => none) start.ahead.length 0 start
      = finish c document (fun _ => none) q.ahead.length n q := by
  induction h with
  | start => exact ⟨0, rfl⟩
  | check _ hc ih =>
    obtain ⟨n, hn⟩ := ih
    -- every check has one gate less ahead of it, so what is left of the steps is what is left of the gates
    refine ⟨n + 1, hn.trans ?_⟩
    rw [(ahead_of_running hc).2, finish, hc]

theorem finish_of_check (h : q.check c document none = .ended r b) (n : Nat) :
    finish c document (fun _ => none) q.ahead.length n q = (r, b) := by
  cases hahead : q.ahead with
  | nil =>
    unfold check at h
    rw [hahead] at h
    cases h
    rfl
  | cons g rest => rw [List.length_cons, finish, h]

/-- **A run that was not cancelled is the run that nobody cancels.** -/
theorem EndsIn.eq_of {b' : Budget} (h : EndsIn c document (.fresh b) r b') (hcancel : r.isCancelled = false) :
    Run.of c document b (fun _ => none) = (r, b') := by
  obtain ⟨q, cancellation, hreach, hend⟩ := h
  obtain ⟨n, hn⟩ := hreach.finish_eq
  exact hn.trans (finish_of_check (check_none_of_ended hend hcancel) n)

end Progress

/-! ## Decisions -/

namespace Decision

/-- The decisions are the same but for their ids and times. -/
def Agrees (d d' : Decision) : Prop := { d with decisionId := d'.decisionId, timestamp := d'.timestamp } = d'

variable {reg reg' : Registry} {p : Proposal} {mode : Mode} {d d' : Decision}

/-- **Decisions on the same proposal agree**, if the settings and the mode are the same and nobody cancels. -/
theorem IsOn.agrees (h : d.IsOn reg p mode) (h' : d'.IsOn reg' p mode) (hsettings : reg'.settings = reg.settings)
    (hd : d.cancelled = false) (hd' : d'.cancelled = false) : d.Agrees d' := by
  obtain ⟨r, b, id, time, hends, rfl⟩ := h
  obtain ⟨r', b', id', time', hends', rfl⟩ := h'
  have hsame : reg'.circumstances p mode = reg.circumstances p mode := by
    unfold Registry.circumstances Registry.phaseOf
    rw [hsettings]
  rw [hsame] at hends'
  have hruns := (hends.eq_of hd).symm.trans (hends'.eq_of hd')
  cases hruns
  rfl

end Decision

namespace Registry

open Scheduler

variable {reg : Registry} {r : Request} {j : Job} {events : List Event} {delay : Float → Float}

theorem awaitEarlier_jobsFor (requests : List Request) : AwaitEarlier (reg.jobsFor requests) := by
  intro n j hj a ha
  rw [areFree_prepared requests j (List.mem_of_getElem? hj)] at ha
  cases ha

/-- **What comes of a request that is checked together with others**: if there is a decision, it is one on a run of
the proposal's own, and there is one if the log takes everything and the clock has an instant for each. -/
theorem decision_of_checkAll (requests : List Request) (events : List Event) {i : Nat} (hr : requests[i]? = some r)
    (hj : reg.prepare r = .ok j) : ∃ c : Conclusion, (reg.checkAll requests events).2[i]? = some c.outcome
      ∧ (∀ d, c.decision? = .ok d → c = d.conclusion ∧ d.IsOn reg j.proposal j.mode
        ∧ (IsQuiet reg (reg.jobsFor requests) (reg.jobsFor requests).length events → d.cancelled = false))
      ∧ (reg.log.IsSound → reg.log.Accepts → (∀ k < requests.length, (reg.clock.later k).now?.isSome) →
        ∃ d, c.decision? = .ok d) := by
  obtain ⟨c, n, houtcome, hn, hmem⟩ := exists_conclusionFor requests events hr hj
  refine ⟨c, houtcome, fun d hd => ?_, fun hlog haccepts hclock => ?_⟩
  · obtain ⟨j', hj', hended⟩ := (isSound_run reg _ _ events).conclusions _ hmem
    obtain rfl : j = j' := Option.some.inj (hn.symm.trans hj')
    obtain ⟨hon, hc⟩ := (hended.resolve_right fun ha => ha.1 (awaits_of_prepare hj)).isOn hd
    exact ⟨hc, hon, fun hquiet => uncancelled_run (awaitEarlier_jobsFor requests) hquiet hmem hd⟩
  · have hclock : ∀ k < (reg.jobsFor requests).length, (reg.clock.later k).now?.isSome := fun k hk =>
      hclock k (Nat.lt_of_lt_of_le hk ((List.length_filterMap_le _ _).trans (List.length_map _).le))
    exact (isRecorded_run (awaitEarlier_jobsFor requests) hlog haccepts hclock _ events).exists_decision hmem

/-- **A lone check comes to a decision on an uncancelled run** if no cancellation fires and the log takes it. -/
theorem exists_alone (hj : reg.prepare r = .ok j) (hlog : reg.log.IsSound) (haccepts : reg.log.Accepts)
    (hclock : reg.clock.now?.isSome) (hquiet : IsQuiet reg [j] 1 events) :
    ∃ d : Decision, (reg.check r events).2 = d.conclusion.outcome ∧ d.IsOn reg j.proposal j.mode
      ∧ d.cancelled = false := by
  have hjobs : reg.jobsFor [r] = [j] := by
    rw [jobsFor, List.map_singleton, hj]
    rfl
  obtain ⟨c, houtcome, hdecision, hexists⟩ := decision_of_checkAll [r] events List.getElem?_cons_zero hj
  obtain ⟨d, hd⟩ := hexists hlog haccepts fun k hk => by
    obtain rfl : k = 0 := Nat.lt_one_iff.1 hk
    exact hclock
  obtain ⟨rfl, hon, huncancelled⟩ := hdecision d hd
  rw [checkAll_singleton, List.getElem?_cons_zero] at houtcome
  exact ⟨d, Option.some.inj houtcome, hon, huncancelled (by rwa [hjobs])⟩

section Batch

variable {documents : List Value} {proposals ordered : List Proposal} {mode : Option Mode} {timeoutMs : Value}
  {jobs : List Job} (hread : readBatch documents = .ok proposals) (horder : Batch.order proposals = .ok ordered)
  (hjobs : reg.jobsOf ordered mode timeoutMs = .ok jobs)
include hread horder hjobs

/-- **What a batch is answered**: the decisions on the proposals, each on a run of its own. -/
theorem decision_of_coordinate {ds : List Decision}
    (hds : (reg.coordinate documents mode timeoutMs events).2 = .ok ds) {i : Nat} {document : Value} {p : Proposal}
    (hi : documents[i]? = some document) (hp : Proposal.create document = .ok p) :
    ∃ d, ds[i]? = some d ∧ d.IsOn reg p (mode.getD reg.settings.mode)
      ∧ (IsQuiet reg jobs (Decimal.toCount reg.settings.concurrency) events → d.cancelled = false) := by
  obtain ⟨limit, rfl, hids', hperm, hearlier⟩ := exists_jobs horder hjobs
  obtain ⟨p', hproposal, hcreate⟩ := exists_getElem?_of_forall₂ (readBatch_eq_ok_iff.1 hread) hi
  obtain rfl : p = p' := Except.ok.inj (hp.symm.trans hcreate)
  have hmem : p ∈ ordered := hperm.mem_iff.2 (List.mem_of_getElem? hproposal)
  have horderly := isOrderly_run hearlier reg (Decimal.toCount reg.settings.concurrency) events
  have hsound := isSound_run reg (ordered.map (reg.jobIn ordered mode limit))
    (Decimal.toCount reg.settings.concurrency) events
  -- the answer comes from the conclusions, and the decision on a proposal from the one of its job
  obtain ⟨-, hdecisions, -⟩ := coordinate_eq_ok hread horder hjobs rfl hds
  obtain ⟨d, hd, hdecision⟩ := exists_getElem?_of_forall₂ (forall₂_of_mapM_eq_ok hdecisions) hproposal
  obtain ⟨c, hconcluded, hdecided⟩ := exists_conclusion_of_decisionOn horderly.tidy.nodup_conclusions hmem hdecision
  refine ⟨d, hd, ?_, fun hquiet => uncancelled_run hearlier hquiet hconcluded hdecided⟩
  obtain ⟨j, hj, hended⟩ := hsound.conclusions _ hconcluded
  obtain rfl := Option.some.inj ((job_numberOf hids' hmem).symm.trans hj)
  rcases hended with hended | ⟨-, f, rfl⟩
  · exact (hended.isOn hdecided).1
  · cases hdecided

section Taken

variable (hslots : 1 ≤ Decimal.toCount reg.settings.concurrency) (hlog : reg.log.IsSound) (haccepts : reg.log.Accepts)
  (hclock : ∀ k < proposals.length, (reg.clock.later k).now?.isSome) (events : List Event)
include hslots hlog haccepts hclock

/-- **A batch is answered with the decisions that its jobs were concluded with**, if nothing keeps a record from being
stored, and the log has gained the record of each. -/
theorem exists_coordinate_eq {s : Scheduler}
    (hs : Scheduler.run reg jobs (Decimal.toCount reg.settings.concurrency) events = s) :
    ∃ ds gained, reg.coordinate documents mode timeoutMs events = (s.registry.write .log (summary ds), .ok ds)
      ∧ s.registry.log.history = reg.log.history ++ gained ∧ gained.length = proposals.length
      ∧ proposals.mapM (decisionOn s ordered) = .ok ds
      ∧ ∀ i : Fin proposals.length, ∃ d r, ds[i.val]? = some d ∧ gained[placeOf s ordered proposals[i]]? = some r
        ∧ r.decision = d.toValue ∧ r.proposalHash = .str (Audit.hashOf proposals[i].toValue) := by
  obtain ⟨limit, rfl, hids', hperm, hearlier⟩ := exists_jobs horder hjobs
  have horderly := isOrderly_run hearlier reg (Decimal.toCount reg.settings.concurrency) events
  have hrecorded := isRecorded_run hearlier hlog haccepts
    (fun k hk => hclock k (by rwa [List.length_map, hperm.length_eq] at hk))
      (Decimal.toCount reg.settings.concurrency) events
  have hsettled : ∀ n < ordered.length, Settled (Scheduler.run reg (ordered.map (reg.jobIn ordered mode limit))
      (Decimal.toCount reg.settings.concurrency) events).conclusions n :=
    fun n hn => settled_run hearlier reg hslots events (by rwa [List.length_map])
  rw [hs] at horderly hrecorded hsettled
  obtain ⟨gained, hhistory, hgained⟩ := hrecorded.gained
  obtain ⟨ds, hds, -, hrecords⟩ := exists_decisions hids' horderly hgained hsettled hperm
  refine ⟨ds, gained, ?_, hhistory, ?_, hds, hrecords⟩
  · unfold coordinate
    simp only [hread, horder, hjobs, hs, firstFailure_eq_none fun entry hentry => hrecorded.exists_decision hentry, hds]
  · rw [← hgained.length_eq, length_conclusions horderly hsettled, hperm.length_eq]

theorem exists_decisions_of_coordinate : ∃ ds, (reg.coordinate documents mode timeoutMs events).2 = .ok ds := by
  obtain ⟨ds, gained, hcoordinate, -⟩ := exists_coordinate_eq hread horder hjobs hslots hlog haccepts hclock events rfl
  exact ⟨ds, by rw [hcoordinate]⟩

end Taken

end Batch

/-- Wherever the request is checked together with others, the decision on it that nobody cancels agrees with the given
one; and there is one if the log takes everything. -/
def AgreesInChecks (reg : Registry) (r : Request) (alone : Decision) : Prop :=
  ∀ (requests : List Request) (events : List Event) (i : Nat), requests[i]? = some r →
    ∃ c : Conclusion, (reg.checkAll requests events).2[i]? = some c.outcome
      ∧ (∀ d, c.decision? = .ok d →
        d.cancelled = false ∨ IsQuiet reg (reg.jobsFor requests) (reg.jobsFor requests).length events → d.Agrees alone)
      ∧ (reg.log.IsSound → reg.log.Accepts → (∀ k < requests.length, (reg.clock.later k).now?.isSome) →
        ∃ d, c.decision? = .ok d)

/-- Wherever the document of the request is coordinated in a batch, in its mode, the decision on it that nobody
cancels agrees with the given one; and there is one if the log takes everything. -/
def AgreesInBatches (reg : Registry) (r : Request) (alone : Decision) : Prop :=
  ∀ (documents : List Value) (proposals ordered : List Proposal) (timeoutMs : Value) (jobs : List Job)
    (events : List Event) (i : Nat),
    readBatch documents = .ok proposals → Batch.order proposals = .ok ordered →
    reg.jobsOf ordered r.mode timeoutMs = .ok jobs → documents[i]? = some r.document →
    (∀ ds, (reg.coordinate documents r.mode timeoutMs events).2 = .ok ds → ∃ d, ds[i]? = some d
      ∧ (d.cancelled = false ∨ IsQuiet reg jobs (Decimal.toCount reg.settings.concurrency) events → d.Agrees alone))
    ∧ (1 ≤ Decimal.toCount reg.settings.concurrency → reg.log.IsSound → reg.log.Accepts →
      (∀ k < proposals.length, (reg.clock.later k).now?.isSome) →
      ∃ ds, (reg.coordinate documents r.mode timeoutMs events).2 = .ok ds)

/-- **A decision is the one that is taken alone.**  Take a request, and a fresh registry with the same settings over a
store that takes everything, with delays of any kind, where a lone check of the request is not cancelled.  Then
wherever the request is checked together with others and wherever its document is coordinated in a batch, in any
place, with any number of slots and after anything that the registry has been through: a decision on it that is not
cancelled, as none is where no cancellation fires, is that of the lone check but for its id and its time. -/
theorem decides_as_alone (hj : reg.prepare r = .ok j) {store : Option Audit.Store} {clock : Clock}
    (hlog : (Audit.Log.opened store).IsSound) (haccepts : (Audit.Log.opened store).Accepts) (hclock : clock.now?.isSome)
    (hquiet : IsQuiet { Registry.start reg.settings store clock with delay } [j] 1 events) :
    ∃ alone : Decision, (Registry.check { Registry.start reg.settings store clock with delay } r events).2
      = alone.conclusion.outcome
      ∧ reg.AgreesInChecks r alone ∧ reg.AgreesInBatches r alone := by
  have hfresh : Registry.prepare { Registry.start reg.settings store clock with delay } r = .ok j := by
    rw [← hj]
    exact prepare_congr rfl r
  obtain ⟨alone, houtcome, halone, huncancelled⟩ := exists_alone hfresh hlog haccepts hclock hquiet
  obtain ⟨hcreate, hmode, -⟩ := of_prepare hj
  have hagrees : ∀ {d : Decision}, d.IsOn reg j.proposal j.mode → d.cancelled = false → d.Agrees alone :=
    fun hon hd => hon.agrees halone rfl hd huncancelled
  refine ⟨alone, houtcome, ?_, ?_⟩
  · intro requests events i hr
    obtain ⟨c, hc, hdecision, hexists⟩ := decision_of_checkAll requests events hr hj
    refine ⟨c, hc, fun d hd hfree => ?_, hexists⟩
    obtain ⟨-, hon, hspared⟩ := hdecision d hd
    exact hagrees hon (hfree.elim id hspared)
  · intro documents proposals ordered timeoutMs jobs events i hread horder hjobs hi
    refine ⟨fun ds hds => ?_, fun hslots hsound htakes hnow => ?_⟩
    · obtain ⟨d, hd, hon, hspared⟩ := decision_of_coordinate hread horder hjobs hds hi hcreate
      rw [← hmode] at hon
      exact ⟨d, hd, fun hfree => hagrees hon (hfree.elim id hspared)⟩
    · exact exists_decisions_of_coordinate hread horder hjobs hslots hsound htakes hnow events

/-- The registry has given out ids before, and its store will refuse the next record. -/
theorem used_decides_as_alone :
    let clock := Clock.startingAt Clock.defaultStart
    let reg : Registry :=
      { Registry.start (.ofValue (Settings.merged (.obj []))) (some ⟨[], [true], 0⟩) clock with issued := 7 }
    let r : Request := ⟨.obj (namedMembers "p1" ["p2"]), none, .absent⟩
    ∃ alone : Decision, ((Registry.start reg.settings none clock).check r []).2 = alone.conclusion.outcome
      ∧ reg.AgreesInChecks r alone ∧ reg.AgreesInBatches r alone := by
  intro clock reg r
  have hlimit : TimeLimit.ofValue (r.timeoutMs.orElse (.ofOption .num reg.settings.timeoutMs)) = .ok none := rfl
  have hj : reg.prepare r = .ok _ := prepare_eq_ok (create_namedMembers rfl) hlimit
  have hlog : (Audit.Log.opened none).IsSound := Audit.Log.isSound_unstored
  have haccepts : (Audit.Log.opened none).Accepts := Audit.Log.accepts_unstored
  have hclock : clock.now?.isSome := by decide +kernel
  exact decides_as_alone hj hlog haccepts hclock (isQuiet_nil _ _ _)

end Registry

end PolicyGates
