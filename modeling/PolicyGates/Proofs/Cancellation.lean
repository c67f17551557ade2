import PolicyGates.Proofs.Alone
import PolicyGates.Proofs.Scheduler.Moments
/-!
# What decisions tell of cancellations

Where the log takes every record, each check and each member of a batch has a decision, and that decision tells
exactly of the first cancellation that came before its evaluation had ended (`decisions_tell_cancellation`).
-/
namespace PolicyGates.Registry

open Scheduler

variable {reg : Registry} {proposals ordered : List Proposal} {s : Scheduler}

/-- The record is that of the decision on the proposal. -/
def IsAuditOf (record : Audit.Record) (p : Proposal) (d : Decision) : Prop :=
  record.decision = d.toValue ∧ record.proposalHash = .str (Audit.hashOf p.toValue)

/-- Every check of a proposal has a decision, which is audited and tells of its cancellation. -/
def TellsInChecks (reg : Registry) : Prop :=
  ∀ (r : Request) (j : Job) (events : List Event), reg.prepare r = .ok j → reg.clock.now?.isSome →
    ∃ d record, (reg.check r events).2 = d.conclusion.outcome
      ∧ (reg.check r events).1.log.history = reg.log.history ++ [record] ∧ IsAuditOf record j.proposal d
      ∧ TellsCancellation reg [j] 1 events 0 j d

/-- Every proposal of a batch has a decision, which is audited and tells of its cancellation. -/
def TellsInBatches (reg : Registry) : Prop :=
  ∀ (documents : List Value) (proposals ordered : List Proposal) (mode : Option Mode) (timeoutMs : Value)
    (jobs : List Job) (events : List Event),
    readBatch documents = .ok proposals → Batch.order proposals = .ok ordered →
    reg.jobsOf ordered mode timeoutMs = .ok jobs → 1 ≤ Decimal.toCount reg.settings.concurrency →
    (∀ k < proposals.length, (reg.clock.later k).now?.isSome) →
    ∃ ds gained, (reg.coordinate documents mode timeoutMs events).2 = .ok ds
      ∧ (reg.coordinate documents mode timeoutMs events).1.log.history = reg.log.history ++ gained
      ∧ gained.length = proposals.length
      ∧ ∀ (i : Nat) (p : Proposal), proposals[i]? = some p → ∃ d j, ds[i]? = some d ∧ jobs[numberOf ordered p]? = some j
        ∧ j.proposal = p ∧ (∃ record ∈ gained, IsAuditOf record p d)
        ∧ TellsCancellation reg jobs (Decimal.toCount reg.settings.concurrency) events (numberOf ordered p) j d

theorem tellsInChecks (hlog : reg.log.IsSound) (haccepts : reg.log.Accepts) : reg.TellsInChecks := by
  intro r j events hj hclock
  have hearlier : AwaitEarlier [j] := by
    intro n j' hj' a ha
    obtain rfl := List.mem_singleton.1 (List.mem_of_getElem? hj')
    rw [awaits_of_prepare hj] at ha
    cases ha
  have horderly := isOrderly_run hearlier reg 1 events
  have hsound := isSound_run reg [j] 1 events
  have htells : ∀ {c}, (0, c) ∈ (Scheduler.run reg [j] 1 events).conclusions → ∀ {d}, c.decision? = .ok d →
      TellsCancellation reg [j] 1 events 0 j d := tellsCancellation_run hearlier reg 1 events rfl
  obtain ⟨c, hc⟩ := settled_run hearlier reg (Nat.le_refl 1) events Nat.zero_lt_one
  have hrecorded := isRecorded_run hearlier hlog haccepts (fun k hk => by rwa [Nat.lt_one_iff.1 hk]) 1 events
  unfold check
  simp only [hj]
  generalize Scheduler.run reg [j] 1 events = s at *
  have hone : s.conclusions = [(0, c)] := by
    have hlength := horderly.tidy.length_places_le
    obtain ⟨before, after, hsplit⟩ := List.append_of_mem hc
    rw [hsplit, List.length_append, List.length_cons, List.length_singleton] at hlength
    rw [hsplit, List.eq_nil_of_length_eq_zero (l := before) (by omega),
      List.eq_nil_of_length_eq_zero (l := after) (by omega)]
    rfl
  obtain ⟨gained, hhistory, hgained⟩ := hrecorded.gained
  rw [hone] at hgained
  obtain ⟨record, rest, hrecord, hrest, rfl⟩ := List.forall₂_cons_left_iff.1 hgained
  obtain rfl := List.forall₂_nil_left_iff.1 hrest
  obtain ⟨j', d, hj', hd, -, hhash, hdecision⟩ := hrecord
  obtain rfl : j = j' := Option.some.inj hj'
  obtain ⟨j', hj', hended⟩ := hsound.conclusions _ hc
  obtain rfl : j = j' := Option.some.inj hj'
  obtain ⟨-, hconclusion⟩ := (hended.resolve_right fun ha => ha.1 (awaits_of_prepare hj)).isOn hd
  refine ⟨d, record, ?_, hhistory, ⟨hdecision, hhash⟩, htells hc hd⟩
  unfold outcomeOf
  rw [(conclusion?_eq_some_iff horderly.tidy.nodup_conclusions).2 hc]
  exact congrArg Conclusion.outcome hconclusion

theorem tellsInBatches (hlog : reg.log.IsSound) (haccepts : reg.log.Accepts) : reg.TellsInBatches := by
  intro documents proposals ordered mode timeoutMs jobs events hread horder hjobs hslots hclock
  obtain ⟨limit, rfl, hids', hperm, hearlier⟩ := exists_jobs horder hjobs
  have horderly := isOrderly_run hearlier reg (Decimal.toCount reg.settings.concurrency) events
  obtain ⟨ds, gained, hcoordinate, hhistory, hlength, hds, hrecords⟩ :=
    exists_coordinate_eq hread horder hjobs hslots hlog haccepts hclock events rfl
  rw [hcoordinate]
  refine ⟨ds, gained, rfl, hhistory, hlength, fun i p hi => ?_⟩
  have hp : p ∈ ordered := hperm.mem_iff.2 (List.mem_of_getElem? hi)
  obtain ⟨d, hd, hdecision⟩ := exists_getElem?_of_forall₂ (forall₂_of_mapM_eq_ok hds) hi
  obtain ⟨c, hc, hcd⟩ := exists_conclusion_of_decisionOn horderly.tidy.nodup_conclusions hp hdecision
  obtain ⟨hlt, rfl⟩ := List.getElem?_eq_some_iff.1 hi
  obtain ⟨d', record, hd', hrecord, haudit⟩ := hrecords ⟨i, hlt⟩
  obtain rfl := Option.some.inj (hd.symm.trans hd')
  have hjob : (ordered.map (reg.jobIn ordered mode limit))[numberOf ordered proposals[i]]?
      = some (reg.jobIn ordered mode limit proposals[i]) := job_numberOf hids' hp
  refine ⟨d, _, hd, hjob, rfl, ⟨record, List.mem_of_getElem? hrecord, haudit⟩, ?_⟩
  exact tellsCancellation_run hearlier reg _ events hjob hc hcd

/-- **Decisions tell of their cancellations.**  With a log in order and a store that takes everything, for every check
and every batch, with any number of slots, on a platform with delays of any kind, and whatever is aborted and however
time goes by between any two checks: there is a decision on each proposal, which is audited, and it is cancelled
exactly if everything was aborted or the evaluation's own timer was due before the evaluation had ended.  Then it has
the results of the gates checked by the first such moment, names the next gate and the reason of that moment, and is
escalated; whoever had ended before is as it was, and whoever had not started when all was aborted has no results. -/
theorem decisions_tell_cancellation (hlog : reg.log.IsSound) (haccepts : reg.log.Accepts) :
    reg.TellsInChecks ∧ reg.TellsInBatches :=
  ⟨tellsInChecks hlog haccepts, tellsInBatches hlog haccepts⟩

/-- A limit that does not fit into 31 bits is up at once, so the first of two proposals is cancelled before its second
gate.  In the same turn all is aborted, when the other one has just started. -/
theorem aborted_pair_tells :
    let clock := Clock.startingAt Clock.defaultStart
    let reg : Registry :=
      { Registry.start (.ofValue (Settings.merged (.obj []))) (some .empty) clock with delay := Delay.bounded }
    let documents : List Value := [.obj (namedMembers "p2" ["p1"]), .obj (namedMembers "p1" [])]
    let proposals : List Proposal :=
      [.ofValue (.obj (namedMembers "p2" ["p1"])), .ofValue (.obj (namedMembers "p1" []))]
    let slots := Decimal.toCount reg.settings.concurrency
    let events : List Event := [⟨1, .advance 5.0⟩, ⟨⟨1, 1⟩, .abort (.error "enough")⟩]
    let notes : List (Option Text) := [some "cancelled before THERMODYNAMIC_SOLVENCY: enough",
      some "cancelled before COGNITIVE_VARIETY: timed out after 3000000000ms"]
    ∃ jobs ds gained, reg.jobsOf proposals.reverse none (.num 3000000000.0) = .ok jobs
      ∧ (reg.coordinate documents none (.num 3000000000.0) events).2 = .ok ds
      ∧ (reg.coordinate documents none (.num 3000000000.0) events).1.log.history = reg.log.history ++ gained
      ∧ gained.length = 2
      ∧ ds.map Decision.note = notes
      ∧ ∀ (i : Nat) (p : Proposal), proposals[i]? = some p → ∃ d j, ds[i]? = some d
        ∧ jobs[numberOf proposals.reverse p]? = some j ∧ j.proposal = p ∧ (∃ record ∈ gained, IsAuditOf record p d)
        ∧ TellsCancellation reg jobs slots events (numberOf proposals.reverse p) j d := by
  intro clock reg documents proposals slots events notes
  have hread : readBatch documents = .ok proposals := by
    rw [readBatch, create_namedMembers rfl, readBatch, create_namedMembers rfl]
    rfl
  have horder : Batch.order proposals = .ok proposals.reverse := rfl
  have hlimit : TimeLimit.ofValue ((Value.num 3000000000.0).orElse (.ofOption .num reg.settings.timeoutMs))
      = .ok (some ⟨3000000000.0, Decimal.text 3000000000.0⟩) := rfl
  have hjobs : reg.jobsOf proposals.reverse none (.num 3000000000.0) = .ok _ := jobsOf_eq _ none hlimit
  have hslots : 1 ≤ Decimal.toCount reg.settings.concurrency := by decide +kernel
  have hclock : ∀ k < proposals.length, (reg.clock.later k).now?.isSome := by
    show ∀ k < 2, _
    decide +kernel
  have hlog : reg.log.IsSound := Audit.Log.isSound_empty
  have haccepts : reg.log.Accepts := Audit.Log.accepts_empty
  have hnotes : (reg.coordinate documents none (.num 3000000000.0) events).2.toOption.map (·.map Decision.note)
      = some notes := by decide +kernel
  obtain ⟨ds, gained, hds, hhistory, hlength, htells⟩ :=
    (decisions_tell_cancellation hlog haccepts).2 documents proposals
    proposals.reverse none (.num 3000000000.0) _ events hread horder hjobs hslots hclock
  rw [hds] at hnotes
  exact ⟨_, ds, gained, hjobs, hds, hhistory, hlength, Option.some.inj hnotes, htells⟩

end PolicyGates.Registry
