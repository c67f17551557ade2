import PolicyGates.Proofs.Coordination
import PolicyGates.Proofs.Evaluation
import PolicyGates.Proofs.Scheduler.Conclusions
import PolicyGates.Proofs.Session
/-!
# Registries at rest

A registry is at rest when it has come about in a session and no evaluation is in progress (`IsAtRest`).  Then nobody
has a record to go on with, so its metrics are a count of all that the log has gained.  A schedule does nothing that
could not happen in a session: it concludes evaluations one after the other, and each of them is a run of the session
in which nobody else does anything (`exists_run_conclude`).  So checks and batches are something that a session can go
on to (`IsIdle.goesOnTo_checkAll`, `IsIdle.goesOnTo_coordinate`), leave a registry at rest behind, and may come in any
order.
-/
namespace PolicyGates

namespace Registry

open Session

/-- The registry has come about in a session in which no evaluation is in progress. -/
def IsAtRest (before : List Audit.Record) (reg : Registry) : Prop :=
  ∃ s : Session, s.IsReachable before ∧ s.IsIdle ∧ s.registry = reg

/-- Somebody may ask for the job. -/
def AskedFor (reg : Registry) (j : Job) : Prop :=
  ∃ request j', reg.prepare request = .ok j' ∧ j'.proposal = j.proposal ∧ j'.mode = j.mode

variable {before : List Audit.Record} {reg : Registry}

theorem prepare_congr {later : Registry} (h : later.settings = reg.settings) (r : Request) :
    later.prepare r = reg.prepare r := by
  unfold prepare job
  rw [h]

/-- **An evaluation that is concluded is a run of a session in which nobody else does anything**: somebody asks for
it, it makes its checks, is cancelled or not, and goes on with its answer. -/
theorem exists_run_conclude {s : Session} (hidle : s.IsIdle) {request : Request} {j : Job}
    (hj : s.registry.prepare request = .ok j) {r : Run} {b : Budget}
    (hends : Progress.EndsIn (s.registry.circumstances j.proposal j.mode) j.proposal.toValue j.opening r b) :
    ∃ occurrences, s.run occurrences
      = { s with
          registry := (s.registry.conclude j.proposal j.mode r b.spent).1,
          conclusions := s.conclusions ++ [(s.registry.conclude j.proposal j.mode r b.spent).2] } := by
  obtain ⟨reg, underWay, filed, answered, conclusions⟩ := s
  obtain ⟨hunderWay, hfiled, hanswered⟩ := hidle
  dsimp only at hj hends hunderWay hfiled hanswered ⊢
  subst hunderWay hfiled hanswered
  -- the evaluation is alone and makes its checks one by one
  have hreach : ∀ q, Progress.Reaches (reg.circumstances j.proposal j.mode) j.proposal.toValue j.opening q →
      ∃ occurrences, Session.run ⟨reg, [], [], [], conclusions⟩ occurrences
        = ⟨reg, [⟨j.proposal, j.mode, q, none⟩], [], [], conclusions⟩ := by
    intro q hq
    induction hq with
    | start =>
      refine ⟨[.asked request], ?_⟩
      simp only [Session.run, List.foldl_cons, List.foldl_nil, Session.step, hj]
      rfl
    | check _ hc ih =>
      obtain ⟨occurrences, hrun⟩ := ih
      refine ⟨occurrences ++ [.checked 0], ?_⟩
      rw [run_concat, hrun]
      simp only [Session.step, List.getElem?_cons_zero, hc, List.set_cons_zero]
  obtain ⟨q, cancellation, hq, hend⟩ := hends
  obtain ⟨occurrences, hrun⟩ := hreach q hq
  have hcancelled : ∃ occurrences, Session.run ⟨reg, [], [], [], conclusions⟩ occurrences
      = ⟨reg, [⟨j.proposal, j.mode, q, cancellation⟩], [], [], conclusions⟩ := by
    cases cancellation with
    | none => exact ⟨occurrences, hrun⟩
    | some reason =>
      refine ⟨occurrences ++ [.cancelled 0 reason], ?_⟩
      rw [run_concat, hrun]
      rfl
  obtain ⟨occurrences, hrun⟩ := hcancelled
  refine ⟨occurrences ++ [.checked 0, .answered, .resumed], ?_⟩
  rw [run_append, hrun]
  exact run_conclude reg ⟨j.proposal, j.mode, q, cancellation⟩ conclusions hend

/-- **What a schedule comes to, a session can come to** in which no evaluation is in progress; the decisions are the
same. -/
theorem exists_run_of_comesTo {s : Session} (hidle : s.IsIdle) {jobs : List Job}
    (hasked : ∀ j ∈ jobs, s.registry.AskedFor j) {later : Registry} {conclusions : List (Nat × Conclusion)}
    (h : Scheduler.ComesTo s.registry jobs later conclusions) :
    ∃ occurrences more, s.run occurrences = { s with registry := later, conclusions := s.conclusions ++ more }
      ∧ ∀ n c d, (n, c) ∈ conclusions → c.decision? = .ok d → c ∈ more := by
  induction h with
  | opened => exact ⟨[], [], by rw [List.append_nil]; rfl, by simp⟩
  | elapsed _ now ih =>
    obtain ⟨occurrences, more, hrun, hmore⟩ := ih
    refine ⟨occurrences ++ [.elapsed now], more, ?_, hmore⟩
    rw [run_concat, hrun]
    rfl
  | failed _ hj hopen ha hfailed ih =>
    obtain ⟨occurrences, more, hrun, hmore⟩ := ih
    refine ⟨occurrences, more, hrun, fun n c d hc hd => ?_⟩
    rcases List.mem_append.1 hc with hc | hc
    · exact hmore n c d hc hd
    · cases List.mem_singleton.1 hc
      cases hd
  | @concluded later conclusions n j r b hcomes hj hopen hpassed hends ih =>
    obtain ⟨occurrences, more, hrun, hmore⟩ := ih
    have hlater := hcomes.isLater
    obtain ⟨request, j', hprepare, hproposal, hmode⟩ := hasked _ (List.mem_of_getElem? hj)
    rw [← prepare_congr hlater.settings] at hprepare
    rw [← hlater.circumstances, Job.opening, ← hproposal, ← hmode] at hends
    obtain ⟨occurrences', hrun'⟩ := exists_run_conclude
      (s := { s with registry := later, conclusions := s.conclusions ++ more })
        ⟨hidle.underWay, hidle.filed, hidle.answered⟩
      hprepare hends
    refine ⟨occurrences ++ occurrences', more ++ [(later.conclude j.proposal j.mode r b.spent).2], ?_,
      fun m c d hc hd => ?_⟩
    · rw [run_append, hrun, hrun', hproposal, hmode, List.append_assoc]
    · rcases List.mem_append.1 hc with hc | hc
      · exact List.mem_append_left _ (hmore m c d hc hd)
      · cases List.mem_singleton.1 hc
        exact List.mem_append_right _ List.mem_cons_self

theorem exists_document_of_readBatch {documents : List Value} {proposals : List Proposal}
    (h : readBatch documents = .ok proposals) :
    ∀ p ∈ proposals, ∃ document, Proposal.create document = .ok p := by
  intro p hp
  obtain ⟨i, hi⟩ := List.mem_iff_getElem?.1 hp
  obtain ⟨document, -, hcreate⟩ := exists_getElem?_of_forall₂ (readBatch_eq_ok_iff.1 h).flip hi
  exact ⟨document, hcreate⟩

theorem eq_ok_of_toOption {ε α : Type} {x : Except ε α} {a : α} (h : x.toOption = some a) : x = .ok a := by
  cases x with
  | error e => cases h
  | ok b => exact congrArg Except.ok (Option.some.inj h)

theorem exists_conclusion_of_outcomes {s : Scheduler} (hnodup : (s.conclusions.map Prod.fst).Nodup) {d : Decision}
    {n : Nat} {prepared : List (Except Failure Job)} (h : .ok d ∈ outcomes s n prepared) :
    ∃ k c, (k, c) ∈ s.conclusions ∧ c.decision? = .ok d := by
  induction prepared generalizing n with
  | nil => cases h
  | cons x rest ih =>
    cases x with
    | error f =>
      rcases List.mem_cons.1 h with h | h
      · cases h
      · exact ih h
    | ok j =>
      rcases List.mem_cons.1 h with h | h
      · unfold outcomeOf at h
        cases hc : s.conclusion? n with
        | none =>
          rw [hc] at h
          cases h
        | some c =>
          rw [hc] at h
          refine ⟨n, c, (Scheduler.conclusion?_eq_some_iff hnodup).1 hc, ?_⟩
          cases c with
          | delivered d' => exact h.symm
          | refused d' => cases h
          | failed f => cases h
      · exact ih h

end Registry

namespace Session

open Registry

/-- Somebody has been told the decision, if only with a refusal. -/
def Tells (s : Session) (d : Decision) : Prop := ∃ c ∈ s.conclusions, c.decision? = .ok d

/-- The session can go on until no evaluation is in progress any more and its registry is the given one, and by then
the decisions have been told. -/
def GoesOnTo (s : Session) (later : Registry) (told : List Decision) : Prop :=
  ∃ occurrences, (s.run occurrences).IsIdle ∧ (s.run occurrences).registry = later
    ∧ ∀ d ∈ told, (s.run occurrences).Tells d

variable {s : Session}

theorem goesOnTo_run (occurrences : List Occurrence) (h : (s.run occurrences).IsIdle) :
    s.GoesOnTo (s.run occurrences).registry [] :=
  ⟨occurrences, h, rfl, List.forall_mem_nil _⟩

theorem GoesOnTo.untold {later : Registry} {told : List Decision} (h : s.GoesOnTo later told) :
    s.GoesOnTo later [] := by
  obtain ⟨occurrences, hidle, rfl, -⟩ := h
  exact goesOnTo_run occurrences hidle

theorem GoesOnTo.write {later : Registry} {told : List Decision} (h : s.GoesOnTo later told) (level : Level)
    (text : Text) :
    s.GoesOnTo (later.write level text) told := by
  obtain ⟨occurrences, hidle, hregistry, htold⟩ := h
  refine ⟨occurrences ++ [.wrote level text], ?_, ?_, ?_⟩
  all_goals rw [run_concat]
  · exact ⟨hidle.underWay, hidle.filed, hidle.answered⟩
  · exact congrArg (fun reg : Registry => reg.write level text) hregistry
  · exact htold

namespace IsIdle

variable (hidle : s.IsIdle)
include hidle

/-- **A schedule does nothing that could not happen in a session**, and tells the decisions of its conclusions. -/
theorem goesOnTo_schedule {jobs : List Job} (hearlier : Scheduler.AwaitEarlier jobs)
    (hasked : ∀ j ∈ jobs, s.registry.AskedFor j) (slots : Nat) (events : List Event) (told : List Decision)
    (htold : ∀ d ∈ told, ∃ n c, (n, c) ∈ (Scheduler.run s.registry jobs slots events).conclusions
      ∧ c.decision? = .ok d) :
    s.GoesOnTo (Scheduler.run s.registry jobs slots events).registry told := by
  obtain ⟨occurrences, more, hrun, hmore⟩ :=
    exists_run_of_comesTo hidle hasked (Scheduler.comesTo_run hearlier s.registry slots events)
  refine ⟨occurrences, ?_, ?_, fun d hd => ?_⟩
  all_goals rw [hrun]
  · exact ⟨hidle.underWay, hidle.filed, hidle.answered⟩
  · obtain ⟨n, c, hc, hcd⟩ := htold d hd
    exact ⟨c, List.mem_append_right _ (hmore n c d hc hcd), hcd⟩

theorem goesOnTo_passBy (events : List Event) : s.GoesOnTo (s.registry.passBy events) [] :=
  hidle.goesOnTo_schedule (fun n j hj => by cases hj) (List.forall_mem_nil _) 0 events [] (List.forall_mem_nil _)

/-- **Checks that are started together could be made in a session.** -/
theorem goesOnTo_checkAll (requests : List Request) (events : List Event) :
    s.GoesOnTo (s.registry.checkAll requests events).1
      ((s.registry.checkAll requests events).2.filterMap Except.toOption) := by
  have hfree : Scheduler.AreFree (s.registry.jobsFor requests) := areFree_prepared requests
  have hearlier : Scheduler.AwaitEarlier (s.registry.jobsFor requests) := by
    intro n j hj a ha
    rw [hfree j (List.mem_of_getElem? hj)] at ha
    cases ha
  refine hidle.goesOnTo_schedule hearlier (fun j hj => ?_) _ events _ fun d hd => ?_
  · obtain ⟨x, hx, hxj⟩ := List.mem_filterMap.1 hj
    obtain ⟨r, -, rfl⟩ := List.mem_map.1 hx
    exact ⟨r, j, eq_ok_of_toOption hxj, rfl, rfl⟩
  · obtain ⟨x, hx, hxd⟩ := List.mem_filterMap.1 hd
    obtain rfl := eq_ok_of_toOption hxd
    exact exists_conclusion_of_outcomes (Scheduler.isOrderly_run hearlier s.registry _ events).tidy.nodup_conclusions hx

theorem goesOnTo_check (r : Request) (events : List Event) :
    s.GoesOnTo (s.registry.check r events).1 (s.registry.check r events).2.toOption.toList := by
  have hall := hidle.goesOnTo_checkAll [r] events
  rw [checkAll_singleton, List.filterMap_cons] at hall
  cases houtcome : (s.registry.check r events).2 <;> rwa [houtcome] at hall

/-- **A batch could be made in a session.** -/
theorem goesOnTo_coordinate (documents : List Value) (mode : Option Mode) (timeoutMs : Value) (events : List Event) :
    s.GoesOnTo (s.registry.coordinate documents mode timeoutMs events).1
      ((s.registry.coordinate documents mode timeoutMs events).2.toOption.getD []) := by
  unfold Registry.coordinate
  split
  · exact hidle.goesOnTo_passBy events
  · next proposals hread =>
    split
    · exact hidle.goesOnTo_passBy events
    · next ordered horder =>
      split
      · exact hidle.goesOnTo_passBy events
      · next jobs hjobs =>
        obtain ⟨limit, rfl, hlimit⟩ := jobsOf_eq_ok hjobs
        obtain ⟨hids, hperm, hinOrder⟩ := Batch.of_order_eq_ok horder
        have hasked : ∀ j ∈ ordered.map (s.registry.jobIn ordered mode limit), s.registry.AskedFor j := by
          intro j hj
          obtain ⟨p, hp, rfl⟩ := List.mem_map.1 hj
          obtain ⟨document, hdocument⟩ := exists_document_of_readBatch hread p (hperm.subset hp)
          have hlimit := hlimit.resolve_left (List.ne_nil_of_mem hp)
          exact ⟨⟨document, mode, timeoutMs⟩, _, prepare_eq_ok hdocument hlimit, rfl, rfl⟩
        have hearlier : Scheduler.AwaitEarlier (ordered.map (s.registry.jobIn ordered mode limit)) :=
          awaitEarlier_jobs hids hperm hinOrder
        have hgoesOn := hidle.goesOnTo_schedule hearlier hasked (Decimal.toCount s.registry.settings.concurrency) events
        dsimp only
        split
        · exact hgoesOn [] (List.forall_mem_nil _)
        · split
          · next ds hds =>
            refine GoesOnTo.write (hgoesOn ds fun d hd => ?_) .log _
            obtain ⟨i, hi⟩ := List.mem_iff_getElem?.1 hd
            obtain ⟨p, hp, hdecision⟩ := exists_getElem?_of_forall₂ (forall₂_of_mapM_eq_ok hds).flip hi
            have hnodup := (Scheduler.isOrderly_run hearlier s.registry
              (Decimal.toCount s.registry.settings.concurrency) events).tidy.nodup_conclusions
            have hmem := hperm.mem_iff.2 (List.mem_of_getElem? hp)
            exact ⟨_, exists_conclusion_of_decisionOn hnodup hmem hdecision⟩
          · exact hgoesOn [] (List.forall_mem_nil _)

end IsIdle

end Session

namespace Registry

open Session

variable {before : List Audit.Record} {reg : Registry}

namespace IsAtRest

theorem of_goesOnTo {s : Session} (hs : s.IsReachable before) {told : List Decision} (h : s.GoesOnTo reg told) :
    reg.IsAtRest before := by
  obtain ⟨occurrences, hidle, hregistry, -⟩ := h
  exact ⟨s.run occurrences, hs.run occurrences, hidle, hregistry⟩

theorem checkAll (h : reg.IsAtRest before) (requests : List Request) (events : List Event) :
    (reg.checkAll requests events).1.IsAtRest before := by
  obtain ⟨s, hs, hidle, rfl⟩ := h
  exact .of_goesOnTo hs (hidle.goesOnTo_checkAll requests events)

theorem check (h : reg.IsAtRest before) (r : Request) (events : List Event) :
    (reg.check r events).1.IsAtRest before := by
  obtain ⟨s, hs, hidle, rfl⟩ := h
  exact .of_goesOnTo hs (hidle.goesOnTo_check r events)

theorem coordinate (h : reg.IsAtRest before) (documents : List Value) (mode : Option Mode) (timeoutMs : Value)
    (events : List Event) : (reg.coordinate documents mode timeoutMs events).1.IsAtRest before := by
  obtain ⟨s, hs, hidle, rfl⟩ := h
  exact .of_goesOnTo hs (hidle.goesOnTo_coordinate documents mode timeoutMs events)

end IsAtRest

/-- **Whenever no evaluation is in progress, the metrics are the count of the records.**  In a session in which one
registry is all that appends to its log, callers may ask for any number of evaluations at any time, with any documents
and in any modes, and evaluations may be cancelled and records refused in any order: once all evaluations have ended,
each number in the metrics can be read off the records that the log has gained since it was opened.  Single checks,
several at once and batches leave a registry in such a state behind. -/
theorem metrics_exact (h : reg.IsAtRest before) :
    (∃ gained, reg.log.history = before ++ gained ∧ reg.metrics.Counts gained)
    ∧ (∀ r events, (reg.check r events).1.IsAtRest before)
    ∧ (∀ requests events, (reg.checkAll requests events).1.IsAtRest before)
    ∧ ∀ documents mode timeoutMs events, (reg.coordinate documents mode timeoutMs events).1.IsAtRest before := by
  refine ⟨?_, h.check, h.checkAll, h.coordinate⟩
  obtain ⟨s, hs, hidle, rfl⟩ := h
  obtain ⟨counted, hhistory, hcounts⟩ := hs.isAccounted.counted
  rw [awaited, hidle.answered, List.filterMap_nil, List.append_nil] at hhistory
  exact ⟨counted, hhistory, hcounts⟩

/-- Two evaluations are under way at once.  The second one is cancelled and its record stored; that of the first one
is refused. -/
theorem refused_isCounted :
    let reg := Registry.start (.ofValue (Settings.merged (.obj []))) (some ⟨[], [false, true], 0⟩)
      (.startingAt Clock.defaultStart)
    let s := (opened reg).run
      [.asked ⟨.obj (namedMembers "p1" []), none, .absent⟩,
       .asked ⟨.obj (namedMembers "p2" []), some .observe, .absent⟩, .checked 0, .checked 1, .cancelled 1 "enough",
       .checked 1, .checked 0, .answered, .checked 0, .checked 0, .checked 0, .checked 0, .resumed, .answered, .resumed]
    s.registry.IsAtRest [] ∧ s.registry.metrics.cancelled = 1
      ∧ ∃ gained, s.registry.log.history = [] ++ gained ∧ gained.length = 1 ∧ s.registry.metrics.Counts gained := by
  intro reg s
  have hlimit : TimeLimit.ofValue (Value.absent.orElse (.ofOption .num reg.settings.timeoutMs)) = .ok none := rfl
  have hfirst : reg.prepare ⟨.obj (namedMembers "p1" []), none, .absent⟩ = .ok _ :=
    prepare_eq_ok (create_namedMembers rfl) hlimit
  have hsecond : reg.prepare ⟨.obj (namedMembers "p2" []), some .observe, .absent⟩ = .ok _ :=
    prepare_eq_ok (create_namedMembers rfl) hlimit
  have hs : s = run ⟨reg, [⟨.ofValue (.obj (namedMembers "p1" [])), reg.settings.mode, .fresh (.fresh 100.0), none⟩,
        ⟨.ofValue (.obj (namedMembers "p2" [])), .observe, .fresh (.fresh 100.0), none⟩], [], [], []⟩
      [.checked 0, .checked 1, .cancelled 1 "enough", .checked 1, .checked 0, .answered, .checked 0,
       .checked 0, .checked 0, .checked 0, .resumed, .answered, .resumed] := by
    show (opened reg).run (_ :: _ :: _) = _
    rw [Session.run, List.foldl_cons, List.foldl_cons]
    simp only [Session.step, opened, hfirst, hsecond]
    rfl
  have hopened : IsReachable [] (opened reg) := .opened rfl rfl rfl
  have hreachable : s.IsReachable [] := hopened.run _
  have hended : s.underWay.isEmpty ∧ s.filed.isEmpty ∧ s.answered.isEmpty ∧ s.registry.log.history.length = 1
      ∧ s.registry.metrics.cancelled = 1 := by
    rw [hs]
    decide +kernel
  obtain ⟨hunderWay, hfiled, hanswered, hlength, hcancelled⟩ := hended
  have hrest : s.registry.IsAtRest [] :=
    ⟨s, hreachable, ⟨List.isEmpty_iff.1 hunderWay, List.isEmpty_iff.1 hfiled, List.isEmpty_iff.1 hanswered⟩, rfl⟩
  obtain ⟨⟨gained, hhistory, hcounts⟩, -⟩ := metrics_exact hrest
  refine ⟨hrest, hcancelled, gained, hhistory, ?_, hcounts⟩
  rwa [hhistory, List.nil_append] at hlength

end Registry

end PolicyGates
