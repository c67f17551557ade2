import PolicyGates.Proofs.AtRest
import PolicyGates.Proofs.Scheduler.Attempts
/-!
# Batches whose records are refused

A store may refuse any of the records of a batch.  The evaluation whose record is refused fails, and so does without
being evaluated whatever depends on it, directly or not; everything else is evaluated as if nothing had happened
(`attempted_iff`).  What such a batch leaves behind is said in full: the evaluations that were carried out, the
records that were taken, what was counted, the slots and the answer (`coordinate_despite_refusals`).
-/
namespace PolicyGates

/-! ## Logs -/

namespace Audit.Log

variable {l : Log}

theorem IsSound.after_appendAll (h : l.IsSound) (es : List (Value × Value)) : (l.appendAll es).1.IsSound := by
  induction es generalizing l with
  | nil => exact h
  | cons e rest ih => exact ih (h.after_append e.1 e.2)

theorem IsSound.eq_refusal (h : l.IsSound) {es : List (Value × Value)} {f : Failure}
    (hf : .error f ∈ (l.appendAll es).2) :
    f = refusal := by
  induction es generalizing l with
  | nil => cases hf
  | cons e rest ih =>
    rcases List.mem_cons.1 hf with hf | hf
    · obtain ⟨r, hr, -⟩ := h.exists_nextRecord e.1 e.2
      rcases (append_eq_error (Prod.ext rfl hf.symm)).1 with hrefusal | hnext
      · exact hrefusal
      · rw [hr] at hnext
        cases hnext
    · exact ih (h.after_append e.1 e.2) hf

theorem forall₂_appendAll (l : Log) (es : List (Value × Value)) :
    List.Forall₂ (fun e answer => ∀ r, answer = .ok r → r.proposalHash = e.1 ∧ r.decision = e.2) es
      (l.appendAll es).2 := by
  induction es generalizing l with
  | nil => exact .nil
  | cons e rest ih => exact .cons (append_gains rfl).2 (ih _)

end Audit.Log

/-! ## Graphs -/

/-- **What holds step by step along a graph without cycles**: if a vertex is reached exactly when all that follow it
are, with no obstacle there, it is reached exactly when there is no obstacle at all behind it. -/
theorem reached_iff {α : Type} {next : α → α → Prop} {reached obstacle inside : α → Prop} (height : α → Nat)
    (hheight : ∀ {x y}, next x y → height y < height x) (hinside : ∀ {x y}, next x y → inside y)
    (hstep : ∀ {x}, inside x → (reached x ↔ ∀ y, next x y → reached y ∧ ¬obstacle y)) {x : α} (hx : inside x) :
    reached x ↔ ∀ y, Relation.TransGen next x y → ¬obstacle y := by
  -- the induction is on the height: whatever follows a vertex is lower
  induction hn : height x using Nat.strong_induction_on generalizing x with
  | h n ih =>
    subst hn
    have hbelow : ∀ {y}, next x y → (reached y ↔ ∀ z, Relation.TransGen next y z → ¬obstacle z) :=
      fun hxy => ih _ (hheight hxy) (hinside hxy) rfl
    rw [hstep hx]
    constructor
    · intro hall y hxy
      rcases Relation.TransGen.head'_iff.1 hxy with ⟨z, hxz, hzy⟩
      rcases Relation.reflTransGen_iff_eq_or_transGen.1 hzy with rfl | hzy
      · exact (hall _ hxz).2
      · exact (hbelow hxz).1 (hall z hxz).1 y hzy
    · intro hfree y hxy
      exact ⟨(hbelow hxy).2 fun z hyz => hfree z (.head hxy hyz), hfree y (.single hxy)⟩

namespace Registry

open Scheduler

/-! ## Evaluations of a batch -/

/-- An evaluation of the proposal was carried out. -/
def Attempted (attempts : List Attempt) (id : Text) : Prop := ∃ a ∈ attempts, a.proposal.proposalId = id

/-- An evaluation of the proposal was carried out, and the log took its record. -/
def Recorded (attempts : List Attempt) (id : Text) : Prop :=
  ∃ a ∈ attempts, a.proposal.proposalId = id ∧ a.isAccepted = true

/-- An evaluation of the proposal was carried out, and its record was refused. -/
def Unrecorded (attempts : List Attempt) (id : Text) : Prop :=
  ∃ a ∈ attempts, a.proposal.proposalId = id ∧ a.isAccepted = false

section Traced

variable {reg later : Registry} {proposals ordered : List Proposal} {mode : Option Mode} {limit : Option TimeLimit}
  {conclusions : List (Nat × Conclusion)} {attempts : List (Nat × Attempt)}
  (h : IsTraced reg (ordered.map (reg.jobIn ordered mode limit)) later conclusions attempts)
include h

theorem exists_place_of_attempt {x : Nat × Attempt} (hids : (ordered.map Proposal.proposalId).Nodup)
    (hx : x ∈ attempts) :
    x.2.proposal ∈ ordered ∧ x.1 = numberOf ordered x.2.proposal := by
  obtain ⟨j, hj, hproposal, -⟩ := h.own x hx
  rw [List.getElem?_map, Option.map_eq_some_iff] at hj
  obtain ⟨p, hp, rfl⟩ := hj
  rw [show x.2.proposal = p from hproposal]
  exact (numberOf_of_getElem? hids hp).imp_right Eq.symm

theorem exists_attempt_iff (hids : (ordered.map Proposal.proposalId).Nodup) {p : Proposal} (hp : p ∈ ordered)
    {P : Attempt → Prop} :
    (∃ a ∈ attempts.map Prod.snd, a.proposal.proposalId = p.proposalId ∧ P a)
      ↔ ∃ x ∈ attempts, x.1 = numberOf ordered p ∧ P x.2 := by
  simp only [List.mem_map, exists_exists_and_eq_and]
  refine exists_congr fun x => and_congr_right fun hx => and_congr_left' ?_
  obtain ⟨hmem, hplace⟩ := exists_place_of_attempt h hids hx
  rw [hplace]
  exact ⟨fun hid => by rw [numberOf, hid]; rfl, fun hnumber => congrArg _ (numberOf_injective hids hmem hp hnumber)⟩

theorem attempted_iff_mem (hids : (ordered.map Proposal.proposalId).Nodup) {p : Proposal} (hp : p ∈ ordered) :
    Attempted (attempts.map Prod.snd) p.proposalId ↔ numberOf ordered p ∈ attempts.map Prod.fst := by
  have hiff := exists_attempt_iff h hids hp (P := fun _ => True)
  simp only [and_true] at hiff
  exact hiff.trans List.mem_map.symm

/-- **A proposal is evaluated exactly if all that it depends on is**, and none of that was refused. -/
theorem attempted_step (hids : (proposals.map Proposal.proposalId).Nodup) (hperm : ordered.Perm proposals)
    (hnodup : (conclusions.map Prod.fst).Nodup) (hsettled : ∀ n < ordered.length, Settled conclusions n) {id : Text}
    (hid : Batch.Holds proposals id) : Attempted (attempts.map Prod.snd) id
      ↔ ∀ id', Batch.Depends proposals id id' →
        Attempted (attempts.map Prod.snd) id' ∧ ¬Unrecorded (attempts.map Prod.snd) id' := by
  have hids' : (ordered.map Proposal.proposalId).Nodup := (hperm.map _).nodup_iff.2 hids
  obtain ⟨p, hp, rfl⟩ := hid
  have hpm : p ∈ ordered := hperm.mem_iff.2 hp
  rw [attempted_iff_mem h hids' hpm, h.evaluated_iff hnodup (job_numberOf hids' hpm) (hsettled _ (numberOf_lt hpm))]
  constructor
  · rintro hall _ ⟨⟨p', hp', hsame, hdepends⟩, q, hq, rfl⟩
    obtain rfl := Batch.eq_of_proposalId hids hp' hp hsame
    have hqm : q ∈ ordered := hperm.mem_iff.2 hq
    obtain ⟨hattempted, hrefused⟩ := hall _ (numberOf_mem_awaits hqm hdepends)
    exact ⟨(attempted_iff_mem h hids' hqm).2 hattempted, fun hc => hrefused ((exists_attempt_iff h hids' hqm).1 hc)⟩
  · intro hall a ha
    obtain ⟨q, hqm, hdepends, rfl⟩ := exists_of_mem_awaits ha
    have hdepends : Batch.Depends proposals p.proposalId q.proposalId :=
      ⟨⟨p, hp, rfl, hdepends⟩, q, hperm.mem_iff.1 hqm, rfl⟩
    obtain ⟨hattempted, hrefused⟩ := hall _ hdepends
    exact ⟨(attempted_iff_mem h hids' hqm).1 hattempted, fun hc => hrefused ((exists_attempt_iff h hids' hqm).2 hc)⟩

/-- **A proposal is evaluated exactly if nothing behind it was refused.** -/
theorem attempted_iff (hids : (proposals.map Proposal.proposalId).Nodup) (hperm : ordered.Perm proposals)
    (horder : Batch.InOrder proposals ordered) (hnodup : (conclusions.map Prod.fst).Nodup)
    (hsettled : ∀ n < ordered.length, Settled conclusions n) {id : Text} (hid : Batch.Holds proposals id) :
    Attempted (attempts.map Prod.snd) id
      ↔ ∀ id', Relation.TransGen (Batch.Depends proposals) id id' → ¬Unrecorded (attempts.map Prod.snd) id' :=
  reached_iff (fun id => (ordered.map Proposal.proposalId).idxOf id) (horder.idxOf_lt hperm hids) (fun hd => hd.2)
    (attempted_step h hids hperm hnodup hsettled) hid

end Traced

/-! ## What is left behind -/

theorem Carries.write {reg later : Registry} {attempts : List Attempt} (h : reg.Carries attempts later) (level : Level)
    (text : Text) : reg.Carries attempts (later.write level text) := by
  obtain ⟨hsettings, hlog, hledger, hmetrics, hclock, hissued⟩ := h
  exact ⟨hsettings, hlog, hledger, hmetrics, hclock, hissued⟩

theorem Carries.record {reg later : Registry} {attempts : List Attempt} (h : reg.Carries attempts later) {a : Attempt}
    (ha : a ∈ attempts) {r : Audit.Record} (hr : a.answer = .ok r) :
    r.proposalHash = .str (Audit.hashOf a.proposal.toValue) ∧ r.decision = a.decision.toValue := by
  have hall := Audit.Log.forall₂_appendAll reg.log (attempts.map Attempt.entry)
  rw [h.log, List.forall₂_map_left_iff, List.forall₂_map_right_iff, List.forall₂_same] at hall
  exact hall a ha r hr

/-- The records that the log has gained. -/
def gains (attempts : List Attempt) : List Audit.Record := (attempts.map Attempt.answer).filterMap Except.toOption

theorem countP_gains {reg later : Registry} {mode : Mode} {attempts : List Attempt} (h : reg.Carries attempts later)
    (hown : ∀ a ∈ attempts, a.IsOwn reg mode) (id : Text) : (gains attempts).countP (·.tells "proposalId" (.str id))
      = ((attempts.filter Attempt.isAccepted).map fun a => a.proposal.proposalId).count id := by
  rw [gains, List.filterMap_map, List.countP_filterMap, List.count, List.countP_map, List.countP_filter]
  refine List.countP_congr fun a ha => ?_
  cases hanswer : a.answer with
  | error f => simp [hanswer, Except.toOption, Attempt.isAccepted, Except.isOk, Except.toBool]
  | ok r =>
    obtain ⟨run, b, given, time, -, hdecision⟩ := hown a ha
    have htells : r.tells "proposalId" (.str id) = (Value.str a.proposal.proposalId).same (.str id) := by
      rw [Audit.Record.tells, (h.record ha hanswer).2, hdecision]
      rfl
    simp [hanswer, Except.toOption, Attempt.isAccepted, Except.isOk, Except.toBool, htells, Value.same]

/-- What a batch leaves behind in which these evaluations were carried out, one after the other, and what it is
answered. -/
structure LeavesBehind (reg : Registry) (proposals : List Proposal) (mode : Mode) (attempts : List Attempt)
    (later : Registry) (answer : Except Failure (List Decision)) : Prop where
  /-- What was counted, the ids, the clock and the ledger are as these evaluations leave them. -/
  carries : reg.Carries attempts later
  own : ∀ a ∈ attempts, a.proposal ∈ proposals ∧ a.IsOwn reg mode
  nodup : (attempts.map fun a => a.proposal.proposalId).Nodup
  attempted : ∀ p ∈ proposals, Attempted attempts p.proposalId
    ↔ ∀ id, Relation.TransGen (Batch.Depends proposals) p.proposalId id → ¬Unrecorded attempts id
  refusal : ∀ a ∈ attempts, a.isAccepted = false → a.answer = .error Audit.Log.refusal
  history : later.log.history = reg.log.history ++ gains attempts
  recorded : ∀ p ∈ proposals, Recorded attempts p.proposalId →
    (gains attempts).countP (·.tells "proposalId" (.str p.proposalId)) = 1
  unrecorded : ∀ p ∈ proposals, ¬Recorded attempts p.proposalId →
    (gains attempts).countP (·.tells "proposalId" (.str p.proposalId)) = 0
  record : ∀ a ∈ attempts, ∀ r, a.answer = .ok r →
    r.proposalHash = .str (Audit.hashOf a.proposal.toValue) ∧ r.decision = a.decision.toValue
  isSound : later.log.IsSound
  verifies : ∃ n, Audit.IsIntact later.log.history n
  rejects : (∃ f, answer = .error f) ↔ ∃ a ∈ attempts, a.isAccepted = false
  decisions : ∀ ds, answer = .ok ds →
    List.Forall₂ (fun p d => ∃ a ∈ attempts, a.proposal = p ∧ a.decision = d) proposals ds

theorem mem_recorded_iff {attempts : List Attempt} {id : Text} :
    id ∈ (attempts.filter Attempt.isAccepted).map (fun a => a.proposal.proposalId) ↔ Recorded attempts id := by
  rw [List.mem_map]
  refine exists_congr fun a => ?_
  rw [List.mem_filter, and_assoc]
  exact and_congr_right fun _ => And.comm

section Ended

variable {reg : Registry} {proposals ordered : List Proposal} {mode : Option Mode} {limit : Option TimeLimit}
  {s : Scheduler} {attempts : List (Nat × Attempt)}
  (h : IsTraced reg (ordered.map (reg.jobIn ordered mode limit)) s.registry s.conclusions attempts)
  (hnodup : (s.conclusions.map Prod.fst).Nodup)
include h hnodup

theorem firstFailure_eq_none_iff (hearlier : AwaitEarlier (ordered.map (reg.jobIn ordered mode limit))) :
    firstFailure s = none ↔ ∀ x ∈ attempts, x.2.isAccepted = true := by
  constructor
  · intro hnone x hx
    by_contra hrefused
    obtain ⟨f, hf⟩ := h.failed_of_refused ⟨x, hx, rfl, Bool.eq_false_iff.2 hrefused⟩
    have hentry := List.findSome?_eq_none_iff.1 hnone _ hf
    cases hentry
  · intro hall
    refine List.findSome?_eq_none_iff.2 fun entry hentry => ?_
    obtain ⟨n, c⟩ := entry
    cases c with
    | failed f =>
      obtain ⟨m, x, hx, -, hrefused⟩ := h.exists_refused hnodup hearlier ⟨f, hentry⟩
      rw [hall x hx] at hrefused
      cases hrefused
    | delivered d => rfl
    | refused d => rfl

theorem exists_decisionOn (hearlier : AwaitEarlier (ordered.map (reg.jobIn ordered mode limit)))
    (hids : (ordered.map Proposal.proposalId).Nodup) (hsettled : ∀ n < ordered.length, Settled s.conclusions n)
    (hall : ∀ x ∈ attempts, x.2.isAccepted = true) {p : Proposal} (hp : p ∈ ordered) :
    ∃ d, decisionOn s ordered p = .ok d ∧ ∃ a ∈ attempts.map Prod.snd, a.proposal = p ∧ a.decision = d := by
  have hattempted : numberOf ordered p ∈ attempts.map Prod.fst := by
    by_contra hnot
    obtain ⟨c, hc⟩ := hsettled _ (numberOf_lt hp)
    obtain ⟨⟨f, rfl⟩, -⟩ := h.failed _ c hc hnot
    obtain ⟨m, x, hx, -, hrefused⟩ := h.exists_refused hnodup hearlier ⟨f, hc⟩
    rw [hall x hx] at hrefused
    cases hrefused
  obtain ⟨x, hx, hnumber⟩ := List.mem_map.1 hattempted
  obtain ⟨hmem, hplace⟩ := exists_place_of_attempt h hids hx
  obtain ⟨j, -, -, -, hconcluded, -⟩ := h.own x hx
  obtain ⟨r, hr⟩ : ∃ r, x.2.answer = .ok r := by
    cases hanswer : x.2.answer with
    | ok r => exact ⟨r, rfl⟩
    | error f =>
      have htaken := hall x hx
      rw [Attempt.isAccepted_eq_false_iff.2 ⟨f, hanswer⟩] at htaken
      cases htaken
  refine ⟨x.2.decision, ?_, x.2, List.mem_map_of_mem hx,
    numberOf_injective hids hmem hp (hplace.symm.trans hnumber), rfl⟩
  rw [hnumber] at hconcluded
  unfold decisionOn
  rw [idxOf?_of_mem (List.mem_map_of_mem hp), Option.bind_some, show List.idxOf _ _ = numberOf ordered p from rfl,
    (conclusion?_eq_some_iff hnodup).2 hconcluded]
  exact x.2.decision?_eq.trans (by rw [hr]; rfl)

/-- **What the evaluations of a batch in order leave behind**, whatever it is answered. -/
theorem leavesBehind (hids : (proposals.map Proposal.proposalId).Nodup) (hperm : ordered.Perm proposals)
    (hinOrder : Batch.InOrder proposals ordered) (hsettled : ∀ n < ordered.length, Settled s.conclusions n)
      (hlog : reg.log.IsSound)
    {answer : Except Failure (List Decision)} (hrejects : (∃ f, answer = .error f)
      ↔ ∃ x ∈ attempts, x.2.isAccepted = false)
    (hdecisions : ∀ ds, answer = .ok ds →
      List.Forall₂ (fun p d => ∃ a ∈ attempts.map Prod.snd, a.proposal = p ∧ a.decision = d) proposals ds) :
    reg.LeavesBehind proposals (mode.getD reg.settings.mode) (attempts.map Prod.snd) s.registry answer := by
  have hids' : (ordered.map Proposal.proposalId).Nodup := (hperm.map _).nodup_iff.2 hids
  have hown : ∀ a ∈ attempts.map Prod.snd, a.proposal ∈ proposals ∧ a.IsOwn reg (mode.getD reg.settings.mode) := by
    refine List.forall_mem_map.2 fun x hx => ⟨hperm.mem_iff.1 (exists_place_of_attempt h hids' hx).1, ?_⟩
    obtain ⟨j, hj, -, hown, -⟩ := h.own x hx
    rw [List.getElem?_map, Option.map_eq_some_iff] at hj
    obtain ⟨p, -, rfl⟩ := hj
    exact hown
  have hdistinct : ((attempts.map Prod.snd).map fun a => a.proposal.proposalId).Nodup := by
    -- the jobs of the evaluations have different numbers, and these come from the ids
    refine List.Nodup.of_map (ordered.map Proposal.proposalId).idxOf ?_
    rw [List.map_map, List.map_map]
    refine (List.map_congr_left fun x hx => ?_) ▸ h.nodup
    exact (exists_place_of_attempt h hids' hx).2
  have hlater := h.carries.log
  have htaken : ((attempts.map Prod.snd).filter Attempt.isAccepted).map (fun a => a.proposal.proposalId)
      |>.Nodup := hdistinct.sublist (List.filter_sublist.map _)
  have hcount := countP_gains h.carries fun a ha => (hown a ha).2
  have hsound : s.registry.log.IsSound := by
    have hall := hlog.after_appendAll ((attempts.map Prod.snd).map Attempt.entry)
    rwa [hlater] at hall
  refine {
    carries := h.carries
    own := hown
    nodup := hdistinct
    attempted := fun p hp => attempted_iff h hids hperm hinOrder hnodup hsettled ⟨p, hp, rfl⟩
    refusal := fun a ha hrefused => ?_
    history := ?_
    recorded := fun p _ hrecorded => ?_
    unrecorded := fun p _ hrecorded => ?_
    record := fun a ha r hr => h.carries.record ha hr
    isSound := hsound
    verifies := ⟨_, Audit.isIntact_of_isChain hsound.chain⟩
    rejects := ?_
    decisions := hdecisions }
  · obtain ⟨f, hf⟩ := Attempt.isAccepted_eq_false_iff.1 hrefused
    have hanswers : (.error f : Except Failure Audit.Record)
      ∈ (reg.log.appendAll ((attempts.map Prod.snd).map Attempt.entry)).2 := by
      rw [hlater, ← hf]
      exact List.mem_map_of_mem ha
    rw [hf, hlog.eq_refusal hanswers]
  · have hhistory := Audit.Log.history_appendAll reg.log ((attempts.map Prod.snd).map Attempt.entry)
    rwa [hlater] at hhistory
  · rw [hcount]
    exact List.count_eq_one_of_mem htaken (mem_recorded_iff.2 hrecorded)
  · rw [hcount]
    exact List.count_eq_zero_of_not_mem fun hc => hrecorded (mem_recorded_iff.1 hc)
  · rw [hrejects]
    simp only [List.mem_map, exists_exists_and_eq_and]

end Ended

theorem LeavesBehind.write {reg later : Registry} {proposals : List Proposal} {mode : Mode} {attempts : List Attempt}
    {answer : Except Failure (List Decision)} (h : reg.LeavesBehind proposals mode attempts later answer)
    (level : Level) (text : Text) :
    reg.LeavesBehind proposals mode attempts (later.write level text) answer :=
  { h with carries := h.carries.write level text }

/-- **What a batch comes to that can be put in order, whatever the store refuses.**  With at least one slot, a log in
order and a clock that has an instant for each, whatever is aborted and whatever times out between any two checks, and
as the store answers before the next check: exactly those proposals are evaluated behind which nothing was refused,
each once; those whose record was taken have that one record and all others none; exactly the taken ones are counted;
the log is still in order and a verification finds it valid; the batch fails exactly if something was refused; and all
slots are free in the end. -/
theorem coordinate_despite_refusals {reg : Registry} {documents : List Value} {proposals ordered : List Proposal}
    {mode : Option Mode} {timeoutMs : Value} {jobs : List Job} (hread : readBatch documents = .ok proposals)
    (horder : Batch.order proposals = .ok ordered)
    (hjobs : reg.jobsOf ordered mode timeoutMs = .ok jobs) (hslots : 1 ≤ Decimal.toCount reg.settings.concurrency)
    (hlog : reg.log.IsSound) (hclock : ∀ k < proposals.length, (reg.clock.later k).now?.isSome) (events : List Event) :
    (∃ attempts, reg.LeavesBehind proposals (mode.getD reg.settings.mode) attempts
      (reg.coordinate documents mode timeoutMs events).1
      (reg.coordinate documents mode timeoutMs events).2)
    ∧ (Scheduler.run reg jobs (Decimal.toCount reg.settings.concurrency) events).pool
      = .idle (Decimal.toCount reg.settings.concurrency) := by
  obtain ⟨hids, -, hinOrder⟩ := Batch.of_order_eq_ok horder
  obtain ⟨limit, rfl, hids', hperm, hearlier⟩ := exists_jobs horder hjobs
  have hidle := idle_run hearlier reg (Decimal.toCount reg.settings.concurrency) events
  have horderly := isOrderly_run hearlier reg (Decimal.toCount reg.settings.concurrency) events
  have hsettled : ∀ n < ordered.length, Settled (Scheduler.run reg (ordered.map (reg.jobIn ordered mode limit))
      (Decimal.toCount reg.settings.concurrency) events).conclusions n :=
    fun n hn => settled_run hearlier reg hslots events (by rwa [List.length_map])
  obtain ⟨attempts, h⟩ := (comesTo_run hearlier reg (Decimal.toCount reg.settings.concurrency) events).exists_attempts
    fun k hk => hclock k (by rwa [List.length_map, hperm.length_eq] at hk)
  unfold coordinate
  simp only [hread, horder, hjobs]
  generalize Scheduler.run reg (ordered.map (reg.jobIn ordered mode limit))
    (Decimal.toCount reg.settings.concurrency) events = s at *
  have hnodup := horderly.tidy.nodup_conclusions
  have hnone := firstFailure_eq_none_iff h hnodup hearlier
  refine ⟨⟨attempts.map Prod.snd, ?_⟩, horderly.tidy.pool.eq_idle (by rw [hidle]; rfl) hslots⟩
  cases hfirst : firstFailure s with
  | some f =>
    refine leavesBehind h hnodup hids hperm hinOrder hsettled hlog ⟨fun _ => ?_, fun _ => ⟨f, rfl⟩⟩
      fun ds hds => by cases hds
    by_contra hall
    rw [hnone.2 fun x hx => Bool.eq_true_of_not_eq_false fun hc => hall ⟨x, hx, hc⟩] at hfirst
    cases hfirst
  | none =>
    have hall := hnone.1 hfirst
    obtain ⟨ds, hds, hdecisions⟩ := exists_mapM_eq_ok fun p hp =>
      exists_decisionOn h hnodup hearlier hids' hsettled hall (hperm.mem_iff.2 hp)
    simp only [hds]
    refine (leavesBehind h hnodup hids hperm hinOrder hsettled hlog ⟨?_, ?_⟩ ?_).write _ _
    · rintro ⟨f, hf⟩
      cases hf
    · rintro ⟨x, hx, hrefused⟩
      rw [hall x hx] at hrefused
      cases hrefused
    · rintro _ hds'
      cases hds'
      exact hdecisions

/-- The store refuses the record of the first proposal, and the second depends on it. -/
theorem refused_pair_leavesBehind :
    let reg := Registry.start (.ofValue (Settings.merged (.obj []))) (some ⟨[], [true], 0⟩)
      (.startingAt Clock.defaultStart)
    let documents : List Value := [.obj (namedMembers "p2" ["p1"]), .obj (namedMembers "p1" [])]
    let proposals : List Proposal :=
      [.ofValue (.obj (namedMembers "p2" ["p1"])), .ofValue (.obj (namedMembers "p1" []))]
    ∃ jobs, reg.jobsOf proposals.reverse none .absent = .ok jobs
      ∧ (∃ attempts, reg.LeavesBehind proposals reg.settings.mode attempts (reg.coordinate documents none .absent []).1
          (reg.coordinate documents none .absent []).2)
      ∧ (Scheduler.run reg jobs (Decimal.toCount reg.settings.concurrency) []).pool
        = .idle (Decimal.toCount reg.settings.concurrency) := by
  intro reg documents proposals
  have hread : readBatch documents = .ok proposals := by
    rw [readBatch, create_namedMembers rfl, readBatch, create_namedMembers rfl]
    rfl
  have horder : Batch.order proposals = .ok proposals.reverse := rfl
  have hlimit : TimeLimit.ofValue (Value.absent.orElse (.ofOption .num reg.settings.timeoutMs)) = .ok none := rfl
  have hslots : 1 ≤ Decimal.toCount reg.settings.concurrency := by decide +kernel
  have hlog : reg.log.IsSound := Audit.Log.isSound_opened fun s hs => by
    cases hs
    exact Audit.chainFrom_nil _ _
  have hclock : ∀ k < proposals.length, (reg.clock.later k).now?.isSome := by
    show ∀ k < 2, _
    decide +kernel
  have hjobs : reg.jobsOf proposals.reverse none .absent = .ok _ := jobsOf_eq _ none hlimit
  exact ⟨_, hjobs, coordinate_despite_refusals hread horder hjobs hslots hlog hclock []⟩

end Registry

end PolicyGates
