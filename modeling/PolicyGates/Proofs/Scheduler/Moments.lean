import PolicyGates.Proofs.Endings
import PolicyGates.Proofs.Scheduler.Moves
/-!
# Who is cancelled when

An evaluation that has not ended is cancelled when everything is aborted, and when time brings its own timer to its
end (`Cancels`).  As long as neither has come, its run goes on undisturbed (`IsUntouched`); the first of them to come
decides at which gate the run stops and what is told of it (`IsMarked`), and whatever comes later changes nothing of
that.  Every move keeps one of the two, or leads from the one to the other (`untouched_or_marked`), so the decision
tells of the first cancellation, if there has been one (`tellsCancellation_run`).
-/
namespace PolicyGates

theorem Progress.isCancelled_of_check {c : Circumstances} {document : Value} {q : Progress} {r : Run} {b : Budget}
    (h : q.check c document none = .ended r b) : r.isCancelled = false := by
  have hnext : ∀ {b' results ahead}, Step.next b' results ahead = .ended r b → r.isCancelled = false := by
    intro b' results ahead hn
    unfold Step.next at hn
    split at hn <;> cases hn
    rfl
  unfold check at h
  split at h
  · cases h
    rfl
  · dsimp only at h
    split at h
    · split at h
      · cases h
        rfl
      · exact hnext h
    · split at h
      · cases h
        rfl
      · exact hnext h

theorem Registry.cancelled_of_conclude {reg : Registry} {p : Proposal} {mode : Mode} {r : Run} {spent : Float}
    {d : Decision} (h : (reg.conclude p mode r spent).2.decision? = .ok d) :
    d.cancelled = r.isCancelled := by
  obtain ⟨-, time, rfl⟩ := exists_drawn_of_conclude h
  rfl

namespace Scheduler

variable {jobs : List Job} {reg : Registry} {s s₀ s' : Scheduler} {slots n : Nat} {ms : List Move} {j : Job}
  {q : Progress} {reason : Text}

/-! ## Moments -/

/-- What happens after these moves cancels the evaluation of the job, for that reason: the evaluation has not ended,
and everything is aborted, or the timer is due that was set when the evaluation started. -/
def Cancels (jobs : List Job) (s : Scheduler) (ms : List Move) (n : Nat) (what : Happening) (reason : Text) : Prop :=
  ¬Settled (play jobs s ms).conclusions n ∧
    match what with
    | .abort r => reason = r.text
    | .advance x => ∃ j l time, jobs[n]? = some j ∧ j.limit = some l ∧ StartsAt jobs s ms n time
      ∧ time + s.registry.delay l.ms ≤ (play jobs s ms).registry.elapsed + x
      ∧ reason = "timed out after " ++ l.given ++ "ms"

/-- None of the moves has cancelled the evaluation of the job. -/
def IsSpared (jobs : List Job) (s : Scheduler) (ms : List Move) (n : Nat) : Prop :=
  ∀ before what after reason, ms = before ++ .happen what :: after → ¬Cancels jobs s before n what reason

/-- What happens after the moves `before` is the first that cancels the evaluation of the job. -/
structure CancelsFirst (jobs : List Job) (s : Scheduler) (ms : List Move) (n : Nat) (before : List Move)
    (what : Happening) (reason : Text) : Prop where
  moment : ∃ after, ms = before ++ .happen what :: after
  cancels : Cancels jobs s before n what reason
  spared : IsSpared jobs s before n

theorem CancelsFirst.concat {before : List Move} {what : Happening} (h : CancelsFirst jobs s ms n before what reason)
    (m : Move) :
    CancelsFirst jobs s (ms ++ [m]) n before what reason := by
  obtain ⟨⟨after, rfl⟩, hcancels, hspared⟩ := h
  exact ⟨⟨after ++ [m], by rw [List.append_assoc]; rfl⟩, hcancels, hspared⟩

theorem IsSpared.concat (h : IsSpared jobs s ms n) {m : Move}
    (hm : ∀ what reason, m = .happen what → ¬Cancels jobs s ms n what reason) :
    IsSpared jobs s (ms ++ [m]) n := by
  intro before what after reason hsplit
  rcases split_concat hsplit with ⟨rfl, hwhat, -⟩ | ⟨after', -, hsplit⟩
  · exact hm what reason hwhat.symm
  · exact h before what after' reason hsplit

theorem CancelsFirst.le {before before' after : List Move} {what what' : Happening} {reason' : Text}
    (h : CancelsFirst jobs s ms n before what reason) (hms : ms = before' ++ .happen what' :: after)
    (hcancels : Cancels jobs s before' n what' reason') : ∃ between, before' = before ++ between := by
  obtain ⟨after', hms'⟩ := h.moment
  rcases List.append_eq_append_iff.1 (hms.symm.trans hms') with ⟨between, hbefore, hbetween⟩ | ⟨between, hbefore, -⟩
  · cases between with
    | nil => exact ⟨[], by rw [hbefore, List.append_nil, List.append_nil]⟩
    | cons m rest =>
      obtain ⟨rfl, -⟩ := List.cons_eq_cons.1 hbetween
      exact absurd hcancels (h.spared _ _ _ _ hbefore)
  · exact ⟨between, hbefore⟩

/-! ## Evaluations -/

/-- So far is the evaluation of the job, which is nowhere yet before it starts. -/
structure StandsAt (s : Scheduler) (n : Nat) (j : Job) (q : Progress) : Prop where
  running : ∀ e ∈ s.running, e.job = n → e.progress = q
  waiting : ¬Runs s n → q = j.opening

theorem exists_standsAt (h : IsTidy jobs slots s) (n : Nat) (j : Job) : ∃ q, StandsAt s n j q := by
  by_cases hruns : Runs s n
  · obtain ⟨e, he, rfl⟩ := id hruns
    refine ⟨e.progress, fun e' he' hsame => ?_, fun hnot => absurd hruns hnot⟩
    rw [List.inj_on_of_nodup_map h.nodup_running he' he hsame]
  · exact ⟨j.opening, fun e he hsame => absurd ⟨e, he, hsame⟩ hruns, fun _ => rfl⟩

theorem StandsAt.reaches (h : StandsAt s n j q) (hsound : IsSound reg jobs s) (hj : jobs[n]? = some j) :
    Progress.Reaches (reg.circumstances j.proposal j.mode) j.proposal.toValue j.opening q := by
  by_cases hruns : Runs s n
  · obtain ⟨e, he, rfl⟩ := hruns
    obtain ⟨j', hj', hreaches⟩ := hsound.running e he
    obtain rfl := Option.some.inj (hj.symm.trans hj')
    rwa [← h.running e he rfl]
  · rw [h.waiting hruns]
    exact .start

/-- The decision is one on a run that was stopped where it stood. -/
def IsCutShort (j : Job) (q : Progress) (reason : Text) (d : Decision) : Prop :=
  ∃ g rest id time, q.ahead = g :: rest
    ∧ d = .ofRun id j.proposal.proposalId j.mode ⟨q.results, .cancelled g reason⟩ q.budget.spent time

/-- Nothing has cancelled the evaluation of the job. -/
structure IsUntouched (s : Scheduler) (n : Nat) : Prop where
  running : ∀ e ∈ s.running, e.job = n → e.cancellation = none
  aborted : ¬Settled s.conclusions n → s.abortReason = none
  concluded : ∀ c, (n, c) ∈ s.conclusions → ∀ d, c.decision? = .ok d → d.cancelled = false

/-- The evaluation of the job has been cancelled where it stood: it meets with that at its next check, if it has not
yet. -/
structure IsMarked (s : Scheduler) (n : Nat) (j : Job) (q : Progress) (reason : Text) : Prop where
  running : ∀ e ∈ s.running, e.job = n → e.progress = q ∧ e.cancellation = some reason
  waiting : ¬Settled s.conclusions n → ¬Runs s n → q = j.opening ∧ s.abortReason = some reason
  concluded : ∀ c, (n, c) ∈ s.conclusions → ∀ d, c.decision? = .ok d → IsCutShort j q reason d

/-! ## Moves that cancel nobody -/

theorem IsUntouched.effect (h : IsUntouched s n) {m : Move} (heffect : HasEffect jobs s m s₀)
    (hm : ∀ what, m ≠ .happen what) :
    IsUntouched s₀ n := by
  cases heffect with
  | enrol => exact h
  | idle => exact h
  | happened what => exact absurd rfl (hm what)
  | @advanced e rest j q hrun hj hcheck =>
    obtain ⟨he, hrest⟩ := List.forall_mem_cons.1 (hrun ▸ h.running)
    exact ⟨List.forall_mem_append.2 ⟨hrest, List.forall_mem_singleton.2 he⟩, h.aborted, h.concluded⟩
  | @concluded e rest j r b hrun hj hcheck =>
    obtain ⟨he, hrest⟩ := List.forall_mem_cons.1 (hrun ▸ h.running)
    refine ⟨hrest, fun hopen => h.aborted fun hc => hopen hc.append, fun c hc d hd => ?_⟩
    rcases List.mem_append.1 hc with hc | hc
    · exact h.concluded c hc d hd
    · obtain ⟨hn, rfl⟩ := Prod.mk.inj (List.mem_singleton.1 hc)
      rw [he hn.symm] at hcheck
      rw [Registry.cancelled_of_conclude hd, Progress.isCancelled_of_check hcheck]

theorem IsUntouched.admits (h : IsUntouched s₀ n) (hadmits : Admits jobs s₀ s') (htidy : IsTidy jobs slots s') :
    IsUntouched s' n := by
  refine ⟨fun e he hn => ?_, fun hopen => ?_, fun c hc d hd => h.concluded c (hadmits.of_decided hc hd) d hd⟩
  · rcases hadmits.of_mem htidy he with he | ⟨-, hnew, j, -, hentrant⟩
    · exact h.running e he hn
    · rw [hentrant]
      exact h.aborted (hn ▸ hnew)
  · rw [hadmits.abortReason]
    exact h.aborted fun hc => hopen (hadmits.settled hc)

theorem check_of_cancelled {c : Circumstances} {document : Value} {g : Gate} {rest : List Gate}
    (hahead : q.ahead = g :: rest) :
    q.check c document (some reason) = .ended ⟨q.results, .cancelled g reason⟩ q.budget := by
  unfold Progress.check
  rw [hahead]

/-- **Who has been cancelled is concluded as cancelled at its next check**, and not before. -/
theorem IsMarked.effect (h : IsMarked s n j q reason) (hj : jobs[n]? = some j) (htidy : IsTidy jobs slots s) {m : Move}
    (heffect : HasEffect jobs s m s₀) (hm : ∀ what, m ≠ .happen what) : IsMarked s₀ n j q reason := by
  have hforth : ¬Settled s₀.conclusions n → ¬Runs s₀ n → ¬Runs s n := by
    rintro hopen hnot ⟨e, he, rfl⟩
    rcases heffect.forth he with ⟨e', he', hsame, -⟩ | hsettled
    · exact hnot ⟨e', he', hsame⟩
    · exact hopen hsettled
  -- whoever makes a check has a gate ahead, before which a cancelled run stops
  have hstops : ∀ {e rest j'}, s.running = e :: rest → jobs[e.job]? = some j' → e.job = n →
      ∃ g ahead, q.ahead = g :: ahead ∧ j' = j
        ∧ e.progress.check (s.registry.circumstances j'.proposal j'.mode) j'.proposal.toValue e.cancellation
          = .ended ⟨q.results, .cancelled g reason⟩ q.budget := by
    intro e rest j' hrun hj' hn
    have he : e ∈ s.running := by rw [hrun]; exact List.mem_cons_self
    obtain ⟨hq, hcancelled⟩ := h.running e he hn
    obtain ⟨hpos, -⟩ := htidy.atWork _ (List.mem_map_of_mem he)
    obtain ⟨g, ahead, hahead⟩ := List.exists_cons_of_length_pos (show 0 < q.ahead.length from hq ▸ hpos)
    refine ⟨g, ahead, hahead, Option.some.inj (hj'.symm.trans (hn ▸ hj)), ?_⟩
    rw [hcancelled, hq]
    exact check_of_cancelled hahead
  cases heffect with
  | enrol => exact h
  | idle => exact h
  | happened what => exact absurd rfl (hm what)
  | advanced hrun hj' hcheck =>
    obtain ⟨-, hrest⟩ := List.forall_mem_cons.1 (hrun ▸ h.running)
    refine ⟨List.forall_mem_append.2 ⟨hrest, List.forall_mem_singleton.2 fun hn => ?_⟩,
      fun hopen hnot => h.waiting hopen (hforth hopen hnot), h.concluded⟩
    obtain ⟨g, ahead, -, -, hended⟩ := hstops hrun hj' hn
    cases hcheck.symm.trans hended
  | concluded hrun hj' hcheck =>
    obtain ⟨-, hrest⟩ := List.forall_mem_cons.1 (hrun ▸ h.running)
    refine ⟨hrest, fun hopen hnot => h.waiting (fun hc => hopen hc.append) (hforth hopen hnot), fun c hc d hd => ?_⟩
    rcases List.mem_append.1 hc with hc | hc
    · exact h.concluded c hc d hd
    · obtain ⟨hn, rfl⟩ := Prod.mk.inj (List.mem_singleton.1 hc)
      obtain ⟨g, ahead, hahead, rfl, hended⟩ := hstops hrun hj' hn.symm
      cases hcheck.symm.trans hended
      obtain ⟨-, time, rfl⟩ := Registry.exists_drawn_of_conclude hd
      exact ⟨g, ahead, _, time, hahead, rfl⟩

theorem IsMarked.admits (h : IsMarked s₀ n j q reason) (hj : jobs[n]? = some j) (hadmits : Admits jobs s₀ s')
    (htidy : IsTidy jobs slots s') : IsMarked s' n j q reason := by
  refine ⟨fun e he hn => ?_, fun hopen hnot => ?_, fun c hc d hd => h.concluded c (hadmits.of_decided hc hd) d hd⟩
  · rcases hadmits.of_mem htidy he with he | ⟨hnot, hopen, j', hj', hentrant⟩
    · exact h.running e he hn
    · subst hn
      obtain rfl := Option.some.inj (hj.symm.trans hj')
      obtain ⟨hq, haborted⟩ := h.waiting hopen hnot
      rw [hentrant, hq]
      exact ⟨rfl, haborted⟩
  · rw [hadmits.abortReason]
    exact h.waiting (fun hc => hopen (hadmits.settled hc)) fun hruns => hnot (hadmits.runs hruns)

/-! ## What happens between checks -/

theorem runs_happen (s : Scheduler) (what : Happening) (n : Nat) : Runs (s.happen what) n ↔ Runs s n := by
  have hsame := (happen_frame s what).1
  constructor
  · rintro ⟨e, he, rfl⟩
    obtain ⟨e', he', heq⟩ := List.mem_map.1 (hsame ▸ List.mem_map_of_mem he)
    exact ⟨e', he', congrArg Prod.fst heq⟩
  · rintro ⟨e, he, rfl⟩
    obtain ⟨e', he', heq⟩ := List.mem_map.1 (hsame.symm ▸ List.mem_map_of_mem he)
    exact ⟨e', he', congrArg Prod.fst heq⟩

/-- **A second cancellation changes nothing.** -/
theorem IsMarked.happen (h : IsMarked s n j q reason) (what : Happening) : IsMarked (s.happen what) n j q reason := by
  obtain ⟨-, -, hconc, -⟩ := happen_frame s what
  refine ⟨?_, fun hopen hnot => ?_, by rw [hconc]; exact h.concluded⟩
  · obtain ⟨f, hrun, hf⟩ := running_happen s what
    rw [hrun]
    refine List.forall_mem_map.2 fun e he hn => ?_
    have hmarked := h.running e he ((hf e).job ▸ hn)
    rwa [(hf e).eq_of_cancelled hmarked.2]
  · rw [hconc] at hopen
    rw [runs_happen] at hnot
    obtain ⟨hq, haborted⟩ := h.waiting hopen hnot
    refine ⟨hq, ?_⟩
    cases what with
    | abort r =>
      unfold Scheduler.happen
      simp only [haborted]
    | advance x => exact haborted

theorem cancel_of_untouched {e : Evaluation} (h : e.cancellation = none) (reason : Text) :
    e.cancel reason = { e with cancellation := some reason } := by
  unfold Evaluation.cancel
  rw [h]

theorem atTime_of_due {e : Evaluation} {t : Timer} (htimer : e.timer = some t) (h : e.cancellation = none) {now : Float}
    (hdue : t.due ≤ now) : e.atTime now = { e with cancellation := some ("timed out after " ++ t.limit ++ "ms") } := by
  unfold Evaluation.atTime
  simp only [htimer, if_pos hdue, cancel_of_untouched h]

section Moves

variable {enrolled : Bool} (hearlier : AwaitEarlier jobs)
include hearlier

/-- **Where the first cancellation comes, it marks where the evaluation stands.** -/
theorem IsUntouched.cancels (hms : IsRegular enrolled ms) (hj : jobs[n]? = some j)
    (h : IsUntouched (play jobs (opening reg slots) ms) n) {what : Happening}
    (hcancels : Cancels jobs (opening reg slots) ms n what reason)
    (hq : StandsAt (play jobs (opening reg slots) ms) n j q) :
    IsMarked ((play jobs (opening reg slots) ms).happen what) n j q reason := by
  obtain ⟨hopen, hwhat⟩ := hcancels
  have hstart : ∀ {time}, StartsAt jobs (opening reg slots) ms n time → _ := hms.of_start hearlier reg slots
  have htidy := hms.isTidy hearlier reg slots
  generalize play jobs (opening reg slots) ms = s at *
  have haborted := h.aborted hopen
  have hconcluded : ∀ c, (n, c) ∈ (s.happen what).conclusions → ∀ d, c.decision? = .ok d → IsCutShort j q reason d := by
    intro c hc
    rw [(happen_frame s what).2.2.1] at hc
    exact absurd ⟨c, hc⟩ hopen
  cases what with
  | abort r =>
    subst hwhat
    have hhappen : s.happen (.abort r)
      = { s with abortReason := some r.text, running := s.running.map (·.cancel r.text) } := by
      unfold Scheduler.happen
      simp only [haborted]
    refine ⟨?_, fun _ hnot => ?_, hconcluded⟩
    · rw [hhappen]
      refine List.forall_mem_map.2 fun e he hn => ?_
      have hn : e.job = n := (isStill_cancel e r.text).job ▸ hn
      rw [cancel_of_untouched (h.running e he hn)]
      exact ⟨hq.running e he hn, rfl⟩
    · rw [runs_happen] at hnot
      exact ⟨hq.waiting hnot, by rw [hhappen]⟩
  | advance x =>
    obtain ⟨j', l, time, hj', hlimit, hstarts, hdue, rfl⟩ := hwhat
    obtain rfl := Option.some.inj (hj.symm.trans hj')
    -- the evaluation has started and has not ended, so it runs, with the timer that was set then
    obtain ⟨e, he, rfl, j', hj', htimer⟩ := (hstart hstarts).resolve_left hopen
    obtain rfl := Option.some.inj (hj.symm.trans hj')
    rw [timerOf, hlimit, Option.map_some] at htimer
    refine ⟨List.forall_mem_map.2 fun e' he' hn => ?_,
      fun _ hnot => absurd ⟨e, he, rfl⟩ ((runs_happen s _ _).not.1 hnot), hconcluded⟩
    obtain rfl : e' = e := List.inj_on_of_nodup_map htidy.nodup_running he' he ((isStill_atTime e' _).job ▸ hn)
    rw [atTime_of_due htimer (h.running e' he rfl) hdue]
    exact ⟨hq.running e' he rfl, rfl⟩

/-- **What does not cancel an evaluation leaves it undisturbed.** -/
theorem IsUntouched.happen (hms : IsRegular enrolled ms) (h : IsUntouched (play jobs (opening reg slots) ms) n)
    {what : Happening} (hnot : ∀ reason, ¬Cancels jobs (opening reg slots) ms n what reason) :
    IsUntouched ((play jobs (opening reg slots) ms).happen what) n := by
  have htidy := hms.isTidy hearlier reg slots
  have hconcluded := h.concluded
  rw [← (happen_frame (play jobs (opening reg slots) ms) what).2.2.1] at hconcluded
  cases what with
  | abort r =>
    -- only who has ended is not cancelled by an abort
    have hsettled : Settled (play jobs (opening reg slots) ms).conclusions n := by
      by_contra hopen
      exact hnot r.text ⟨hopen, rfl⟩
    refine ⟨fun e he hn => ?_, fun hopen => absurd ?_ hopen, hconcluded⟩
    · exact absurd hsettled (htidy.not_settled_of_runs ((runs_happen _ _ _).1 ⟨e, he, hn⟩))
    · rwa [(happen_frame _ _).2.2.1]
  | advance x =>
    refine ⟨List.forall_mem_map.2 fun e he hn => ?_, fun hopen => h.aborted hopen, hconcluded⟩
    have hn : e.job = n := (isStill_atTime e _).job ▸ hn
    have huntouched := h.running e he hn
    obtain ⟨j, time, hj, hstarts, htimer⟩ := hms.exists_start hearlier reg slots he
    rw [hn] at hj hstarts
    unfold Evaluation.atTime
    rw [htimer, timerOf]
    cases hlimit : j.limit with
    | none => exact huntouched
    | some l =>
      simp only [Option.map_some]
      split
      · next hdue =>
        exact absurd ⟨htidy.not_settled_of_runs ⟨e, he, hn⟩, j, l, time, hj, hlimit, hstarts, hdue, rfl⟩ (hnot _)
      · exact huntouched

/-- **Wherever a schedule stands, nothing has cancelled an evaluation, or it is marked by what did so first.** -/
theorem untouched_or_marked (hms : IsRegular enrolled ms) (reg : Registry) (slots : Nat) (hj : jobs[n]? = some j) :
    (IsSpared jobs (opening reg slots) ms n ∧ IsUntouched (play jobs (opening reg slots) ms) n)
    ∨ ∃ before what reason q, CancelsFirst jobs (opening reg slots) ms n before what reason
      ∧ StandsAt (play jobs (opening reg slots) before) n j q
      ∧ IsMarked (play jobs (opening reg slots) ms) n j q reason := by
  induction hms using IsRegular.induction_concat with
  | nil =>
    refine .inl ⟨fun before what after reason hsplit => by simp at hsplit, ?_, fun _ => rfl, ?_⟩
    · exact fun e he => by cases he
    · exact fun c hc => by cases hc
  | @concat _ _ ms m h h' ih =>
    have htidy := h.isTidy hearlier reg slots
    have htidy' := h'.isTidy hearlier reg slots
    have hsound : IsSound reg jobs (play jobs (opening reg slots) ms) := (isSound_opening slots).play ms
    obtain ⟨s₀, heffect, hadmits⟩ := exists_effect hsound m
    rw [play_concat] at htidy' ⊢
    rcases ih with ⟨hspared, huntouched⟩ | ⟨before, what, reason, q, hfirst, hstands, hmarked⟩
    · by_cases hm : ∃ what reason, m = .happen what ∧ Cancels jobs (opening reg slots) ms n what reason
      · obtain ⟨what, reason, rfl, hcancels⟩ := hm
        obtain ⟨q, hq⟩ := exists_standsAt htidy n j
        exact .inr ⟨ms, what, reason, q, ⟨⟨[], rfl⟩, hcancels, hspared⟩, hq,
          huntouched.cancels hearlier h hj hcancels hq⟩
      · refine .inl ⟨hspared.concat fun what reason hwhat hcancels => hm ⟨what, reason, hwhat, hcancels⟩, ?_⟩
        by_cases hwhat : ∃ what, m = .happen what
        · obtain ⟨what, rfl⟩ := hwhat
          exact huntouched.happen hearlier h fun reason hcancels => hm ⟨what, reason, rfl, hcancels⟩
        · exact (huntouched.effect heffect fun what hc => hwhat ⟨what, hc⟩).admits hadmits htidy'
    · refine .inr ⟨before, what, reason, q, hfirst.concat m, hstands, ?_⟩
      by_cases hwhat : ∃ what, m = .happen what
      · obtain ⟨what, rfl⟩ := hwhat
        exact hmarked.happen what
      · exact (hmarked.effect hj htidy heffect fun what hc => hwhat ⟨what, hc⟩).admits hj hadmits htidy'

end Moves

/-! ## Decisions -/

/-- What a decision tells that was cancelled where the run stood. -/
structure ReflectsCancellation (reg : Registry) (j : Job) (q : Progress) (reason : Text) (d : Decision) : Prop where
  cancelled : d.cancelled = true
  /-- The run had come so far, and the results are what those gates have said. -/
  reaches : Progress.Reaches (reg.circumstances j.proposal j.mode) j.proposal.toValue j.opening q
  results : ∃ passed, passed ++ q.ahead = Gate.all
    ∧ d.results = passed.map (Gate.told (reg.circumstances j.proposal j.mode) j.proposal.toValue false)
  energyConsumed : d.energyConsumed = q.budget.spent
  overall : d.overall = .escalateHuman
  /-- The next gate and the reason are named. -/
  note : ∃ g rest, q.ahead = g :: rest ∧ d.note = some ("cancelled before " ++ g.name ++ ": " ++ reason)

theorem IsCutShort.reflects {d : Decision} (h : IsCutShort j q reason d)
    (hreaches : Progress.Reaches (reg.circumstances j.proposal j.mode) j.proposal.toValue j.opening q) :
    ReflectsCancellation reg j q reason d := by
  obtain ⟨g, rest, id, time, hahead, rfl⟩ := h
  obtain ⟨passed, hcourse⟩ := hreaches.exists_isOnCourse
  exact ⟨rfl, hreaches, ⟨passed, hcourse.order, hcourse.results⟩, rfl, rfl, g, rest, hahead, rfl⟩

/-- What the decision on a job tells of what was cancelled in its schedule. -/
structure TellsCancellation (reg : Registry) (jobs : List Job) (slots : Nat) (events : List Event) (n : Nat) (j : Job)
    (d : Decision) : Prop where
  /-- It is a cancelled one exactly if something has cancelled the evaluation before it ended. -/
  cancelled_iff : d.cancelled = true
    ↔ ∃ before what after reason, moves reg jobs slots events = before ++ .happen what :: after
    ∧ Cancels jobs (opening reg slots) before n what reason
  /-- Then it tells of the first that did so, and of where the evaluation stood at that moment. -/
  first : d.cancelled = true → ∃ before what reason q,
    CancelsFirst jobs (opening reg slots) (moves reg jobs slots events) n before what reason
    ∧ StandsAt (play jobs (opening reg slots) before) n j q ∧ ReflectsCancellation reg j q reason d
  /-- An evaluation that has ended stays as it was concluded. -/
  unaffected : ∀ before after c, moves reg jobs slots events = before ++ after →
    (n, c) ∈ (play jobs (opening reg slots) before).conclusions → c.decision? = .ok d
  /-- An evaluation that had not started when everything was aborted has no results. -/
  unstarted : ∀ before r after, moves reg jobs slots events = before ++ .happen (.abort r) :: after →
    ¬Settled (play jobs (opening reg slots) before).conclusions n → ¬Runs (play jobs (opening reg slots) before) n →
    d.cancelled = true ∧ d.results = [] ∧ d.energyConsumed = 0.0

/-- **Decisions tell of the first cancellation**, if there has been one before their evaluations ended. -/
theorem tellsCancellation_run (hearlier : AwaitEarlier jobs) (reg : Registry) (slots : Nat) (events : List Event)
    (hj : jobs[n]? = some j) {c : Conclusion} (hc : (n, c) ∈ (run reg jobs slots events).conclusions) {d : Decision}
    (hd : c.decision? = .ok d) : TellsCancellation reg jobs slots events n j d := by
  have hopening : IsSound reg jobs (opening reg slots) := isSound_opening slots
  have hnodup := (isOrderly_run hearlier reg slots events).tidy.nodup_conclusions
  rw [← play_moves] at hc hnodup
  have hcases := untouched_or_marked hearlier (isRegular_moves reg jobs slots events) reg slots hj
  generalize hms : moves reg jobs slots events = ms at *
  have hfirst : d.cancelled = true →
    ∃ before what reason q, CancelsFirst jobs (opening reg slots) ms n before what reason
      ∧ StandsAt (play jobs (opening reg slots) before) n j q ∧ IsCutShort j q reason d := by
    intro hcancelled
    rcases hcases with ⟨-, huntouched⟩ | ⟨before, what, reason, q, hfirst, hstands, hmarked⟩
    · rw [huntouched.concluded c hc d hd] at hcancelled
      cases hcancelled
    · exact ⟨before, what, reason, q, hfirst, hstands, hmarked.concluded c hc d hd⟩
  have hcancelled : ∀ before what after reason, ms = before ++ .happen what :: after →
      Cancels jobs (opening reg slots) before n what reason → d.cancelled = true := by
    intro before what after reason hsplit hcancels
    rcases hcases with ⟨hspared, -⟩ | ⟨before, what, reason, q, -, -, hmarked⟩
    · exact absurd hcancels (hspared before what after reason hsplit)
    · obtain ⟨g, rest, id, time, -, rfl⟩ := hmarked.concluded c hc d hd
      rfl
  refine ⟨?_, ?_, ?_, ?_⟩
  · rw [hms]
    constructor
    · intro h
      obtain ⟨before, what, reason, q, ⟨⟨after, hsplit⟩, hcancels, -⟩, -⟩ := hfirst h
      exact ⟨before, what, after, reason, hsplit, hcancels⟩
    · rintro ⟨before, what, after, reason, hsplit, hcancels⟩
      exact hcancelled before what after reason hsplit hcancels
  · rw [hms]
    intro h
    obtain ⟨before, what, reason, q, hmoment, hstands, hcut⟩ := hfirst h
    exact ⟨before, what, reason, q, hmoment, hstands, hcut.reflects (hstands.reaches (hopening.play before) hj)⟩
  · rw [hms]
    intro before after c' hsplit hc'
    obtain ⟨more, hmore⟩ := conclusions_play (hopening.play before) after
    rw [← play_append, ← hsplit] at hmore
    have hlater : (n, c') ∈ (play jobs (opening reg slots) ms).conclusions := by
      rw [hmore]
      exact List.mem_append_left _ hc'
    rwa [← (Prod.mk.inj (List.inj_on_of_nodup_map hnodup hc hlater rfl)).2]
  · rw [hms]
    intro before r after hsplit hopen hnot
    have hcancels : Cancels jobs (opening reg slots) before n (.abort r) r.text := ⟨hopen, rfl⟩
    have h := hcancelled before _ after _ hsplit hcancels
    obtain ⟨before', what', reason, q, hmoment, hstands, hcut⟩ := hfirst h
    obtain ⟨between, rfl⟩ := hmoment.le hsplit hcancels
    -- who has not started by then had not started either when the first cancellation came
    have hq : q = j.opening := hstands.waiting fun hruns => by
      have hlater := runs_or_settled_play (hopening.play before') hruns between
      rw [← play_append] at hlater
      exact hlater.elim hnot hopen
    obtain ⟨g, rest, id, time, -, rfl⟩ := hcut
    subst hq
    exact ⟨rfl, rfl, rfl⟩

end Scheduler

end PolicyGates
