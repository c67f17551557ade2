import PolicyGates.Proofs.Scheduler.Provenance
/-!
# Every job that waits for none is concluded

Where no job awaits another and there is a slot for each, all of them start at once (`isInStep_enrol`).  In a turn
each running evaluation makes one check, which ends it or takes it one gate further (`IsInStep.turn`), so after as
many turns as there are gates each job has its conclusion (`exists_conclusion`).
-/
namespace PolicyGates

namespace Scheduler

variable {jobs : List Job} {s : Scheduler}

/-- No job awaits another. -/
def AreFree (jobs : List Job) : Prop := ∀ j ∈ jobs, j.awaits = []

theorem follow_of_free (hfree : AreFree jobs) (ended n : Nat) (s : Scheduler) : follow jobs ended s n = s := by
  unfold follow
  cases hj : jobs[n]? with
  | none => rfl
  | some j => simp [hfree j (List.mem_of_getElem? hj)]

theorem foldl_follow_of_free (hfree : AreFree jobs) (ended : Nat) (ns : List Nat) (s : Scheduler) :
    ns.foldl (follow jobs ended) s = s := by
  induction ns with
  | nil => rfl
  | cons n rest ih => rw [List.foldl_cons, follow_of_free hfree, ih]

theorem conclude_of_free (hfree : AreFree jobs) (hwait : s.pool.waiting = []) (n : Nat) (j : Job) (r : Run)
    (spent : Float) :
    ∃ registry pool c, conclude jobs s n j r spent
      = { s with registry := registry, pool := pool, conclusions := s.conclusions ++ [(n, c)] }
        ∧ pool.waiting = [] := by
  obtain ⟨registry, ⟨size, active, waiting⟩, running, conclusions, reason⟩ := s
  obtain rfl : waiting = [] := hwait
  unfold conclude
  simp only [foldl_follow_of_free hfree]
  exact ⟨_, _, _, rfl, rfl⟩

/-- A check of the evaluation in front takes it one gate further and to the end of the row, or concludes it. -/
theorem step_of_free (hfree : AreFree jobs) (hwait : s.pool.waiting = []) {e : Evaluation} {rest : List Evaluation}
    (hrun : s.running = e :: rest) (hjob : e.job < jobs.length) :
    (∃ q, step jobs s = { s with running := rest ++ [{ e with progress := q }] } ∧ 0 < q.ahead.length
      ∧ e.progress.ahead.length = q.ahead.length + 1)
    ∨ ∃ registry pool c, step jobs s
        = { s with registry := registry, pool := pool, running := rest, conclusions := s.conclusions ++ [(e.job, c)] }
      ∧ pool.waiting = [] := by
  rcases step_cases hrun (List.getElem?_eq_getElem hjob) with ⟨q, hcheck, hs⟩ | ⟨r, b, -, hs⟩
  · obtain ⟨h0, h1⟩ := Progress.ahead_of_running (Progress.check_none_of_running hcheck)
    exact .inl ⟨q, hs, h0, h1⟩
  · obtain ⟨registry, pool, c, hc, hpool⟩ :=
      conclude_of_free (s := { s with running := rest }) hfree hwait e.job jobs[e.job] r b.spent
    exact .inr ⟨registry, pool, c, hs.trans hc, hpool⟩

/-! ## Turns -/

/-- The job is being evaluated, or has been concluded. -/
def IsKnown (s : Scheduler) (n : Nat) : Prop := (∃ e ∈ s.running, e.job = n) ∨ ∃ c, (n, c) ∈ s.conclusions

/-- Nobody waits for a slot, and every job is known. -/
structure HasStarted (jobs : List Job) (s : Scheduler) : Prop where
  waiting : s.pool.waiting = []
  running : ∀ e ∈ s.running, e.job < jobs.length
  known : ∀ n < jobs.length, s.IsKnown n

/-- Everybody has started and has no more than so many gates ahead. -/
structure IsInStep (jobs : List Job) (left : Nat) (s : Scheduler) : Prop where
  started : HasStarted jobs s
  ahead : ∀ e ∈ s.running, 0 < e.progress.ahead.length ∧ e.progress.ahead.length ≤ left

theorem HasStarted.step (hfree : AreFree jobs) (h : HasStarted jobs s) {e : Evaluation} {rest : List Evaluation}
    (hrun : s.running = e :: rest) :
    HasStarted jobs (Scheduler.step jobs s)
      ∧ ((∃ q, (Scheduler.step jobs s).running = rest ++ [{ e with progress := q }] ∧ 0 < q.ahead.length
            ∧ e.progress.ahead.length = q.ahead.length + 1)
        ∨ (Scheduler.step jobs s).running = rest) := by
  obtain ⟨hwait, hjobs, hknown⟩ := h
  rw [hrun] at hjobs
  have hjob := hjobs e List.mem_cons_self
  rcases step_of_free hfree hwait hrun hjob with ⟨q, hs, h0, h1⟩ | ⟨registry, pool, c, hs, hpool⟩
  · rw [hs]
    refine ⟨⟨hwait, ?_, ?_⟩, .inl ⟨q, rfl, h0, h1⟩⟩
    · intro e' he'
      rcases List.mem_append.1 he' with he' | he'
      · exact hjobs e' (List.mem_cons_of_mem _ he')
      · rw [List.mem_singleton.1 he']
        exact hjob
    · intro n hn
      rcases hknown n hn with ⟨e', he', rfl⟩ | hc
      · rw [hrun] at he'
        rcases List.mem_cons.1 he' with rfl | he'
        · exact .inl ⟨_, List.mem_append_right _ List.mem_cons_self, rfl⟩
        · exact .inl ⟨e', List.mem_append_left _ he', rfl⟩
      · exact .inr hc
  · rw [hs]
    refine ⟨⟨hpool, fun e' he' => hjobs e' (List.mem_cons_of_mem _ he'), ?_⟩, .inr rfl⟩
    intro n hn
    rcases hknown n hn with ⟨e', he', rfl⟩ | ⟨c', hc'⟩
    · rw [hrun] at he'
      rcases List.mem_cons.1 he' with rfl | he'
      · exact .inr ⟨c, List.mem_append_right _ List.mem_cons_self⟩
      · exact .inl ⟨e', he', rfl⟩
    · exact .inr ⟨c', List.mem_append_left _ hc'⟩

theorem HasStarted.foldl_happen (h : HasStarted jobs s) (events : List Event) :
    HasStarted jobs (events.foldl (fun s e => s.happen e.happening) s) := by
  obtain ⟨hrun, hpool, hconc, -⟩ := foldl_happen_frame s events
  generalize events.foldl (fun s e => s.happen e.happening) s = t at hrun hpool hconc
  refine ⟨by rw [hpool]; exact h.waiting, ?_, ?_⟩
  · intro e he
    obtain ⟨e', he', heq⟩ := List.mem_map.1 (hrun ▸ List.mem_map_of_mem he)
    rw [← show e'.job = e.job from congrArg Prod.fst heq]
    exact h.running e' he'
  · intro n hn
    rcases h.known n hn with ⟨e', he', rfl⟩ | hc
    · have hmem : e'.standing ∈ t.running.map Evaluation.standing := hrun ▸ List.mem_map_of_mem he'
      obtain ⟨e, he, heq⟩ := List.mem_map.1 hmem
      exact .inl ⟨e, he, congrArg Prod.fst heq⟩
    · exact .inr (by rwa [hconc])

/-- The checks of a turn: those in front still have to make theirs, those behind have made it. -/
theorem isInStep_checks (hfree : AreFree jobs) (events : List Event) (done left made : Nat)
    (front back : List (Nat × Progress)) (h : HasStarted jobs s)
    (hrun : s.running.map Evaluation.standing = front ++ back) (hfront : ∀ x ∈ front, x.2.ahead.length ≤ left + 1)
    (hback : ∀ x ∈ back, 0 < x.2.ahead.length ∧ x.2.ahead.length ≤ left) :
    IsInStep jobs left (checks jobs events done front.length made s) := by
  induction front generalizing back made s with
  | nil =>
    refine ⟨h, fun e he => hback e.standing ?_⟩
    rw [List.nil_append] at hrun
    exact hrun ▸ List.mem_map_of_mem he
  | cons x rest ih =>
    obtain ⟨e, behind, hcons, rfl, hbehind⟩ := List.map_eq_cons_iff.1 (hrun.trans List.cons_append)
    obtain ⟨h', hcases⟩ := h.step hfree hcons
    obtain ⟨hhead, hrest⟩ := List.forall_mem_cons.1 hfront
    have hsame := (foldl_happen_frame (Scheduler.step jobs s) (events.filter fun e => e.after = ⟨done, made + 1⟩)).1
    rcases hcases with ⟨q, hq, h0, h1⟩ | hq
    · rw [hq, List.map_append, hbehind, List.append_assoc] at hsame
      refine ih (made + 1) _ (h'.foldl_happen _) hsame hrest
        (List.forall_mem_append.2 ⟨hback, List.forall_mem_singleton.2 ⟨h0, ?_⟩⟩)
      change e.progress.ahead.length ≤ left + 1 at hhead
      show q.ahead.length ≤ left
      omega
    · rw [hq, hbehind] at hsame
      exact ih (made + 1) back (h'.foldl_happen _) hsame hrest hback

theorem IsInStep.foldl_happen {left : Nat} (h : IsInStep jobs left s) (events : List Event) :
    IsInStep jobs left (events.foldl (fun s e => s.happen e.happening) s) := by
  refine ⟨h.started.foldl_happen events, fun e he => ?_⟩
  obtain ⟨e', he', heq⟩ := List.mem_map.1 ((foldl_happen_frame s events).1 ▸ List.mem_map_of_mem he)
  rw [← show e'.progress = e.progress from congrArg Prod.snd heq]
  exact h.ahead e' he'

/-- **A turn takes everybody one gate further.** -/
theorem IsInStep.turn (hfree : AreFree jobs) {left : Nat} (h : IsInStep jobs left s) (events : List Event)
    (done : Nat) :
    IsInStep jobs (left - 1) (Scheduler.turn jobs events done s) := by
  have hchecks := isInStep_checks hfree events done (left - 1) 0 (s.running.map Evaluation.standing) [] h.started
    (List.append_nil _).symm (List.forall_mem_map.2 fun e he => ?_) (List.forall_mem_nil _)
  · rw [List.length_map] at hchecks
    exact hchecks.foldl_happen _
  · have := (h.ahead e he).2
    show e.progress.ahead.length ≤ left - 1 + 1
    omega

theorem IsInStep.turns (hfree : AreFree jobs) {left : Nat} (h : IsInStep jobs left s) (events : List Event)
    (n done : Nat) :
    IsInStep jobs (left - n) (Scheduler.turns jobs events n done s) := by
  induction n generalizing s left done with
  | zero => exact h
  | succ n ih =>
    rw [show left - (n + 1) = left - 1 - n by omega]
    exact ih ((h.turn hfree events done).foldl_happen _) _

/-! ## The start -/

/-- After so many jobs have asked for their slots. -/
structure HasEnrolled (jobs : List Job) (k : Nat) (s : Scheduler) : Prop where
  pool : s.pool = ⟨jobs.length, k, []⟩
  running : ∀ e ∈ s.running, e.job < jobs.length ∧ e.progress.ahead = Gate.all
  known : ∀ n < k, ∃ e ∈ s.running, e.job = n

theorem HasEnrolled.ask {k : Nat} (h : HasEnrolled jobs k s) (hk : k < jobs.length) :
    HasEnrolled jobs (k + 1) (Scheduler.ask jobs s k) := by
  obtain ⟨hpool, hrun, hknown⟩ := h
  have hslot : s.pool.ask k = (⟨jobs.length, k + 1, []⟩, true) := by
    rw [hpool, Pool.ask, if_neg (by simpa using hk)]
  unfold Scheduler.ask
  rw [hslot]
  simp only [Scheduler.start, List.getElem?_eq_getElem hk]
  refine ⟨rfl, ?_, ?_⟩
  · intro e he
    rcases List.mem_append.1 he with he | he
    · exact hrun e he
    · rw [List.mem_singleton.1 he]
      exact ⟨hk, rfl⟩
  · intro n hn
    rcases Nat.lt_succ_iff_lt_or_eq.1 hn with hn | rfl
    · obtain ⟨e, he, rfl⟩ := hknown n hn
      exact ⟨e, List.mem_append_left _ he, rfl⟩
    · exact ⟨_, List.mem_append_right _ List.mem_cons_self, rfl⟩

theorem HasEnrolled.foldl (h : HasEnrolled jobs 0 s) {f : Scheduler → Nat → Scheduler}
    (hf : ∀ s k, k < jobs.length → f s k = Scheduler.ask jobs s k) {k : Nat} (hk : k ≤ jobs.length) :
    HasEnrolled jobs k ((List.range k).foldl f s) := by
  induction k with
  | zero => exact h
  | succ k ih =>
    rw [List.range_succ, List.foldl_append, List.foldl_cons, List.foldl_nil, hf _ k hk]
    exact (ih (Nat.le_of_lt hk)).ask hk

/-- **All jobs start at once**, if there is a slot for each and none awaits another. -/
theorem isInStep_enrol (hfree : AreFree jobs) (h : HasEnrolled jobs 0 s) :
    IsInStep jobs Gate.all.length (enrol jobs s) := by
  have henrolled : HasEnrolled jobs jobs.length (enrol jobs s) := by
    refine h.foldl (fun s k hk => ?_) (Nat.le_refl _)
    have hawaits : jobs[k].awaits.isEmpty = true := by
      rw [hfree _ (List.getElem_mem hk)]
      rfl
    simp only [List.getElem?_eq_getElem hk, hawaits, if_true]
  refine ⟨⟨congrArg Pool.waiting henrolled.pool, fun e he => (henrolled.running e he).1,
    fun n hn => .inl (henrolled.known n hn)⟩, ?_⟩
  intro e he
  rw [(henrolled.running e he).2]
  decide

theorem hasEnrolled_happenings (reg : Registry) (jobs : List Job) (events : List Event) :
    HasEnrolled jobs 0 (events.foldl (fun s e => s.happen e.happening) (opening reg jobs.length)) := by
  obtain ⟨hrun, hpool, -⟩ := foldl_happen_frame (opening reg jobs.length) events
  refine ⟨hpool, ?_, fun n hn => absurd hn (Nat.not_lt_zero n)⟩
  rw [List.map_eq_nil_iff.1 hrun]
  exact List.forall_mem_nil _

/-- **Every job that awaits none has a conclusion in the end.** -/
theorem exists_conclusion (reg : Registry) (hfree : AreFree jobs) (events : List Event) {n : Nat}
    (hn : n < jobs.length) :
    ∃ c, (Scheduler.run reg jobs jobs.length events).conclusion? n = some c
      ∧ (n, c) ∈ (Scheduler.run reg jobs jobs.length events).conclusions := by
  have hstep : IsInStep jobs (Gate.all.length - turnsFor jobs.length) (Scheduler.run reg jobs jobs.length events) :=
    ((isInStep_enrol hfree (hasEnrolled_happenings reg jobs _)).turns hfree events _ _).foldl_happen _
  have hzero : Gate.all.length - turnsFor jobs.length = 0 := by
    have : Gate.all.length * 1 ≤ Gate.all.length * jobs.length := Nat.mul_le_mul_left _ (by omega)
    unfold turnsFor
    omega
  rw [hzero] at hstep
  rcases hstep.started.known n hn with ⟨e, he, -⟩ | ⟨c, hc⟩
  · have := hstep.ahead e he
    omega
  · obtain ⟨c', hc'⟩ := Option.isSome_iff_exists.1
      (List.lookup_isSome_iff.2 ⟨(n, c), hc, beq_self_eq_true n⟩)
    obtain ⟨l₁, l₂, hl, -⟩ := List.lookup_eq_some_iff.1 hc'
    exact ⟨c', hc', by rw [hl]; simp⟩

end Scheduler

end PolicyGates
