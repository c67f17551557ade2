import PolicyGates.Proofs.Scheduler.Conclusions
/-!
# Who comes in

Slots that are asked for and handed on only start evaluations, which go to the end of the row with whatever has been
aborted and a timer of their own, and an end only makes jobs fail besides (`Admits`).  So a check concerns the
evaluation in front and leaves the others where they stand (`check_cases`), and every evaluation that runs when a turn
begins makes its check in that turn (`makesCheck_turn`), cancelled or not by what happens on the way.
-/
namespace PolicyGates.Scheduler

variable {jobs : List Job} {reg : Registry} {s s' s'' : Scheduler}

/-- The evaluation of a job that starts now. -/
def entrant (s : Scheduler) (n : Nat) (j : Job) : Evaluation := ⟨n, j.opening, s.abortReason, j.limit.map s.timer⟩

variable (jobs) in
/-- Evaluations have started and jobs have failed, and nothing else has happened. -/
structure Admits (s s' : Scheduler) : Prop where
  registry : s'.registry = s.registry
  abortReason : s'.abortReason = s.abortReason
  running : ∃ entrants, s'.running = s.running ++ entrants ∧ ∀ e ∈ entrants, ∃ j, jobs[e.job]? = some j
    ∧ e = s.entrant e.job j
  conclusions : ∃ more, s'.conclusions = s.conclusions ++ more ∧ ∀ x ∈ more, ∃ f, x.2 = .failed f

namespace Admits

theorem refl (s : Scheduler) : Admits jobs s s :=
  ⟨rfl, rfl, ⟨[], (List.append_nil _).symm, by simp⟩, ⟨[], (List.append_nil _).symm, by simp⟩⟩

/-- A job that has a decision had it before: what is new in the conclusions are failures. -/
theorem of_decided (h : Admits jobs s s') {n : Nat} {c : Conclusion} (hc : (n, c) ∈ s'.conclusions) {d : Decision}
    (hd : c.decision? = .ok d) : (n, c) ∈ s.conclusions := by
  obtain ⟨more, hconc, hmore⟩ := h.conclusions
  rw [hconc] at hc
  refine (List.mem_append.1 hc).resolve_right fun hnew => ?_
  obtain ⟨f, hf⟩ := hmore _ hnew
  change c = .failed f at hf
  rw [hf] at hd
  cases hd

theorem trans (h : Admits jobs s s') (h' : Admits jobs s' s'') : Admits jobs s s'' := by
  obtain ⟨hreg, haborted, ⟨new, hrun, hnew⟩, more, hconc, hmore⟩ := h
  obtain ⟨hreg', haborted', ⟨new', hrun', hnew'⟩, more', hconc', hmore'⟩ := h'
  have hsame : ∀ n j, s'.entrant n j = s.entrant n j := by
    intro n j
    unfold entrant timer
    rw [hreg, haborted]
  refine ⟨hreg'.trans hreg, haborted'.trans haborted, ⟨new ++ new', ?_, ?_⟩, more ++ more', ?_, ?_⟩
  · rw [hrun', hrun, List.append_assoc]
  · refine List.forall_mem_append.2 ⟨hnew, fun e he => ?_⟩
    obtain ⟨j, hj, hentrant⟩ := hnew' e he
    exact ⟨j, hj, hentrant.trans (hsame _ _)⟩
  · rw [hconc', hconc, List.append_assoc]
  · exact List.forall_mem_append.2 ⟨hmore, hmore'⟩

theorem start (s : Scheduler) (n : Nat) : Admits jobs s (Scheduler.start jobs s n) := by
  unfold Scheduler.start
  cases hj : jobs[n]? with
  | none => exact .refl s
  | some j =>
    have hentrant : ∀ e ∈ [s.entrant n j], ∃ j, jobs[e.job]? = some j ∧ e = s.entrant e.job j :=
      List.forall_mem_singleton.2 ⟨j, hj, rfl⟩
    exact ⟨rfl, rfl, ⟨_, rfl, hentrant⟩, [], (List.append_nil _).symm, List.forall_mem_nil _⟩

theorem of_pool (pool : Pool) (h : Admits jobs { s with pool := pool } s') : Admits jobs s s' :=
  ⟨h.registry, h.abortReason, h.running, h.conclusions⟩

theorem ask (s : Scheduler) (n : Nat) : Admits jobs s (Scheduler.ask jobs s n) := by
  unfold Scheduler.ask
  split
  · exact of_pool _ (.start _ n)
  · exact of_pool _ (.refl _)

theorem release (s : Scheduler) : Admits jobs s (Scheduler.release jobs s) := by
  unfold Scheduler.release
  split
  · exact of_pool _ (.start _ _)
  · exact of_pool _ (.refl _)

theorem follow (s : Scheduler) (ended n : Nat) : Admits jobs s (Scheduler.follow jobs ended s n) := by
  unfold Scheduler.follow
  split
  · exact .refl s
  · split
    · exact .refl s
    · split
      · next f _ =>
        exact ⟨rfl, rfl, ⟨[], (List.append_nil _).symm, by simp⟩, [(n, .failed f)], rfl,
          List.forall_mem_singleton.2 ⟨f, rfl⟩⟩
      · split
        · exact .ask s n
        · exact .refl s

theorem foldl {f : Scheduler → Nat → Scheduler} (hf : ∀ s n, Admits jobs s (f s n)) (ns : List Nat) (s : Scheduler) :
    Admits jobs s (ns.foldl f s) := by
  induction ns generalizing s with
  | nil => exact .refl s
  | cons n rest ih => exact (hf s n).trans (ih _)

/-- **The opening of a schedule only starts evaluations.** -/
theorem enrol (s : Scheduler) : Admits jobs s (Scheduler.enrol jobs s) := by
  refine foldl (fun s n => ?_) _ s
  split
  · split
    · exact .ask s n
    · exact .refl s
  · exact .refl s

theorem conclude (s : Scheduler) (n : Nat) (j : Job) (r : Run) (spent : Float) :
    Admits jobs (setConclusion { s with registry := (s.registry.conclude j.proposal j.mode r spent).1 } n
      (s.registry.conclude j.proposal j.mode r spent).2) (Scheduler.conclude jobs s n j r spent) :=
  (release _).trans (foldl (fun s m => .follow s n m) _ _)

end Admits

/-! ## Checks -/

/-- **A check takes the evaluation in front to the end of the row, or concludes it.** -/
theorem check_cases {e : Evaluation} {rest : List Evaluation} {j : Job} (hrun : s.running = e :: rest)
    (hj : jobs[e.job]? = some j) :
    (∃ q, e.progress.check (s.registry.circumstances j.proposal j.mode) j.proposal.toValue e.cancellation = .running q
      ∧ step jobs s = { s with running := rest ++ [{ e with progress := q }] })
    ∨ ∃ r b, e.progress.check (s.registry.circumstances j.proposal j.mode) j.proposal.toValue e.cancellation
      = .ended r b
      ∧ Admits jobs
        (setConclusion
          { s with running := rest, registry := (s.registry.conclude j.proposal j.mode r b.spent).1 }
          e.job (s.registry.conclude j.proposal j.mode r b.spent).2)
        (step jobs s) := by
  refine (step_cases hrun hj).imp id fun ⟨r, b, hcheck, hs⟩ => ⟨r, b, hcheck, ?_⟩
  rw [hs]
  exact .conclude { s with running := rest } e.job j r b.spent

theorem running_step (jobs : List Job) {e : Evaluation} {rest : List Evaluation} (hrun : s.running = e :: rest) :
    ∃ more, (step jobs s).running = rest ++ more := by
  cases hj : jobs[e.job]? with
  | none => exact ⟨[], by rw [step_of_unknown hrun hj, List.append_nil]⟩
  | some j =>
    rcases check_cases hrun hj with ⟨q, -, hs⟩ | ⟨r, b, -, hadmits⟩
    · exact ⟨_, by rw [hs]⟩
    · obtain ⟨more, hmore, -⟩ := hadmits.running
      exact ⟨more, hmore⟩

/-- **Who has been concluded stays so.** -/
theorem conclusions_step (jobs : List Job) (s : Scheduler) :
    ∃ more, (step jobs s).conclusions = s.conclusions ++ more := by
  cases hrun : s.running with
  | nil => exact ⟨[], by rw [step_of_idle hrun, List.append_nil]⟩
  | cons e rest =>
    cases hj : jobs[e.job]? with
    | none => exact ⟨[], by rw [step_of_unknown hrun hj, List.append_nil]⟩
    | some j =>
      rcases check_cases hrun hj with ⟨q, -, hs⟩ | ⟨r, b, -, hadmits⟩
      · exact ⟨[], by rw [hs, List.append_nil]⟩
      · obtain ⟨more, hmore, -⟩ := hadmits.conclusions
        exact ⟨_ :: more, by rw [hmore]; exact List.append_assoc _ _ _⟩

/-! ## Happenings -/

/-- The evaluation is as it was, or has been cancelled since. -/
def IsStill (e e' : Evaluation) : Prop :=
  e' = e ∨ e.cancellation = none ∧ ∃ reason, e' = { e with cancellation := some reason }

theorem isStill_cancel (e : Evaluation) (reason : Text) : IsStill e (e.cancel reason) := by
  unfold Evaluation.cancel
  split
  · exact .inl rfl
  · next hnone => exact .inr ⟨hnone, reason, rfl⟩

theorem isStill_atTime (e : Evaluation) (now : Float) : IsStill e (e.atTime now) := by
  unfold Evaluation.atTime
  split
  · split
    · exact isStill_cancel e _
    · exact .inl rfl
  · exact .inl rfl

theorem IsStill.trans {e e' e'' : Evaluation} (h : IsStill e e') (h' : IsStill e' e'') : IsStill e e'' := by
  rcases h with rfl | ⟨hnone, reason, rfl⟩
  · exact h'
  · rcases h' with rfl | ⟨hc, -⟩
    · exact .inr ⟨hnone, reason, rfl⟩
    · cases hc

theorem IsStill.eq {e e' : Evaluation} (h : IsStill e e') : ∃ c, e' = { e with cancellation := c } := by
  rcases h with rfl | ⟨-, reason, rfl⟩
  · exact ⟨_, rfl⟩
  · exact ⟨_, rfl⟩

theorem IsStill.job {e e' : Evaluation} (h : IsStill e e') : e'.job = e.job := by
  obtain ⟨c, rfl⟩ := h.eq
  rfl

theorem IsStill.eq_of_cancelled {e e' : Evaluation} (h : IsStill e e') {reason : Text}
    (he : e.cancellation = some reason) :
    e' = e := by
  rcases h with rfl | ⟨hnone, -⟩
  · rfl
  · cases he.symm.trans hnone

/-- **What happens does nothing to evaluations but cancel them.** -/
theorem running_happen (s : Scheduler) (what : Happening) :
    ∃ f : Evaluation → Evaluation, (s.happen what).running = s.running.map f ∧ ∀ e, IsStill e (f e) := by
  cases what with
  | abort reason =>
    unfold happen
    dsimp only
    split
    · exact ⟨id, (List.map_id _).symm, fun e => .inl rfl⟩
    · exact ⟨_, rfl, fun e => isStill_cancel e _⟩
  | advance ms => exact ⟨_, rfl, fun e => isStill_atTime e _⟩

/-! ## Turns -/

/-- Something happens within the turn that comes after so many. -/
def HappensWithin (events : List Event) (done : Nat) : Prop :=
  ∃ event ∈ events, event.after.turns = done ∧ 0 < event.after.checks

/-- How an evaluation may stand at a later moment of the turn: as it was, unless something that happens within the
turn has cancelled it. -/
def IsWithin (events : List Event) (done : Nat) (e e' : Evaluation) : Prop :=
  e' = e ∨ HappensWithin events done ∧ IsStill e e'

variable {events : List Event} {done : Nat}

theorem IsWithin.trans {e e' e'' : Evaluation} (h : IsWithin events done e e') (h' : IsWithin events done e' e'') :
    IsWithin events done e e'' := by
  rcases h with rfl | ⟨hevents, hstill⟩
  · exact h'
  · rcases h' with rfl | ⟨-, hstill'⟩
    · exact .inr ⟨hevents, hstill⟩
    · exact .inr ⟨hevents, hstill.trans hstill'⟩

theorem running_foldl_happen {happening : List Event} (hsub : happening ⊆ events)
    (hwithin : ∀ event ∈ happening, event.after.turns = done ∧ 0 < event.after.checks) (s : Scheduler) :
    ∃ f : Evaluation → Evaluation, (happening.foldl (fun s e => s.happen e.happening) s).running = s.running.map f
      ∧ ∀ e, IsWithin events done e (f e) := by
  induction happening generalizing s with
  | nil => exact ⟨id, (List.map_id _).symm, fun e => .inl rfl⟩
  | cons event rest ih =>
    obtain ⟨hevent, hrest⟩ := List.forall_mem_cons.1 hwithin
    obtain ⟨hmem, hsub'⟩ := List.cons_subset.1 hsub
    obtain ⟨f, hrun, hf⟩ := running_happen s event.happening
    obtain ⟨g, hrun', hg⟩ := ih hsub' hrest (s.happen event.happening)
    refine ⟨g ∘ f, ?_, fun e => IsWithin.trans (.inr ⟨⟨event, hmem, hevent⟩, hf e⟩) (hg (f e))⟩
    rw [List.foldl_cons, hrun', hrun, List.map_map]

theorem running_happenings (events : List Event) (done made : Nat) (s : Scheduler) :
    ∃ f : Evaluation → Evaluation, (happenings events ⟨done, made + 1⟩ s).running = s.running.map f
      ∧ ∀ e, IsWithin events done e (f e) := by
  refine running_foldl_happen (List.filter_subset_self _) (fun event hevent => ?_) s
  have hafter := of_decide_eq_true (List.mem_filter.1 hevent).2
  rw [hafter]
  exact ⟨rfl, Nat.succ_pos made⟩

theorem running_overdue (events : List Event) (done made : Nat) (s : Scheduler) :
    ∃ f : Evaluation → Evaluation, ((overdue events done made).foldl (fun s e => s.happen e.happening) s).running
      = s.running.map f
      ∧ ∀ e, IsWithin events done e (f e) := by
  have hmem : ∀ event ∈ overdue events done made, event ∈ events ∧ event.after.turns = done
    ∧ made < event.after.checks := by
    intro event hevent
    obtain ⟨hevent, hlate⟩ := List.mem_filter.1 (List.mem_mergeSort.1 hevent)
    exact ⟨hevent, of_decide_eq_true hlate⟩
  refine running_foldl_happen (fun event hevent => (hmem event hevent).1) (fun event hevent => ?_) s
  exact ⟨(hmem event hevent).2.1, Nat.zero_lt_of_lt (hmem event hevent).2.2⟩

theorem checks_add (m n made : Nat) (s : Scheduler) :
    checks jobs events done (m + n) made s
      = checks jobs events done n (made + m) (checks jobs events done m made s) := by
  induction m generalizing made s with
  | zero => rw [Nat.zero_add, checks, Nat.add_zero]
  | succ m ih => rw [Nat.succ_add, checks, ih, checks, Nat.add_assoc, Nat.add_comm 1 m]

theorem running_checks (jobs : List Job) (events : List Event) (done made : Nat) {front back : List Evaluation}
    (hrun : s.running = front ++ back) : ∃ (f : Evaluation → Evaluation) (more : List Evaluation),
      (checks jobs events done front.length made s).running = back.map f ++ more
        ∧ ∀ e, IsWithin events done e (f e) := by
  generalize hn : front.length = n
  induction n generalizing s front back made with
  | zero =>
    obtain rfl := List.eq_nil_of_length_eq_zero hn
    exact ⟨id, [], by rw [checks, hrun, List.map_id, List.append_nil, List.nil_append], fun e => .inl rfl⟩
  | succ n ih =>
    obtain ⟨e, rest, rfl⟩ := List.exists_cons_of_length_eq_add_one hn
    obtain ⟨more, hmore⟩ := running_step jobs (hrun.trans List.cons_append)
    obtain ⟨f, hhappen, hf⟩ := running_happenings events done made (step jobs s)
    rw [hmore, List.append_assoc, List.map_append, List.map_append] at hhappen
    obtain ⟨g, more', hmore', hg⟩ := ih (made + 1) hhappen (by simpa using hn)
    refine ⟨g ∘ f, (more.map f).map g ++ more', ?_, fun e => (hf e).trans (hg (f e))⟩
    rw [checks, hmore', List.map_append, List.append_assoc, List.map_map]

theorem conclusions_checks (jobs : List Job) (events : List Event) (done n made : Nat) (s : Scheduler) :
    ∃ more, (checks jobs events done n made s).conclusions = s.conclusions ++ more := by
  refine checks_induction (P := fun t => ∃ more, t.conclusions = s.conclusions ++ more) (fun t what ⟨more, ht⟩ => ?_)
    (fun t ⟨more, ht⟩ => ?_) events done n made ⟨[], (List.append_nil _).symm⟩
  · exact ⟨more, (happen_frame t what).2.2.1.trans ht⟩
  · obtain ⟨more', hmore'⟩ := conclusions_step jobs t
    exact ⟨more ++ more', by rw [hmore', ht, List.append_assoc]⟩

/-- What becomes of an evaluation at its next check, which it makes in the turn after so many: it is one gate further,
or it has ended and is concluded. -/
def MakesCheck (reg : Registry) (jobs : List Job) (events : List Event) (done : Nat) (e : Evaluation)
    (s' : Scheduler) : Prop :=
  ∃ j e', jobs[e.job]? = some j ∧ IsWithin events done e e' ∧
    match e'.progress.check (reg.circumstances j.proposal j.mode) j.proposal.toValue e'.cancellation with
    | .running q => ∃ e'' ∈ s'.running, IsWithin events done { e' with progress := q } e''
    | .ended r b => ∃ reg' : Registry, reg.IsLater reg'
      ∧ (e.job, (reg'.conclude j.proposal j.mode r b.spent).2) ∈ s'.conclusions

theorem IsWithin.job {e e' : Evaluation} (h : IsWithin events done e e') : e'.job = e.job := by
  rcases h with rfl | ⟨-, hstill⟩
  · rfl
  · exact hstill.job

/-- **Whoever runs makes the next check in the next turn.** -/
theorem makesCheck_turn (h : IsSound reg jobs s) {e : Evaluation} (he : e ∈ s.running) (events : List Event)
    (done : Nat) :
    MakesCheck reg jobs events done e (turn jobs events done s) := by
  obtain ⟨front, back, hsplit⟩ := List.append_of_mem he
  -- the checks of the turn up to that of the evaluation, its own, and those of whoever stood behind it
  have hlength : s.running.length
    = front.length + (back.length + 1) := by rw [hsplit, List.length_append, List.length_cons]
  obtain ⟨f, more, hfirst, hf⟩ := running_checks jobs events done 0 hsplit
  have hsound : IsSound reg jobs (checks jobs events done front.length 0 s) :=
    checks_induction (fun _ what h => h.happen what) (fun _ h => h.step) events done _ _ h
  unfold turn
  simp only [hlength, checks_add, checks]
  generalize checks jobs events done front.length 0 s = t at hfirst hsound
  rw [List.map_cons, List.cons_append] at hfirst
  obtain ⟨j, hj, -⟩ := hsound.running (f e) (by rw [hfirst]; exact List.mem_cons_self)
  change jobs[(f e).job]? = some j at hj
  refine ⟨j, f e, (hf e).job ▸ hj, hf e, ?_⟩
  obtain ⟨g, hhappen, hg⟩ := running_happenings events done (0 + front.length) (step jobs t)
  rcases check_cases hfirst hj with ⟨q, hcheck, hs⟩ | ⟨r, b, hcheck, hadmits⟩
  · rw [hsound.registry.circumstances] at hcheck
    simp only [hcheck]
    have hbehind : (step jobs t).running = back.map f ++ (more ++ [{ f e with progress := q }]) := by
      rw [hs]
      exact List.append_assoc _ _ _
    rw [hbehind, List.map_append] at hhappen
    obtain ⟨k, more', hchecks, hk⟩ := running_checks jobs events done (0 + front.length + 1) hhappen
    rw [List.length_map, List.length_map] at hchecks
    obtain ⟨l, hoverdue, hl⟩ := running_overdue events done s.running.length (checks jobs events done back.length
      (0 + front.length + 1) (happenings events ⟨done, 0 + front.length + 1⟩ (step jobs t)))
    rw [hlength] at hoverdue
    rw [hoverdue, hchecks]
    refine ⟨l (k (g { f e with progress := q })), ?_, ((hg _).trans (hk _)).trans (hl _)⟩
    simp
  · rw [hsound.registry.circumstances] at hcheck
    obtain ⟨failures, hconc, -⟩ := hadmits.conclusions
    obtain ⟨later, hlater⟩ := conclusions_checks jobs events done back.length (0 + front.length + 1)
      (happenings events ⟨done, 0 + front.length + 1⟩ (step jobs t))
    simp only [hcheck, (foldl_happen_frame _ _).2.2.1, hlater]
    refine ⟨t.registry, hsound.registry, List.mem_append_left _ ?_⟩
    rw [happenings, (foldl_happen_frame _ _).2.2.1, hconc, ← (hf e).job]
    simp [setConclusion]

end PolicyGates.Scheduler
