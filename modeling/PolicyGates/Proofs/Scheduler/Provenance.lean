import PolicyGates.Proofs.Registry
import PolicyGates.Proofs.Run
import PolicyGates.Scheduler
/-!
# What a conclusion has behind it

Evaluations take turns, are cancelled and wait for each other, but none of them touches another: wherever the schedule
stands, a started evaluation has come to its state by checks of its own, and a concluded one has ended its own run
(`IsSound`).  Nothing that can happen changes that (`IsSound.step`, `IsSound.happen`), so it holds in the end
(`isSound_run`).
-/
namespace PolicyGates

/-- The run of a job, before its first check. -/
def Job.opening (j : Job) : Progress := .fresh (.fresh j.proposal.energyBudgetTokens)

/-- A job was concluded on a run of its own, by a registry that came from the given one. -/
def Job.IsConcluded (reg : Registry) (j : Job) (c : Conclusion) : Prop :=
  ∃ (reg' : Registry) (r : Run) (b : Budget), reg.IsLater reg'
    ∧ Progress.EndsIn (reg.circumstances j.proposal j.mode) j.proposal.toValue j.opening r b
    ∧ c = (reg'.conclude j.proposal j.mode r b.spent).2

/-- The decision is one on a run of the proposal's own, in the mode. -/
def Decision.IsOn (reg : Registry) (p : Proposal) (mode : Mode) (d : Decision) : Prop :=
  ∃ (r : Run) (b : Budget) (id : String) (time : Instant),
    Progress.EndsIn (reg.circumstances p mode) p.toValue (.fresh (.fresh p.energyBudgetTokens)) r b
    ∧ d = .ofRun id p.proposalId mode r b.spent time

theorem Job.IsConcluded.isOn {reg : Registry} {j : Job} {c : Conclusion} {d : Decision} (h : j.IsConcluded reg c)
    (hd : c.decision? = .ok d) : d.IsOn reg j.proposal j.mode ∧ c = d.conclusion := by
  obtain ⟨reg', r, b, -, hends, rfl⟩ := h
  obtain ⟨hc, time, hdrawn⟩ := Registry.exists_drawn_of_conclude hd
  exact ⟨⟨r, b, _, time, hends, hdrawn⟩, hc⟩

theorem Registry.IsLater.circumstances {reg reg' : Registry} (h : reg.IsLater reg') (p : Proposal) (mode : Mode) :
    reg'.circumstances p mode = reg.circumstances p mode := by
  unfold Registry.circumstances Registry.phaseOf
  rw [h.settings]

namespace Evaluation

/-- How far the evaluation of which job is, whatever there is to cancel it. -/
def standing (e : Evaluation) : Nat × Progress := (e.job, e.progress)

theorem standing_cancel (e : Evaluation) (reason : Text) : (e.cancel reason).standing = e.standing := by
  unfold cancel
  split <;> rfl

theorem standing_atTime (e : Evaluation) (now : Float) : (e.atTime now).standing = e.standing := by
  unfold atTime
  split
  · split
    · exact standing_cancel _ _
    · rfl
  · rfl

end Evaluation

namespace Scheduler

/-! ## Happenings -/

/-- **What happens between checks leaves runs, slots and conclusions alone.** -/
theorem happen_frame (s : Scheduler) (what : Happening) :
    (s.happen what).running.map Evaluation.standing = s.running.map Evaluation.standing ∧ (s.happen what).pool = s.pool
      ∧ (s.happen what).conclusions = s.conclusions ∧ s.registry.IsLater (s.happen what).registry := by
  cases what with
  | abort reason =>
    unfold happen
    simp only
    split
    · exact ⟨rfl, rfl, rfl, .refl _⟩
    · refine ⟨?_, rfl, rfl, .refl _⟩
      rw [List.map_map]
      exact List.map_congr_left (fun e _ => e.standing_cancel _)
  | advance ms =>
    refine ⟨?_, rfl, rfl, .of_eq rfl rfl rfl rfl⟩
    show (s.running.map (·.atTime (s.registry.elapsed + ms))).map Evaluation.standing = _
    rw [List.map_map]
    exact List.map_congr_left (fun e _ => e.standing_atTime _)

theorem foldl_happen_frame (s : Scheduler) (events : List Event) :
    (events.foldl (fun s e => s.happen e.happening) s).running.map Evaluation.standing
      = s.running.map Evaluation.standing
      ∧ (events.foldl (fun s e => s.happen e.happening) s).pool = s.pool
      ∧ (events.foldl (fun s e => s.happen e.happening) s).conclusions = s.conclusions
      ∧ s.registry.IsLater (events.foldl (fun s e => s.happen e.happening) s).registry := by
  induction events generalizing s with
  | nil => exact ⟨rfl, rfl, rfl, .refl _⟩
  | cons e rest ih =>
    obtain ⟨hrun, hpool, hconc, hlater⟩ := happen_frame s e.happening
    obtain ⟨hrun', hpool', hconc', hlater'⟩ := ih (s.happen e.happening)
    exact ⟨hrun'.trans hrun, hpool'.trans hpool, hconc'.trans hconc, hlater.trans hlater'⟩

/-! ## What holds all along -/

section Induction

variable {jobs : List Job} {P : Scheduler → Prop} (hhappen : ∀ (s : Scheduler) (what : Happening), P s →
  P (s.happen what))
include hhappen

theorem foldl_happen_induction (events : List Event) {s : Scheduler} (h : P s) :
    P (events.foldl (fun s e => s.happen e.happening) s) := by
  induction events generalizing s with
  | nil => exact h
  | cons e rest ih => exact ih (hhappen s e.happening h)

variable (hstep : ∀ s : Scheduler, P s → P (step jobs s)) (events : List Event)
include hstep

theorem checks_induction (done n made : Nat) {s : Scheduler} (h : P s) : P (checks jobs events done n made s) := by
  induction n generalizing s made with
  | zero => exact h
  | succ n ih => exact ih _ (foldl_happen_induction hhappen _ (hstep s h))

/-- **What every check keeps, and everything that happens between checks, a turn keeps.** -/
theorem turn_induction (done : Nat) {s : Scheduler} (h : P s) : P (turn jobs events done s) :=
  foldl_happen_induction hhappen _ (checks_induction hhappen hstep events done _ _ h)

/-- **Any number of turns keeps it**, with what happens between them. -/
theorem turns_induction (n done : Nat) {s : Scheduler} (h : P s) : P (turns jobs events n done s) := by
  induction n generalizing s done with
  | zero => exact h
  | succ n ih => exact ih _ (foldl_happen_induction hhappen _ (turn_induction hhappen hstep events done h))

end Induction

variable (reg : Registry) (jobs : List Job)

/-- An evaluation that has come to its state by checks of its own. -/
def HasRun (x : Nat × Progress) : Prop :=
  ∃ j, jobs[x.1]? = some j ∧ Progress.Reaches (reg.circumstances j.proposal j.mode) j.proposal.toValue j.opening x.2

/-- A conclusion on a run of its own, unless a job that was awaited has failed. -/
def HasEnded (entry : Nat × Conclusion) : Prop :=
  ∃ j, jobs[entry.1]? = some j ∧ (j.IsConcluded reg entry.2 ∨ (j.awaits ≠ [] ∧ ∃ f, entry.2 = .failed f))

/-- Whatever has been started or concluded has its own run behind it. -/
structure IsSound (s : Scheduler) : Prop where
  registry : reg.IsLater s.registry
  running : ∀ e ∈ s.running, HasRun reg jobs e.standing
  conclusions : ∀ entry ∈ s.conclusions, HasEnded reg jobs entry

variable {reg jobs} {s : Scheduler}

theorem isSound_opening (slots : Nat) : IsSound reg jobs (opening reg slots) :=
  ⟨.refl reg, by simp [opening], by simp [opening]⟩

theorem IsSound.happen (h : IsSound reg jobs s) (what : Happening) : IsSound reg jobs (s.happen what) := by
  obtain ⟨hrun, -, hconc, hlater⟩ := happen_frame s what
  refine ⟨h.registry.trans hlater, ?_, by rw [hconc]; exact h.conclusions⟩
  intro e he
  have hmem : e.standing ∈ s.running.map Evaluation.standing := hrun ▸ List.mem_map_of_mem he
  obtain ⟨e', he', heq⟩ := List.mem_map.1 hmem
  rw [← heq]
  exact h.running e' he'

theorem IsSound.foldl_happen (h : IsSound reg jobs s) (events : List Event) :
    IsSound reg jobs (events.foldl (fun s e => s.happen e.happening) s) :=
  foldl_happen_induction (fun _ what h => h.happen what) events h

/-! ## Slots -/

theorem IsSound.start (h : IsSound reg jobs s) (n : Nat) : IsSound reg jobs (Scheduler.start jobs s n) := by
  unfold Scheduler.start
  cases hj : jobs[n]? with
  | none => exact h
  | some j =>
    refine ⟨h.registry, ?_, h.conclusions⟩
    intro e he
    rcases List.mem_append.1 he with he | he
    · exact h.running e he
    · obtain rfl := List.mem_singleton.1 he
      exact ⟨j, hj, .start⟩

theorem IsSound.withPool (h : IsSound reg jobs s) (pool : Pool) : IsSound reg jobs { s with pool := pool } :=
  ⟨h.registry, h.running, h.conclusions⟩

theorem IsSound.ask (h : IsSound reg jobs s) (n : Nat) : IsSound reg jobs (Scheduler.ask jobs s n) := by
  unfold Scheduler.ask
  split
  · exact (h.withPool _).start n
  · exact h.withPool _

theorem IsSound.release (h : IsSound reg jobs s) : IsSound reg jobs (Scheduler.release jobs s) := by
  unfold Scheduler.release
  split
  · exact (h.withPool _).start _
  · exact h.withPool _

theorem IsSound.setConclusion (h : IsSound reg jobs s) {n : Nat} {c : Conclusion} (hc : HasEnded reg jobs (n, c)) :
    IsSound reg jobs (s.setConclusion n c) := by
  refine ⟨h.registry, h.running, ?_⟩
  intro entry hentry
  rcases List.mem_append.1 hentry with he | he
  · exact h.conclusions entry he
  · rw [List.mem_singleton.1 he]
    exact hc

theorem IsSound.follow (h : IsSound reg jobs s) (ended n : Nat) :
    IsSound reg jobs (Scheduler.follow jobs ended s n) := by
  unfold Scheduler.follow
  cases hj : jobs[n]? with
  | none => exact h
  | some j =>
    simp only
    split
    · exact h
    · next hopen =>
      split
      · next f hf =>
        refine h.setConclusion ⟨j, hj, .inr ⟨fun hc => hopen ?_, f, rfl⟩⟩
        rw [hc]
        rfl
      · split
        · exact h.ask n
        · exact h

theorem IsSound.foldl_follow (h : IsSound reg jobs s) (ended : Nat) (ns : List Nat) :
    IsSound reg jobs (ns.foldl (Scheduler.follow jobs ended) s) := by
  induction ns generalizing s with
  | nil => exact h
  | cons n rest ih => exact ih (h.follow ended n)

/-! ## Checks -/

theorem step_of_idle (hrun : s.running = []) : step jobs s = s := by
  unfold step
  rw [hrun]

theorem step_of_unknown {e : Evaluation} {rest : List Evaluation} (hrun : s.running = e :: rest)
    (hj : jobs[e.job]? = none) :
    step jobs s = { s with running := rest } := by
  unfold step
  rw [hrun]
  simp only [hj]

/-- **A check takes the evaluation in front to the end of the row, or concludes its job.** -/
theorem step_cases {e : Evaluation} {rest : List Evaluation} {j : Job} (hrun : s.running = e :: rest)
    (hj : jobs[e.job]? = some j) :
    (∃ q, e.progress.check (s.registry.circumstances j.proposal j.mode) j.proposal.toValue e.cancellation = .running q
      ∧ step jobs s = { s with running := rest ++ [{ e with progress := q }] })
    ∨ ∃ r b, e.progress.check (s.registry.circumstances j.proposal j.mode) j.proposal.toValue e.cancellation
      = .ended r b
      ∧ step jobs s = conclude jobs { s with running := rest } e.job j r b.spent := by
  unfold step
  rw [hrun]
  simp only [hj]
  cases hcheck : e.progress.check (s.registry.circumstances j.proposal j.mode) j.proposal.toValue e.cancellation with
  | running q => exact .inl ⟨q, rfl, rfl⟩
  | ended r b => exact .inr ⟨r, b, rfl, rfl⟩

theorem IsSound.conclude (h : IsSound reg jobs s) {n : Nat} {j : Job} {r : Run} {b : Budget} (hj : jobs[n]? = some j)
    (hr : Progress.EndsIn (reg.circumstances j.proposal j.mode) j.proposal.toValue j.opening r b) :
    IsSound reg jobs (Scheduler.conclude jobs s n j r b.spent) := by
  unfold Scheduler.conclude
  refine IsSound.foldl_follow (IsSound.release (IsSound.setConclusion ?_ ?_)) n _
  · exact ⟨h.registry.trans (Registry.isLater_conclude ..), h.running, h.conclusions⟩
  · exact ⟨j, hj, .inl ⟨s.registry, r, b, h.registry, hr, rfl⟩⟩

/-- **A check takes an evaluation further by its own run, or concludes it.** -/
theorem IsSound.step (h : IsSound reg jobs s) : IsSound reg jobs (Scheduler.step jobs s) := by
  cases hrun : s.running with
  | nil => rwa [step_of_idle hrun]
  | cons e rest =>
    have hrest : IsSound reg jobs { s with running := rest } :=
      ⟨h.registry, fun e' he' => h.running e' (by rw [hrun]; exact List.mem_cons_of_mem _ he'), h.conclusions⟩
    obtain ⟨j, hj, hreach⟩ := h.running e (by rw [hrun]; exact List.mem_cons_self)
    change jobs[e.job]? = some j at hj
    rcases step_cases hrun hj with ⟨q, hcheck, hs⟩ | ⟨r, b, hcheck, hs⟩
    · rw [h.registry.circumstances] at hcheck
      rw [hs]
      refine ⟨h.registry, ?_, h.conclusions⟩
      intro e' he'
      rcases List.mem_append.1 he' with he' | he'
      · exact hrest.running e' he'
      · obtain rfl := List.mem_singleton.1 he'
        exact ⟨j, hj, .check hreach (Progress.check_none_of_running hcheck)⟩
    · rw [h.registry.circumstances] at hcheck
      rw [hs]
      exact hrest.conclude hj ⟨e.progress, e.cancellation, hreach, hcheck⟩

theorem IsSound.turns (h : IsSound reg jobs s) (events : List Event) (n done : Nat) :
    IsSound reg jobs (Scheduler.turns jobs events n done s) :=
  turns_induction (fun _ what h => h.happen what) (fun _ h => h.step) events n done h

theorem IsSound.enrol (h : IsSound reg jobs s) : IsSound reg jobs (Scheduler.enrol jobs s) := by
  unfold Scheduler.enrol
  generalize List.range jobs.length = ns
  induction ns generalizing s with
  | nil => exact h
  | cons n rest ih =>
    refine ih ?_
    dsimp only
    split
    · split
      · exact h.ask n
      · exact h
    · exact h

/-- **Whatever a schedule has concluded in the end has its own run behind it.** -/
theorem isSound_run (reg : Registry) (jobs : List Job) (slots : Nat) (events : List Event) :
    IsSound reg jobs (Scheduler.run reg jobs slots events) :=
  (((isSound_opening slots).foldl_happen _).enrol.turns events _ _).foldl_happen _

end Scheduler

end PolicyGates
