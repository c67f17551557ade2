import PolicyGates.Proofs.Scheduler.Moments
/-!
# Quiet schedules

A schedule is quiet if no cancellation fires in it (`IsQuiet`): nothing that happens cancels an evaluation that has
not ended, be it an abort or a timer.  No decision of a quiet schedule is one on a cancelled run (`uncancelled_run`),
and a schedule in which nothing happens is quiet (`isQuiet_nil`).
-/
namespace PolicyGates.Scheduler

variable {jobs : List Job} {reg : Registry} {slots n : Nat} {events : List Event}

/-- **No cancellation fires in the schedule** before the evaluation that it is for has ended. -/
def IsQuiet (reg : Registry) (jobs : List Job) (slots : Nat) (events : List Event) : Prop :=
  ∀ n < jobs.length, IsSpared jobs (opening reg slots) (moves reg jobs slots events) n

/-- **No decision of a quiet schedule is one on a cancelled run.** -/
theorem uncancelled_run (hearlier : AwaitEarlier jobs) (h : IsQuiet reg jobs slots events) {c : Conclusion}
    (hc : (n, c) ∈ (run reg jobs slots events).conclusions) {d : Decision} (hd : c.decision? = .ok d) :
    d.cancelled = false := by
  obtain ⟨j, hj, -⟩ := (isSound_run reg jobs slots events).conclusions _ hc
  refine Bool.eq_false_iff.2 fun hcancelled => ?_
  obtain ⟨before, what, after, reason, hsplit, hcancels⟩ :=
    (tellsCancellation_run hearlier reg slots events hj hc hd).cancelled_iff.1 hcancelled
  exact h n (List.getElem?_eq_some_iff.1 hj).1 before what after reason hsplit hcancels

theorem not_happen_mem_checkMoves (done n made : Nat) (what : Happening) :
    .happen what ∉ checkMoves [] done n made := by
  induction n generalizing made with
  | zero => exact List.not_mem_nil
  | succ n ih => simpa [checkMoves, happenMoves] using ih (made + 1)

theorem not_happen_mem_turnMoves (n done : Nat) (s : Scheduler) (what : Happening) :
    .happen what ∉ turnMoves jobs [] n done s := by
  induction n generalizing done s with
  | zero => exact List.not_mem_nil
  | succ n ih => simpa [turnMoves, happenMoves, overdue, during, not_happen_mem_checkMoves] using ih (done + 1) _

theorem isQuiet_nil (reg : Registry) (jobs : List Job) (slots : Nat) : IsQuiet reg jobs slots [] := by
  intro n _ before what after reason hsplit
  have hmem : .happen what ∈ moves reg jobs slots [] := by
    rw [hsplit]
    exact List.mem_append_right _ List.mem_cons_self
  simp [moves, happenMoves, during, not_happen_mem_turnMoves] at hmem

end PolicyGates.Scheduler
