import PolicyGates.Proofs.Scheduler.Records
/-!
# What a schedule comes to

A schedule touches its registry in two ways only: time goes by, and one job after the other is concluded, at most
once, on a run of its own and after all that it awaits.  Some jobs fail besides, without being evaluated, because one
that they awaited has failed.  Whatever the order in which all this comes and whatever is cancelled, it is all that
there is to a schedule (`comesTo_run`): what holds of a registry and its conclusions in the end is proved by going
through these steps.
-/
namespace PolicyGates.Scheduler

/-- A registry and what has been concluded by then, to which a schedule of jobs may come. -/
inductive ComesTo (reg : Registry) (jobs : List Job) : Registry → List (Nat × Conclusion) → Prop
  | opened : ComesTo reg jobs reg []
  | elapsed {reg' : Registry} {conclusions : List (Nat × Conclusion)}
    (h : ComesTo reg jobs reg' conclusions) (now : Float) :
    ComesTo reg jobs { reg' with elapsed := now } conclusions
  /-- A job is concluded on its own run, once all that it awaits has been decided. -/
  | concluded {reg' : Registry} {conclusions : List (Nat × Conclusion)} {n : Nat} {j : Job} {r : Run} {b : Budget}
    (h : ComesTo reg jobs reg' conclusions) (hj : jobs[n]? = some j) (hopen : ¬Settled conclusions n)
    (hpassed : ∀ a ∈ j.awaits, Passed conclusions a)
    (hends : Progress.EndsIn (reg.circumstances j.proposal j.mode) j.proposal.toValue j.opening r b) :
    ComesTo reg jobs (reg'.conclude j.proposal j.mode r b.spent).1
      (conclusions ++ [(n, (reg'.conclude j.proposal j.mode r b.spent).2)])
  /-- A job fails that awaited one that has failed. -/
  | failed {reg' : Registry} {conclusions : List (Nat × Conclusion)} {n a : Nat} {j : Job} {f : Failure}
    (h : ComesTo reg jobs reg' conclusions) (hj : jobs[n]? = some j) (hopen : ¬Settled conclusions n)
    (ha : a ∈ j.awaits) (hfailed : (a, .failed f) ∈ conclusions) :
    ComesTo reg jobs reg' (conclusions ++ [(n, .failed f)])

variable {jobs : List Job} {reg : Registry} {s : Scheduler} {slots : Nat}

namespace ComesTo

theorem isLater {reg' : Registry} {conclusions : List (Nat × Conclusion)} (h : ComesTo reg jobs reg' conclusions) :
    reg.IsLater reg' := by
  induction h with
  | opened => exact .refl reg
  | elapsed _ now ih => exact ih.trans (.of_eq rfl rfl rfl rfl)
  | concluded _ hj hopen hpassed hends ih => exact ih.trans (Registry.isLater_conclude ..)
  | failed _ hj hopen ha hfailed ih => exact ih

theorem foldl_follow (h : ComesTo reg jobs s.registry s.conclusions) (ended : Nat) (ns : List Nat) :
    ComesTo reg jobs (ns.foldl (follow jobs ended) s).registry (ns.foldl (follow jobs ended) s).conclusions := by
  induction ns generalizing s with
  | nil => exact h
  | cons n rest ih =>
    refine ih ?_
    obtain ⟨hreg, hconc | ⟨j, a, f, hj, hopen, ha, hf, hconc⟩⟩ := follow_registry jobs s ended n
    · rwa [hreg, hconc]
    · rw [hreg, hconc]
      exact h.failed hj hopen ha hf

theorem happen (h : ComesTo reg jobs s.registry s.conclusions) (what : Happening) :
    ComesTo reg jobs (s.happen what).registry (s.happen what).conclusions := by
  cases what with
  | abort reason =>
    unfold Scheduler.happen
    dsimp only
    split <;> exact h
  | advance ms => exact h.elapsed _

/-- **A check leaves the registry alone, or concludes a job** that was not concluded. -/
theorem step (h : ComesTo reg jobs s.registry s.conclusions) (horder : IsOrderly jobs slots s)
    (hsound : IsSound reg jobs s) :
    ComesTo reg jobs (Scheduler.step jobs s).registry (Scheduler.step jobs s).conclusions := by
  cases hrun : s.running with
  | nil => rwa [step_of_idle hrun]
  | cons e rest =>
    obtain ⟨j, hj, hreach⟩ := hsound.running e (by rw [hrun]; exact List.mem_cons_self)
    change jobs[e.job]? = some j at hj
    have hhand : e.job ∈ s.inHand := by simp [inHand, standings, hrun, Evaluation.standing]
    rcases step_cases hrun hj with ⟨q, -, hs⟩ | ⟨r, b, hcheck, hs⟩
    · rwa [hs]
    · rw [hsound.registry.circumstances] at hcheck
      rw [hs, Scheduler.conclude]
      refine foldl_follow ?_ e.job _
      rw [(release_keeps jobs _).1, (release_keeps jobs _).2]
      exact h.concluded hj (horder.tidy.not_settled hhand) (horder.tidy.inHand _ hhand j hj) ⟨_, _, hreach, hcheck⟩

end ComesTo

/-- **What a schedule has come to after each turn**, whatever happens in between. -/
theorem comesTo_afterTurns (hearlier : AwaitEarlier jobs) (reg : Registry) (slots : Nat) (events : List Event)
    (k : Nat) :
    IsSound reg jobs (afterTurns reg jobs slots events k)
      ∧ ComesTo reg jobs (afterTurns reg jobs slots events k).registry
        (afterTurns reg jobs slots events k).conclusions := by
  have hhappen : ∀ (s : Scheduler) (what : Happening),
      IsOrderly jobs slots s ∧ IsSound reg jobs s ∧ ComesTo reg jobs s.registry s.conclusions →
      IsOrderly jobs slots (s.happen what) ∧ IsSound reg jobs (s.happen what)
        ∧ ComesTo reg jobs (s.happen what).registry (s.happen what).conclusions :=
    fun s what hs => ⟨hs.1.happen what, hs.2.1.happen what, hs.2.2.happen what⟩
  have hopening : ComesTo reg jobs (happenings events 0 (opening reg slots)).registry
      (happenings events 0 (opening reg slots)).conclusions :=
    foldl_happen_induction (P := fun s => ComesTo reg jobs s.registry s.conclusions)
      (fun _ what hs => hs.happen what) _ .opened
  rw [← (enrol_keeps jobs _).1, ← (enrol_keeps jobs _).2] at hopening
  refine (turns_induction hhappen ?_ events k 0 ⟨?_, ?_, hopening⟩).2
  · intro s ⟨horderly, hsound, hcomes⟩
    exact ⟨horderly.step hearlier, hsound.step, hcomes.step horderly hsound⟩
  · exact isOrderly_enrol ((isEnrolling_opening reg slots).foldl_happen _)
  · exact ((isSound_opening slots).foldl_happen _).enrol

/-- **What a schedule comes to** in the end. -/
theorem comesTo_run (hearlier : AwaitEarlier jobs) (reg : Registry) (slots : Nat) (events : List Event) :
    ComesTo reg jobs (run reg jobs slots events).registry (run reg jobs slots events).conclusions :=
  foldl_happen_induction (P := fun s => ComesTo reg jobs s.registry s.conclusions) (fun _ what hs => hs.happen what) _
    (comesTo_afterTurns hearlier reg slots events _).2

end PolicyGates.Scheduler
