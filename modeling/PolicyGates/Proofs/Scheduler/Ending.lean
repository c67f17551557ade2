import PolicyGates.Proofs.Scheduler.Waiting
import Mathlib.Data.List.Perm.Subperm
/-!
# Every batch comes to its end

Where jobs await only earlier ones, a schedule that still has a job to conclude has an evaluation that is running
(`IsOrderly.settled_of_idle`): the first job without a conclusion awaits nothing any more, so it has asked for a slot,
and no one is in line while all slots are free.  Every turn in which somebody runs gets some work done
(`work_lt_turn`), and there is only so much of it, so after six turns for each job nobody runs any more (`idle_run`)
and every job has been concluded (`settled_run`).
-/
namespace PolicyGates.Scheduler

variable {jobs : List Job} {s : Scheduler} {slots k : Nat}

/-! ## The start -/

variable (jobs) in
/-- After the jobs with smaller numbers than `k` have been asked whether they await anything. -/
structure IsEnrolling (slots k : Nat) (s : Scheduler) : Prop where
  tidy : IsTidy jobs slots s
  conclusions : s.conclusions = []
  inHand : ∀ n ∈ s.inHand, n < k
  free : ∀ n j, n < k → jobs[n]? = some j → j.awaits = [] → n ∈ s.inHand

theorem isEnrolling_opening (reg : Registry) (slots : Nat) : IsEnrolling jobs slots 0 (opening reg slots) :=
  ⟨⟨⟨rfl, rfl, Nat.zero_le _, fun h => absurd rfl h⟩, by simp [opening, standings], List.nodup_nil,
      by simp [opening, places, inHand, standings, Pool.idle], by simp [opening, inHand, standings, Pool.idle],
      by simp [opening]⟩,
    rfl, by simp [opening, inHand, standings, Pool.idle], by simp⟩

theorem IsEnrolling.happen (h : IsEnrolling jobs slots k s) (what : Happening) :
    IsEnrolling jobs slots k (s.happen what) := by
  obtain ⟨hrun, hpool, hconc, -⟩ := happen_frame s what
  have hhand : (s.happen what).inHand = s.inHand := by
    rw [Scheduler.inHand, show (s.happen what).standings = s.standings from hrun, hpool, Scheduler.inHand]
  refine ⟨h.tidy.of_eq hrun hpool hconc, hconc.trans h.conclusions, ?_, ?_⟩
  · rw [hhand]
    exact h.inHand
  · rw [hhand]
    exact h.free

theorem IsEnrolling.foldl_happen (h : IsEnrolling jobs slots k s) (events : List Event) :
    IsEnrolling jobs slots k (events.foldl (fun s e => s.happen e.happening) s) :=
  foldl_happen_induction (fun _ what h => h.happen what) events h

theorem IsEnrolling.ask (h : IsEnrolling jobs slots k s) {j : Job} (hj : jobs[k]? = some j) (hnil : j.awaits = []) :
    IsEnrolling jobs slots (k + 1) (Scheduler.ask jobs s k) := by
  obtain ⟨hconc, -, hhand, -⟩ := ask_frame hj s
  have hplace : k ∉ s.places := by
    rw [mem_places, h.conclusions]
    rintro (⟨c, hc⟩ | hc)
    · cases hc
    · exact Nat.lt_irrefl k (h.inHand k hc)
  refine ⟨h.tidy.ask hj hplace (by simp [hnil]), hconc.trans h.conclusions, fun n hn => ?_, fun n j' hn hj' hnil' => ?_⟩
  · rcases List.mem_append.1 (hhand.mem_iff.1 hn) with hn | hn
    · exact Nat.lt_succ_of_lt (h.inHand n hn)
    · rw [List.mem_singleton.1 hn]
      exact Nat.lt_succ_self k
  · rw [hhand.mem_iff, List.mem_append, List.mem_singleton]
    rcases Nat.lt_succ_iff_lt_or_eq.1 hn with hn | rfl
    · exact .inl (h.free n j' hn hj' hnil')
    · exact .inr rfl

theorem isEnrolling_foldl (h : IsEnrolling jobs slots 0 s) (hk : k ≤ jobs.length) :
    IsEnrolling jobs slots k ((List.range k).foldl (fun s n =>
      match jobs[n]? with
      | some j => if j.awaits.isEmpty then Scheduler.ask jobs s n else s
      | none => s) s) := by
  induction k with
  | zero => exact h
  | succ k ih =>
    have ih := ih (Nat.le_of_lt hk)
    have hj : jobs[k]? = some jobs[k] := List.getElem?_eq_getElem hk
    rw [List.range_succ, List.foldl_append, List.foldl_cons, List.foldl_nil]
    simp only [hj]
    split
    · next hnil => exact ih.ask hj (List.isEmpty_iff.1 hnil)
    · next hne =>
      refine ⟨ih.tidy, ih.conclusions, fun n hn => Nat.lt_succ_of_lt (ih.inHand n hn), fun n j hn hjn hnil => ?_⟩
      rcases Nat.lt_succ_iff_lt_or_eq.1 hn with hn | rfl
      · exact ih.free n j hn hjn hnil
      · obtain rfl := Option.some.inj (hj.symm.trans hjn)
        exact absurd (List.isEmpty_iff.2 hnil) hne

/-- **Once all jobs have been asked, whoever awaits something is held back.** -/
theorem isOrderly_enrol (h : IsEnrolling jobs slots 0 s) : IsOrderly jobs slots (enrol jobs s) := by
  have henrolled : IsEnrolling jobs slots jobs.length (enrol jobs s) := isEnrolling_foldl h (Nat.le_refl _)
  refine ⟨henrolled.tidy, fun n j hj hn => ?_⟩
  have hne : j.awaits ≠ [] := fun hnil =>
    hn (mem_places.2 (.inr (henrolled.free n j (List.getElem?_eq_some_iff.1 hj).1 hj hnil)))
  obtain ⟨a, ha⟩ := List.exists_mem_of_ne_nil _ hne
  rw [henrolled.conclusions]
  exact ⟨⟨a, ha, fun ⟨c, hc⟩ => by cases hc⟩, fun a _ ⟨f, hf⟩ => by cases hf⟩

/-! ## Runs -/

/-- A schedule after so many turns, and after what happens by the end of each of them. -/
def afterTurns (reg : Registry) (jobs : List Job) (slots : Nat) (events : List Event) (k : Nat) : Scheduler :=
  turns jobs events k 0 (enrol jobs (happenings events 0 (opening reg slots)))

theorem IsOrderly.foldl_happen (h : IsOrderly jobs slots s) (events : List Event) :
    IsOrderly jobs slots (events.foldl (fun s e => s.happen e.happening) s) :=
  foldl_happen_induction (fun _ what h => h.happen what) events h

section Runs

variable (hearlier : AwaitEarlier jobs)
include hearlier

theorem IsOrderly.turn (h : IsOrderly jobs slots s) (events : List Event) (done : Nat) :
    IsOrderly jobs slots (Scheduler.turn jobs events done s) :=
  turn_induction (fun _ what h => h.happen what) (fun _ h => h.step hearlier) events done h

theorem IsOrderly.turns (h : IsOrderly jobs slots s) (events : List Event) (n done : Nat) :
    IsOrderly jobs slots (Scheduler.turns jobs events n done s) :=
  turns_induction (fun _ what h => h.happen what) (fun _ h => h.step hearlier) events n done h

theorem isOrderly_afterTurns (reg : Registry) (slots : Nat) (events : List Event) (k : Nat) :
    IsOrderly jobs slots (afterTurns reg jobs slots events k) :=
  (isOrderly_enrol ((isEnrolling_opening reg slots).foldl_happen _)).turns hearlier events k 0

/-- **Everybody is in order at the end.** -/
theorem isOrderly_run (reg : Registry) (slots : Nat) (events : List Event) :
    IsOrderly jobs slots (run reg jobs slots events) :=
  (isOrderly_afterTurns hearlier reg slots events _).foldl_happen _

/-- **No schedule is stuck.**  If nobody runs, every job has been concluded. -/
theorem IsOrderly.settled_of_idle (h : IsOrderly jobs slots s) (hslots : 1 ≤ slots) (hidle : s.standings = []) {n : Nat}
    (hn : n < jobs.length) : Settled s.conclusions n := by
  have hline : s.pool.waiting = [] := by
    by_contra hc
    have := h.tidy.pool.full hc
    rw [hidle, List.length_nil] at this
    omega
  induction n using Nat.strong_induction_on with
  | _ n ih =>
    by_contra hopen
    have hplace : n ∉ s.places := by
      rw [mem_places, inHand, hidle, hline]
      simp [hopen]
    obtain ⟨⟨a, ha, hset⟩, -⟩ := h.heldBack n _ (List.getElem?_eq_getElem hn) hplace
    have hlt := hearlier n _ (List.getElem?_eq_getElem hn) a ha
    exact hset (ih a hlt (hlt.trans hn))

end Runs

/-! ## Work -/

/-- How many checks evaluations have made. -/
def checksMade : List (Nat × Progress) → Nat
  | [] => 0
  | x :: rest => Gate.all.length - x.2.ahead.length + checksMade rest

/-- The checks that have been made, where a job that has been concluded counts as if it had made all of them. -/
def work (s : Scheduler) : Nat := Gate.all.length * s.conclusions.length + checksMade s.standings

theorem checksMade_append (xs ys : List (Nat × Progress)) : checksMade (xs ++ ys) = checksMade xs + checksMade ys := by
  induction xs with
  | nil => rw [List.nil_append, checksMade, Nat.zero_add]
  | cons x rest ih => rw [List.cons_append, checksMade, ih, checksMade, Nat.add_assoc]

theorem checksMade_le {xs : List (Nat × Progress)} (h : ∀ x ∈ xs, IsAtWork x.2) :
    checksMade xs + xs.length ≤ Gate.all.length * xs.length := by
  induction xs with
  | nil => exact Nat.le_refl _
  | cons x rest ih =>
    obtain ⟨hx, hrest⟩ := List.forall_mem_cons.1 h
    have := ih hrest
    obtain ⟨hpos, hle⟩ := hx
    rw [checksMade, List.length_cons, Nat.mul_succ]
    omega

theorem exists_running (hrun : s.standings ≠ []) : ∃ e rest, s.running = e :: rest :=
  List.exists_cons_of_ne_nil (fun hc => hrun (List.map_eq_nil_iff.2 hc))

theorem work_start (s : Scheduler) (n : Nat) : (start jobs s n).work = s.work := by
  unfold start
  split
  · rfl
  · next j hj =>
    rw [work, standings, List.map_append, checksMade_append]
    rfl

theorem work_ask (s : Scheduler) (n : Nat) : (ask jobs s n).work = s.work := by
  unfold ask
  split
  · exact work_start _ n
  · rfl

theorem work_release (s : Scheduler) : (release jobs s).work = s.work := by
  unfold release
  split
  · exact work_start _ _
  · rfl

theorem work_setConclusion (s : Scheduler) (n : Nat) (c : Conclusion) :
    (s.setConclusion n c).work = s.work + Gate.all.length := by
  show Gate.all.length * (s.conclusions ++ [(n, c)]).length + checksMade s.standings = _
  rw [List.length_append, List.length_singleton, Nat.mul_succ, work]
  omega

theorem work_le_follow (ended n : Nat) (s : Scheduler) : s.work ≤ (follow jobs ended s n).work := by
  unfold follow
  split
  · exact Nat.le_refl _
  · split
    · exact Nat.le_refl _
    · split
      · rw [work_setConclusion]
        exact Nat.le_add_right _ _
      · split
        · rw [work_ask]
        · exact Nat.le_refl _

theorem work_le_foldl_follow (ended : Nat) (ns : List Nat) (s : Scheduler) :
    s.work ≤ (ns.foldl (follow jobs ended) s).work := by
  induction ns generalizing s with
  | nil => exact Nat.le_refl _
  | cons n rest ih => exact (work_le_follow ended n s).trans (ih _)

/-- **Every check gets some work done.** -/
theorem work_lt_step (h : IsOrderly jobs slots s) (hrun : s.standings ≠ []) : s.work < (step jobs s).work := by
  obtain ⟨e, rest, hcons⟩ := exists_running hrun
  have hst : s.standings = (e.job, e.progress) :: rest.map Evaluation.standing := by
    rw [standings, hcons, List.map_cons]
    rfl
  obtain ⟨hpos, hle⟩ := h.tidy.atWork (e.job, e.progress) (by rw [hst]; exact List.mem_cons_self)
  rw [work, hst, checksMade]
  rcases h.step_cases hcons with ⟨q, hs, h0, h1⟩ | ⟨j, r, b, -, hs⟩
  · rw [hs, work, standings, List.map_append, checksMade_append, List.map_singleton, checksMade, checksMade]
    change 0 < e.progress.ahead.length at hpos
    change e.progress.ahead.length ≤ _ at hle
    show _ < Gate.all.length * s.conclusions.length
      + (checksMade (rest.map Evaluation.standing) + (Gate.all.length - q.ahead.length + 0))
    show _ + (Gate.all.length - e.progress.ahead.length + _) < _
    omega
  · rw [hs]
    refine Nat.lt_of_lt_of_le ?_ (work_le_foldl_follow _ _ _)
    rw [work_release, work_setConclusion]
    show Gate.all.length * s.conclusions.length
      + (Gate.all.length - e.progress.ahead.length + checksMade (rest.map Evaluation.standing))
      < Gate.all.length * s.conclusions.length + checksMade (rest.map Evaluation.standing) + Gate.all.length
    change 0 < e.progress.ahead.length at hpos
    change e.progress.ahead.length ≤ _ at hle
    omega

theorem IsTidy.length_places_le (h : IsTidy jobs slots s) :
    s.conclusions.length + s.standings.length ≤ jobs.length := by
  have hsub : s.places ⊆ List.range jobs.length := fun n hn => List.mem_range.2 (h.lt n hn)
  have hle := (List.subperm_of_subset h.nodup hsub).length_le
  rw [places, Scheduler.inHand, List.length_append, List.length_append, List.length_map, List.length_map,
    List.length_range] at hle
  omega

theorem IsOrderly.work_le (h : IsOrderly jobs slots s) : s.work + s.standings.length ≤ turnsFor jobs.length := by
  have hlen := h.tidy.length_places_le
  have hchecks := checksMade_le h.tidy.atWork
  have hmul := Nat.mul_le_mul_left Gate.all.length hlen
  rw [Nat.mul_add] at hmul
  unfold turnsFor work
  omega

section Runs

variable (hearlier : AwaitEarlier jobs)
include hearlier

omit hearlier in
theorem work_foldl_happen (s : Scheduler) (events : List Event) :
    (events.foldl (fun s e => s.happen e.happening) s).work = s.work := by
  obtain ⟨hst, -, hconc, -⟩ := foldl_happen_frame s events
  rw [work, standings, hst, hconc]
  rfl

theorem work_le_checks (h : IsOrderly jobs slots s) (events : List Event) (done n made : Nat) :
    s.work ≤ (checks jobs events done n made s).work := by
  refine (checks_induction (P := fun t => IsOrderly jobs slots t ∧ s.work ≤ t.work) (fun t what ht => ?_)
    (fun t ht => ?_)
    events done n made ⟨h, Nat.le_refl _⟩).2
  · exact ⟨ht.1.happen what, ht.2.trans_eq (work_foldl_happen t [⟨0, what⟩]).symm⟩
  · refine ⟨ht.1.step hearlier, ht.2.trans ?_⟩
    by_cases hrun : t.standings = []
    · rw [step_of_idle (List.map_eq_nil_iff.1 hrun)]
    · exact Nat.le_of_lt (work_lt_step ht.1 hrun)

/-- **Every turn gets some work done**, if somebody runs. -/
theorem work_lt_turn (h : IsOrderly jobs slots s) (hrun : s.standings ≠ []) (events : List Event) (done : Nat) :
    s.work < (turn jobs events done s).work := by
  obtain ⟨e, rest, hcons⟩ := exists_running hrun
  unfold turn
  simp only [work_foldl_happen, hcons, List.length_cons, checks]
  have hfirst := work_lt_step h hrun
  rw [← work_foldl_happen (step jobs s) (events.filter fun e => e.after = ⟨done, 0 + 1⟩)] at hfirst
  exact hfirst.trans_le (work_le_checks hearlier ((h.step hearlier).foldl_happen _) events done _ _)

omit hearlier in
theorem idle_turns (hidle : s.standings = []) (events : List Event) (n done : Nat) :
    (turns jobs events n done s).standings = [] := by
  refine turns_induction (P := fun t => t.standings = []) (fun t what ht => ?_) (fun t ht => ?_) events n done hidle
  · exact (happen_frame t what).1.trans ht
  · rwa [step_of_idle (List.map_eq_nil_iff.1 ht)]

/-- **As many turns get as much work done**, or nobody is left to do it. -/
theorem idle_or_work_le_turns (h : IsOrderly jobs slots s) (events : List Event) (n done : Nat) :
    (turns jobs events n done s).standings = [] ∨ s.work + n ≤ (turns jobs events n done s).work := by
  induction n generalizing s done with
  | zero => exact .inr (Nat.le_refl _)
  | succ n ih =>
    by_cases hrun : s.standings = []
    · exact .inl (idle_turns hrun events _ _)
    · have hturn := work_lt_turn hearlier h hrun events done
      have hlater : (happenings events (done + 1 : Nat) (turn jobs events done s)).work
        = (turn jobs events done s).work :=
        work_foldl_happen _ _
      have hnext : IsOrderly jobs slots (happenings events (done + 1 : Nat) (turn jobs events done s)) :=
        (h.turn hearlier events done).foldl_happen _
      refine (ih hnext (done + 1)).imp_right fun hle => Nat.le_trans ?_ hle
      omega

/-- **Nobody runs any more after as many turns as are enough.** -/
theorem idle_afterTurns (reg : Registry) (slots : Nat) (events : List Event) (hk : turnsFor jobs.length ≤ k) :
    (afterTurns reg jobs slots events k).standings = [] := by
  have hstart := isOrderly_afterTurns hearlier reg slots events 0
  rcases idle_or_work_le_turns hearlier hstart events k 0 with hidle | hle
  · exact hidle
  · change _ ≤ (afterTurns reg jobs slots events k).work at hle
    have := (isOrderly_afterTurns hearlier reg slots events k).work_le
    exact List.eq_nil_of_length_eq_zero (by omega)

/-- **Nobody runs any more in the end.** -/
theorem idle_run (reg : Registry) (slots : Nat) (events : List Event) : (run reg jobs slots events).standings = [] := by
  exact (foldl_happen_frame _ _).1.trans (idle_afterTurns hearlier reg slots events (Nat.le_refl _))

/-- **Every job is concluded in the end**, once. -/
theorem settled_run (reg : Registry) (hslots : 1 ≤ slots) (events : List Event) {n : Nat} (hn : n < jobs.length) :
    Settled (run reg jobs slots events).conclusions n :=
  (isOrderly_run hearlier reg slots events).settled_of_idle hearlier hslots (idle_run hearlier reg slots events) hn

end Runs

end PolicyGates.Scheduler
