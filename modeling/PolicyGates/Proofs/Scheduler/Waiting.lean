import PolicyGates.Proofs.Pool.Slots
import PolicyGates.Proofs.Scheduler.Turns
import Mathlib.Data.List.Nodup
import Mathlib.Tactic.Tauto
/-!
# Who waits for what

A job that has neither been concluded nor asked for a slot is held back by a job that it awaits and that has not been
concluded; none that it awaits has failed.  A job that has a slot, or stands in line for one, awaits nothing any more.
Slots are handed on, never lost and never left free while somebody is in line.  All of this, and that each job has one
place only, is `IsOrderly`; a check keeps it (`IsOrderly.step`), and so does whatever happens between checks
(`IsOrderly.happen`).  Between the end of a job and what follows from it for the others it holds for those that have
been gone through (`IsFollowing`).
-/
namespace PolicyGates

namespace Scheduler

/-! ## Conclusions -/

/-- The job has been concluded. -/
def Settled (conclusions : List (Nat × Conclusion)) (n : Nat) : Prop := ∃ c, (n, c) ∈ conclusions

def Failed (conclusions : List (Nat × Conclusion)) (n : Nat) : Prop := ∃ f, (n, .failed f) ∈ conclusions

/-- The job has been concluded with a decision. -/
def Passed (conclusions : List (Nat × Conclusion)) (n : Nat) : Prop := Settled conclusions n ∧ ¬Failed conclusions n

/-- A job is concluded after all that it awaits, or fails after one of these. -/
def IsDue (jobs : List Job) (before : List (Nat × Conclusion)) (entry : Nat × Conclusion) : Prop :=
  ∃ j, jobs[entry.1]? = some j ∧ ((∀ a ∈ j.awaits, Passed before a)
    ∨ ((∃ a ∈ j.awaits, Failed before a) ∧ ∃ f, entry.2 = .failed f))

variable {jobs : List Job} {s : Scheduler} {conclusions : List (Nat × Conclusion)} {n m : Nat} {c : Conclusion}

theorem settled_iff : Settled conclusions n ↔ n ∈ conclusions.map Prod.fst := by
  constructor
  · rintro ⟨c, h⟩
    exact List.mem_map_of_mem h
  · intro h
    obtain ⟨⟨m, c⟩, hm, rfl⟩ := List.mem_map.1 h
    exact ⟨c, hm⟩

theorem settled_concat : Settled (conclusions ++ [(m, c)]) n ↔ Settled conclusions n ∨ n = m := by
  simp [settled_iff]

theorem Failed.concat (h : Failed conclusions n) : Failed (conclusions ++ [(m, c)]) n := by
  obtain ⟨f, hf⟩ := h
  exact ⟨f, List.mem_append_left _ hf⟩

theorem failed_concat_of_ne (h : n ≠ m) : Failed (conclusions ++ [(m, c)]) n ↔ Failed conclusions n := by
  simp [Failed, h]

theorem Failed.settled (h : Failed conclusions n) : Settled conclusions n := by
  obtain ⟨f, hf⟩ := h
  exact ⟨_, hf⟩

theorem Passed.concat (h : Passed conclusions n) (hm : ¬Settled conclusions m) :
    Passed (conclusions ++ [(m, c)]) n := by
  have hne : n ≠ m := fun hc => hm (hc ▸ h.1)
  exact ⟨settled_concat.2 (.inl h.1), fun hf => h.2 ((failed_concat_of_ne hne).1 hf)⟩

/-- Each job is concluded once, so looking for its conclusion finds it. -/
theorem conclusion?_eq_some_iff (hnodup : (s.conclusions.map Prod.fst).Nodup) :
    s.conclusion? n = some c ↔ (n, c) ∈ s.conclusions := by
  unfold conclusion?
  generalize s.conclusions = cs at hnodup
  induction cs with
  | nil => simp
  | cons x rest ih =>
    obtain ⟨m, c'⟩ := x
    rw [List.map_cons, List.nodup_cons] at hnodup
    by_cases h : n = m
    · subst h
      have hrest : (n, c) ∉ rest := fun hc => hnodup.1 (List.mem_map.2 ⟨_, hc, rfl⟩)
      simp [hrest, eq_comm]
    · rw [List.lookup_cons, beq_eq_false_iff_ne.2 h, List.mem_cons]
      simp [h, ih hnodup.2]

theorem conclusion?_isSome_iff : (s.conclusion? n).isSome = true ↔ Settled s.conclusions n := by
  unfold conclusion?
  rw [List.lookup_isSome_iff]
  constructor
  · rintro ⟨⟨m, c⟩, h, hm⟩
    obtain rfl : n = m := eq_of_beq hm
    exact ⟨c, h⟩
  · rintro ⟨c, h⟩
    exact ⟨(n, c), h, beq_self_eq_true n⟩

theorem failureAmong_eq_none (hnodup : (s.conclusions.map Prod.fst).Nodup) (awaits : List Nat) :
    s.failureAmong awaits = none ↔ ∀ a ∈ awaits, ¬Failed s.conclusions a := by
  unfold failureAmong
  rw [List.findSome?_eq_none_iff]
  refine forall₂_congr fun a _ => ?_
  cases hc : s.conclusion? a with
  | none =>
    have hopen : ¬Settled s.conclusions a := by
      rw [← conclusion?_isSome_iff, hc]
      simp
    exact ⟨fun _ hf => hopen hf.settled, fun _ => rfl⟩
  | some c =>
    have hmem := (conclusion?_eq_some_iff hnodup).1 hc
    have hfailed : Failed s.conclusions a ↔ ∃ f, c = .failed f := by
      constructor
      · rintro ⟨f, hf⟩
        exact ⟨f, Option.some.inj (hc.symm.trans ((conclusion?_eq_some_iff hnodup).2 hf))⟩
      · rintro ⟨f, rfl⟩
        exact ⟨f, hmem⟩
    rw [hfailed]
    cases c <;> simp

/-! ## Places -/

/-- How far the started evaluations are. -/
def standings (s : Scheduler) : List (Nat × Progress) := s.running.map Evaluation.standing

/-- The jobs that have a slot or stand in line for one. -/
def inHand (s : Scheduler) : List Nat := s.standings.map Prod.fst ++ s.pool.waiting

/-- The jobs that have been concluded, have a slot or stand in line for one. -/
def places (s : Scheduler) : List Nat := s.conclusions.map Prod.fst ++ s.inHand

/-- Something that the job awaits has not been concluded, and none of it has failed. -/
def IsHeldBack (conclusions : List (Nat × Conclusion)) (j : Job) : Prop :=
  (∃ a ∈ j.awaits, ¬Settled conclusions a) ∧ ∀ a ∈ j.awaits, ¬Failed conclusions a

/-- An evaluation has a gate ahead of it, and no more gates than there are. -/
def IsAtWork (q : Progress) : Prop := 0 < q.ahead.length ∧ q.ahead.length ≤ Gate.all.length

variable (jobs) in
/-- Each job has one place, and has it in its turn. -/
structure IsTidy (slots : Nat) (s : Scheduler) : Prop where
  pool : s.pool.Serves slots s.standings.length
  atWork : ∀ x ∈ s.standings, IsAtWork x.2
  nodup : s.places.Nodup
  lt : ∀ n ∈ s.places, n < jobs.length
  inHand : ∀ n ∈ s.inHand, ∀ j, jobs[n]? = some j → ∀ a ∈ j.awaits, Passed s.conclusions a
  due : ∀ before entry after, s.conclusions = before ++ entry :: after → IsDue jobs before entry

variable (jobs) in
/-- Each job has one place, or is held back. -/
structure IsOrderly (slots : Nat) (s : Scheduler) : Prop where
  tidy : IsTidy jobs slots s
  heldBack : ∀ n j, jobs[n]? = some j → n ∉ s.places → IsHeldBack s.conclusions j

variable (jobs) in
/-- Where the jobs with smaller numbers than `k` have been gone through for what the end of one job means for them. -/
structure IsFollowing (slots ended k : Nat) (s : Scheduler) : Prop where
  tidy : IsTidy jobs slots s
  settled : Settled s.conclusions ended
  heldBack : ∀ n j, n < k → jobs[n]? = some j → n ∉ s.places → IsHeldBack s.conclusions j
  /-- Whoever has been in hand before did not await that end. -/
  free : ∀ n j, k ≤ n → jobs[n]? = some j → n ∈ s.inHand → ended ∉ j.awaits
  /-- Whoever has no place yet awaits something still, or did so until that end. -/
  waiting : ∀ n j, k ≤ n → jobs[n]? = some j → n ∉ s.places →
    ended ∈ j.awaits ∨ ∃ a ∈ j.awaits, ¬Settled s.conclusions a ∨ Failed s.conclusions a

/-- Jobs await only jobs with smaller numbers. -/
def AwaitEarlier (jobs : List Job) : Prop := ∀ (n : Nat) (j : Job), jobs[n]? = some j → ∀ a ∈ j.awaits, a < n

variable {slots k ended : Nat}

theorem IsTidy.nodup_conclusions (h : IsTidy jobs slots s) : (s.conclusions.map Prod.fst).Nodup :=
  (List.nodup_append.1 h.nodup).1

theorem mem_places : n ∈ s.places ↔ Settled s.conclusions n ∨ n ∈ s.inHand := by
  rw [places, List.mem_append, settled_iff]

theorem IsTidy.not_settled (h : IsTidy jobs slots s) (hn : n ∈ s.inHand) : ¬Settled s.conclusions n := by
  intro hc
  exact (List.nodup_append.1 h.nodup).2.2 n (settled_iff.1 hc) n hn rfl

theorem notMem_places {s' : Scheduler} (h : s'.places.Perm (s.places ++ [k])) (hn : n ∉ s'.places) :
    n ∉ s.places ∧ n ≠ k := by
  rwa [h.mem_iff, List.mem_append, List.mem_singleton, not_or] at hn

theorem places_setConclusion (s : Scheduler) (n : Nat) (c : Conclusion) :
    (s.setConclusion n c).places.Perm (s.places ++ [n]) := by
  show ((s.conclusions ++ [(n, c)]).map Prod.fst ++ s.inHand).Perm ((s.conclusions.map Prod.fst ++ s.inHand) ++ [n])
  rw [List.map_append, List.append_assoc, List.append_assoc]
  exact List.Perm.append_left _ List.perm_append_comm

theorem IsTidy.places_concat {s' : Scheduler} (h : IsTidy jobs slots s) {j : Job} (hj : jobs[n]? = some j)
    (hn : n ∉ s.places) (hplaces : s'.places.Perm (s.places ++ [n])) :
    s'.places.Nodup ∧ ∀ m ∈ s'.places, m < jobs.length := by
  refine ⟨?_, fun m hm => ?_⟩
  · rw [hplaces.nodup_iff]
    exact List.nodup_append.2
      ⟨h.nodup, List.nodup_singleton n, fun a ha b hb hab => hn (List.mem_singleton.1 hb ▸ hab ▸ ha)⟩
  · rcases List.mem_append.1 (hplaces.mem_iff.1 hm) with hm | hm
    · exact h.lt m hm
    · rw [List.mem_singleton.1 hm]
      exact (List.getElem?_eq_some_iff.1 hj).1

theorem IsTidy.of_eq {s' : Scheduler} (h : IsTidy jobs slots s) (hrun : s'.standings = s.standings)
    (hpool : s'.pool = s.pool) (hconc : s'.conclusions = s.conclusions) :
    IsTidy jobs slots s' := by
  have hhand : s'.inHand = s.inHand := by rw [Scheduler.inHand, Scheduler.inHand, hrun, hpool]
  have hplaces : s'.places = s.places := by rw [places, places, hhand, hconc]
  refine ⟨?_, ?_, ?_, ?_, ?_, ?_⟩
  · rw [hrun, hpool]
    exact h.pool
  · rw [hrun]
    exact h.atWork
  · rw [hplaces]
    exact h.nodup
  · rw [hplaces]
    exact h.lt
  · rw [hhand, hconc]
    exact h.inHand
  · rw [hconc]
    exact h.due

/-! ## Slots -/

theorem isAtWork_opening (j : Job) : IsAtWork j.opening := by
  show 0 < Gate.all.length ∧ Gate.all.length ≤ Gate.all.length
  decide

theorem ask_cases {j : Job} (hj : jobs[n]? = some j) (s : Scheduler) :
    (s.pool.active < s.pool.size ∧ ∃ e : Evaluation, e.standing = (n, j.opening)
      ∧ ask jobs s n = { s with pool := { s.pool with active := s.pool.active + 1 }, running := s.running ++ [e] })
    ∨ (s.pool.size ≤ s.pool.active
      ∧ ask jobs s n = { s with pool := { s.pool with waiting := s.pool.waiting ++ [n] } }) := by
  unfold ask Pool.ask start
  by_cases hfull : s.pool.size ≤ s.pool.active
  · rw [if_pos hfull]
    exact .inr ⟨hfull, rfl⟩
  · rw [if_neg hfull]
    simp only [hj]
    exact .inl ⟨Nat.lt_of_not_le hfull, _, rfl, rfl⟩

theorem release_cases (hline : ∀ n ∈ s.pool.waiting, n < jobs.length) :
    (s.pool.waiting = [] ∧ release jobs s = { s with pool := { s.pool with active := s.pool.active - 1 } })
    ∨ ∃ next rest j, s.pool.waiting = next :: rest ∧ jobs[next]? = some j
      ∧ ∃ e : Evaluation, e.standing = (next, j.opening)
      ∧ release jobs s = { s with pool := { s.pool with waiting := rest }, running := s.running ++ [e] } := by
  unfold release Pool.release start
  cases hw : s.pool.waiting with
  | nil => exact .inl ⟨rfl, by simp only [hw]⟩
  | cons next rest =>
    have hlt : next < jobs.length := hline next (by simp [hw])
    have hnext : jobs[next]? = some jobs[next] := List.getElem?_eq_getElem hlt
    refine .inr ⟨next, rest, _, rfl, hnext, ?_⟩
    simp only [hnext]
    exact ⟨_, rfl, rfl⟩

theorem standings_concat {s' : Scheduler} {e : Evaluation} {x : Nat × Progress} (h : s'.running = s.running ++ [e])
    (he : e.standing = x) : s'.standings = s.standings ++ [x] := by
  rw [standings, h, List.map_append, List.map_singleton, he]
  rfl

/-- **A slot that an evaluation leaves is handed on or becomes free.** -/
theorem release_frame {slots : Nat} (hpool : s.pool.Serves slots (s.standings.length + 1))
    (hwork : ∀ x ∈ s.standings, IsAtWork x.2) (hline : ∀ n ∈ s.pool.waiting, n < jobs.length) :
    (release jobs s).conclusions = s.conclusions ∧ (release jobs s).registry = s.registry
      ∧ (release jobs s).inHand.Perm s.inHand ∧ (release jobs s).pool.Serves slots (release jobs s).standings.length
      ∧ (∀ x ∈ (release jobs s).standings, IsAtWork x.2)
      ∧ ((release jobs s).standings = s.standings
        ∨ ∃ n j, (release jobs s).standings = s.standings ++ [(n, Job.opening j)]) := by
  obtain ⟨hsize, hactive, hle, hfull⟩ := hpool
  rcases release_cases hline with ⟨hnil, hr⟩ | ⟨next, line, j, hline, -, e, he, hr⟩
  · have hst : (release jobs s).standings = s.standings := by rw [hr]; rfl
    refine ⟨by rw [hr], by rw [hr], ?_, ?_, by rw [hst]; exact hwork, .inl hst⟩
    · rw [inHand, hst, show (release jobs s).pool.waiting = s.pool.waiting by rw [hr], inHand]
    · rw [hst, hr]
      exact ⟨hsize, by show s.pool.active - 1 = _; omega, by omega, fun hw => absurd hnil hw⟩
  · have hst : (release jobs s).standings = s.standings ++ [(next, j.opening)] := standings_concat (by rw [hr]) he
    have hwaiting : (release jobs s).pool.waiting = line := by rw [hr]
    refine ⟨by rw [hr], by rw [hr], ?_, ?_, ?_, .inr ⟨next, j, hst⟩⟩
    · rw [inHand, hst, hwaiting, inHand, hline, List.map_append, List.append_assoc]
      rfl
    · rw [hst, List.length_append, List.length_singleton, hr]
      exact ⟨hsize, hactive, hle, fun _ => hfull (by rw [hline]; simp)⟩
    · rw [hst]
      exact List.forall_mem_append.2 ⟨hwork, List.forall_mem_singleton.2 (isAtWork_opening j)⟩

theorem ask_frame {j : Job} (hj : jobs[n]? = some j) (s : Scheduler) :
    (ask jobs s n).conclusions = s.conclusions ∧ (ask jobs s n).registry = s.registry
      ∧ (ask jobs s n).inHand.Perm (s.inHand ++ [n])
      ∧ ((ask jobs s n).standings = s.standings ∨ (ask jobs s n).standings = s.standings ++ [(n, j.opening)]) := by
  rcases ask_cases hj s with ⟨-, e, he, hask⟩ | ⟨-, hask⟩
  · have hst : (ask jobs s n).standings = s.standings ++ [(n, j.opening)] := standings_concat (by rw [hask]) he
    refine ⟨by rw [hask], by rw [hask], ?_, .inr hst⟩
    have hwait : (ask jobs s n).pool.waiting = s.pool.waiting := by rw [hask]
    rw [inHand, hst, hwait, List.map_append, inHand, List.append_assoc, List.append_assoc]
    exact List.Perm.append_left _ List.perm_append_comm
  · have hst : (ask jobs s n).standings = s.standings := by rw [hask]; rfl
    refine ⟨by rw [hask], by rw [hask], ?_, .inl hst⟩
    have hwait : (ask jobs s n).pool.waiting = s.pool.waiting ++ [n] := by rw [hask]
    rw [inHand, hst, hwait, inHand, List.append_assoc]

theorem places_ask {j : Job} (hj : jobs[n]? = some j) (s : Scheduler) :
    (ask jobs s n).places.Perm (s.places ++ [n]) := by
  obtain ⟨hconc, -, hhand, -⟩ := ask_frame hj s
  rw [places, hconc, places, List.append_assoc]
  exact hhand.append_left _

/-- **A job that awaits nothing any more may ask for a slot.** -/
theorem IsTidy.ask (h : IsTidy jobs slots s) {j : Job} (hj : jobs[n]? = some j) (hn : n ∉ s.places)
    (hawaits : ∀ a ∈ j.awaits, Passed s.conclusions a) : IsTidy jobs slots (Scheduler.ask jobs s n) := by
  obtain ⟨hconc, -, hhand, hst⟩ := ask_frame hj s
  obtain ⟨hnodup, hlt⟩ := h.places_concat hj hn (places_ask hj s)
  refine ⟨?_, ?_, hnodup, hlt, ?_, by rw [hconc]; exact h.due⟩
  · obtain ⟨hsize, hactive, hle, hfull⟩ := h.pool
    rcases ask_cases hj s with ⟨hfree, e, he, hask⟩ | ⟨hbusy, hask⟩
    · rw [standings_concat (by rw [hask]) he, List.length_append, List.length_singleton, hask]
      refine ⟨hsize, congrArg (· + 1) hactive, by omega, fun hw => ?_⟩
      have := hfull hw
      omega
    · rw [show (Scheduler.ask jobs s n).standings = s.standings by rw [hask]; rfl, hask]
      exact ⟨hsize, hactive, hle, fun _ => by omega⟩
  · intro x hx
    rcases hst with hst | hst
    · exact h.atWork x (hst ▸ hx)
    · rw [hst] at hx
      rcases List.mem_append.1 hx with hx | hx
      · exact h.atWork x hx
      · rw [List.mem_singleton.1 hx]
        exact isAtWork_opening j
  · intro m hm j' hj'
    rw [hconc]
    rcases List.mem_append.1 (hhand.mem_iff.1 hm) with hm | hm
    · exact h.inHand m hm j' hj'
    · rw [List.mem_singleton.1 hm, hj] at hj'
      obtain rfl := Option.some.inj hj'
      exact hawaits

theorem due_concat {entry : Nat × Conclusion}
    (h : ∀ before x after, conclusions = before ++ x :: after → IsDue jobs before x)
    (hentry : IsDue jobs conclusions entry) :
    ∀ before x after, conclusions ++ [entry] = before ++ x :: after → IsDue jobs before x := by
  intro before x after hsplit
  rcases split_concat hsplit with ⟨rfl, rfl, -⟩ | ⟨after', -, hsplit⟩
  · exact hentry
  · exact h before x after' hsplit

/-- **A job without a place fails after one that it awaits.** -/
theorem IsTidy.setFailed (h : IsTidy jobs slots s) {j : Job} (hj : jobs[n]? = some j) (hn : n ∉ s.places)
    (hfailed : ∃ a ∈ j.awaits, Failed s.conclusions a) (f : Failure) :
    IsTidy jobs slots (s.setConclusion n (.failed f)) := by
  have hopen : ¬Settled s.conclusions n := fun hc => hn (mem_places.2 (.inl hc))
  obtain ⟨hnodup, hlt⟩ := h.places_concat hj hn (places_setConclusion s n _)
  have hdue := due_concat h.due (show IsDue jobs s.conclusions (n, .failed f) from ⟨j, hj, .inr ⟨hfailed, f, rfl⟩⟩)
  exact ⟨h.pool, h.atWork, hnodup, hlt, fun m hm j' hj' a ha => (h.inHand m hm j' hj' a ha).concat hopen, hdue⟩

/-! ## What follows from an end -/

theorem follow_cases (h : IsTidy jobs slots s) {j : Job} (hj : jobs[n]? = some j) (ended : Nat) :
    ((j.awaits = [] ∨ Settled s.conclusions n) ∧ follow jobs ended s n = s)
    ∨ ((∃ a ∈ j.awaits, Failed s.conclusions a) ∧ ¬Settled s.conclusions n
      ∧ ∃ f, follow jobs ended s n = s.setConclusion n (.failed f))
    ∨ ((∀ a ∈ j.awaits, Passed s.conclusions a) ∧ ended ∈ j.awaits ∧ ¬Settled s.conclusions n
      ∧ follow jobs ended s n = ask jobs s n)
    ∨ ((∀ a ∈ j.awaits, ¬Failed s.conclusions a) ∧ (ended ∉ j.awaits ∨ ∃ a ∈ j.awaits, ¬Settled s.conclusions a)
      ∧ follow jobs ended s n = s) := by
  unfold follow
  simp only [hj]
  split
  · next hskip =>
    rw [Bool.or_eq_true, List.isEmpty_iff, conclusion?_isSome_iff] at hskip
    exact .inl ⟨hskip, rfl⟩
  · next hskip =>
    rw [Bool.or_eq_true, not_or, List.isEmpty_iff, conclusion?_isSome_iff] at hskip
    have hnone := failureAmong_eq_none h.nodup_conclusions j.awaits
    split
    · next f hf =>
      refine .inr (.inl ⟨?_, hskip.2, f, rfl⟩)
      by_contra hc
      rw [hf] at hnone
      cases hnone.2 fun a ha hfa => hc ⟨a, ha, hfa⟩
    · next hf =>
      have hpassed := hnone.1 hf
      have hall : j.awaits.all (fun a => (s.conclusion? a).isSome) = true
        ↔ ∀ a ∈ j.awaits, Settled s.conclusions a := by
        simp only [List.all_eq_true, conclusion?_isSome_iff]
      split
      · next hc => exact .inr (.inr (.inl ⟨fun a ha => ⟨hall.1 hc.2 a ha, hpassed a ha⟩, hc.1, hskip.2, rfl⟩))
      · next hc =>
        refine .inr (.inr (.inr ⟨hpassed, ?_, rfl⟩))
        by_contra hopen
        refine hc ⟨?_, hall.2 fun a ha => ?_⟩
        · by_contra hended
          exact hopen (.inl hended)
        · by_contra hset
          exact hopen (.inr ⟨a, ha, hset⟩)

theorem IsFollowing.pass (h : IsFollowing jobs slots ended k s) {j : Job} (hj : jobs[k]? = some j)
    (hheld : k ∉ s.places → IsHeldBack s.conclusions j) : IsFollowing jobs slots ended (k + 1) s := by
  refine ⟨h.tidy, h.settled, fun n j' hn hj' hp => ?_, fun n j' hn => h.free n j' (by omega),
    fun n j' hn => h.waiting n j' (by omega)⟩
  rcases Nat.lt_succ_iff_lt_or_eq.1 hn with hn | rfl
  · exact h.heldBack n j' hn hj' hp
  · obtain rfl := Option.some.inj (hj.symm.trans hj')
    exact hheld hp

theorem IsFollowing.setFailed (hearlier : AwaitEarlier jobs) (h : IsFollowing jobs slots ended k s) {j : Job}
    (hj : jobs[k]? = some j) (hopen : ¬Settled s.conclusions k) (hfailed : ∃ a ∈ j.awaits, Failed s.conclusions a)
    (f : Failure) :
    IsFollowing jobs slots ended (k + 1) (s.setConclusion k (.failed f)) := by
  have hplace : k ∉ s.places := by
    rw [mem_places]
    rintro (hc | hc)
    · exact hopen hc
    · obtain ⟨a, ha, hfa⟩ := hfailed
      exact (h.tidy.inHand k hc _ hj a ha).2 hfa
  have hplaces := places_setConclusion s k (.failed f)
  refine ⟨h.tidy.setFailed hj hplace hfailed f, settled_concat.2 (.inl h.settled), ?_,
    fun n j hn => h.free n j (by omega), ?_⟩
  · intro n j' hn hj' hp
    obtain ⟨hp, hne⟩ := notMem_places hplaces hp
    have hlt : n < k := by omega
    obtain ⟨⟨a, ha, hopen'⟩, hnot⟩ := h.heldBack n j' hlt hj' hp
    -- jobs before `k` do not await it, so its failure holds none of them back less, and fails none
    have hak : ∀ a ∈ j'.awaits, a ≠ k := fun a ha => by
      have := hearlier n j' hj' a ha
      omega
    refine ⟨⟨a, ha, fun hc => ?_⟩, fun a ha hfa => hnot a ha ((failed_concat_of_ne (hak a ha)).1 hfa)⟩
    exact (settled_concat.1 hc).elim hopen' (hak a ha)
  · intro n j' hn hj' hp
    refine (h.waiting n j' (by omega) hj' (notMem_places hplaces hp).1).imp_right ?_
    rintro ⟨a, ha, hwait⟩
    refine ⟨a, ha, ?_⟩
    by_cases hak : a = k
    · exact .inr ⟨f, by rw [hak]; exact List.mem_append_right _ List.mem_cons_self⟩
    · refine hwait.imp (fun hc hset => ?_) Failed.concat
      exact (settled_concat.1 hset).elim hc hak

theorem IsFollowing.ask (h : IsFollowing jobs slots ended k s) {j : Job} (hj : jobs[k]? = some j)
    (hopen : ¬Settled s.conclusions k)
    (hpassed : ∀ a ∈ j.awaits, Passed s.conclusions a) (hended : ended ∈ j.awaits) :
    IsFollowing jobs slots ended (k + 1) (Scheduler.ask jobs s k) := by
  have hplace : k ∉ s.places := by
    rw [mem_places]
    rintro (hc | hc)
    · exact hopen hc
    · exact h.free k _ (Nat.le_refl k) hj hc hended
  have hplaces := places_ask hj s
  obtain ⟨hconc, -, hhand, -⟩ := ask_frame hj s
  refine ⟨h.tidy.ask hj hplace hpassed, by rw [hconc]; exact h.settled, ?_, ?_, ?_⟩
  · intro n j' hn hj' hp
    obtain ⟨hp, hne⟩ := notMem_places hplaces hp
    rw [hconc]
    exact h.heldBack n j' (by omega) hj' hp
  · intro n j' hn hj' hh
    rcases List.mem_append.1 (hhand.mem_iff.1 hh) with hh | hh
    · exact h.free n j' (by omega) hj' hh
    · have := List.mem_singleton.1 hh
      omega
  · intro n j' hn hj' hp
    rw [hconc]
    exact h.waiting n j' (by omega) hj' (notMem_places hplaces hp).1

/-- **One more job has been gone through.** -/
theorem IsFollowing.follow (hearlier : AwaitEarlier jobs) (h : IsFollowing jobs slots ended k s)
    (hk : k < jobs.length) :
    IsFollowing jobs slots ended (k + 1) (Scheduler.follow jobs ended s k) := by
  have hj : jobs[k]? = some jobs[k] := List.getElem?_eq_getElem hk
  rcases follow_cases h.tidy hj ended with
    ⟨hskip, hf⟩ | ⟨hfailed, hopen, f, hf⟩ | ⟨hpassed, hended, hopen, hf⟩ | ⟨hnot, hleft, hf⟩
  · rw [hf]
    refine h.pass hj fun hp => ?_
    rcases hskip with hnil | hset
    · rcases h.waiting k _ (Nat.le_refl k) hj hp with hc | ⟨a, ha, -⟩
      · simp [hnil] at hc
      · simp [hnil] at ha
    · exact absurd (mem_places.2 (.inl hset)) hp
  · rw [hf]
    exact h.setFailed hearlier hj hopen hfailed f
  · rw [hf]
    exact h.ask hj hopen hpassed hended
  · rw [hf]
    refine h.pass hj fun hp => ⟨?_, hnot⟩
    rcases hleft with hended | hopen
    · rcases h.waiting k _ (Nat.le_refl k) hj hp with hc | ⟨a, ha, hc | hc⟩
      · exact absurd hc hended
      · exact ⟨a, ha, hc⟩
      · exact absurd hc (hnot a ha)
    · exact hopen

theorem IsFollowing.foldl_follow (hearlier : AwaitEarlier jobs) (h : IsFollowing jobs slots ended 0 s)
    (hk : k ≤ jobs.length) :
    IsFollowing jobs slots ended k ((List.range k).foldl (Scheduler.follow jobs ended) s) := by
  induction k with
  | zero => exact h
  | succ k ih =>
    rw [List.range_succ, List.foldl_append, List.foldl_cons, List.foldl_nil]
    exact (ih (Nat.le_of_lt hk)).follow hearlier hk

/-! ## Checks -/

theorem IsTidy.release_frame (h : IsTidy jobs slots s) {e : Evaluation} {rest : List Evaluation}
    (hrun : s.running = e :: rest) (registry : Registry) (c : Conclusion) {s' : Scheduler}
    (hs' : Scheduler.release jobs (setConclusion { s with running := rest, registry := registry } e.job c) = s') :
    s'.conclusions = s.conclusions ++ [(e.job, c)] ∧ s.inHand.Perm (e.job :: s'.inHand)
      ∧ s'.pool.Serves slots s'.standings.length ∧ ∀ x ∈ s'.standings, IsAtWork x.2 := by
  generalize hs₀ : setConclusion { s with running := rest, registry := registry } e.job c = s₀ at hs'
  have hconc : s₀.conclusions = s.conclusions ++ [(e.job, c)] := by rw [← hs₀]; rfl
  have hpool : s₀.pool = s.pool := by rw [← hs₀]; rfl
  have hst : s.standings = e.standing :: s₀.standings := by rw [standings, hrun, ← hs₀]; rfl
  have hinHand : s.inHand = e.job :: s₀.inHand := by rw [Scheduler.inHand, hst, Scheduler.inHand, hpool]; rfl
  have hwork : ∀ x ∈ s₀.standings, IsAtWork x.2 := fun x hx => h.atWork x (by rw [hst]; exact List.mem_cons_of_mem _ hx)
  have hline : ∀ n ∈ s₀.pool.waiting, n < jobs.length := fun n hn =>
    h.lt n (mem_places.2 (.inr (by rw [hinHand]; exact List.mem_cons_of_mem _ (List.mem_append_right _ hn))))
  have hserves : s₀.pool.Serves slots (s₀.standings.length + 1) := by
    rw [hpool, ← List.length_cons, ← hst]
    exact h.pool
  obtain ⟨hconc', -, hhand, hserves', hwork', -⟩ := Scheduler.release_frame hserves hwork hline
  rw [hs'] at hconc' hhand hserves' hwork'
  exact ⟨hconc'.trans hconc, by rw [hinHand]; exact hhand.symm.cons _, hserves', hwork'⟩

/-- **An evaluation ends and hands its slot on.** -/
theorem IsOrderly.release (h : IsOrderly jobs slots s) {e : Evaluation} {rest : List Evaluation}
    (hrun : s.running = e :: rest) (registry : Registry) (c : Conclusion) :
    IsFollowing jobs slots e.job 0
      (Scheduler.release jobs (setConclusion { s with running := rest, registry := registry } e.job c)) := by
  obtain ⟨htidy, hheld⟩ := h
  generalize hs' : Scheduler.release jobs (setConclusion { s with running := rest, registry := registry } e.job c) = s'
  obtain ⟨hconc, hhand, hserves, hwork⟩ := htidy.release_frame hrun registry c hs'
  have hmem : e.job ∈ s.inHand := hhand.mem_iff.2 List.mem_cons_self
  have hrest : ∀ n ∈ s'.inHand, n ∈ s.inHand := fun n hn => hhand.mem_iff.2 (List.mem_cons_of_mem _ hn)
  have hopen := htidy.not_settled hmem
  obtain ⟨j, hj⟩ : ∃ j, jobs[e.job]? = some j := ⟨_, List.getElem?_eq_getElem (htidy.lt _ (mem_places.2 (.inr hmem)))⟩
  have hplaces : s'.places.Perm s.places := by
    rw [places, hconc, List.map_append, List.map_singleton, List.append_assoc, places]
    exact hhand.symm.append_left _
  refine ⟨⟨hserves, hwork, hplaces.nodup_iff.2 htidy.nodup, fun n hn => htidy.lt n (hplaces.mem_iff.1 hn), ?_, ?_⟩,
    ?_, ?_, ?_, ?_⟩
  · intro n hn j' hj' a ha
    rw [hconc]
    exact (htidy.inHand n (hrest n hn) j' hj' a ha).concat hopen
  · rw [hconc]
    exact due_concat htidy.due ⟨j, hj, .inl (htidy.inHand _ hmem j hj)⟩
  · rw [hconc]
    exact settled_concat.2 (.inr rfl)
  · intro n j hn
    omega
  · intro n j' _ hj' hn hc
    exact hopen (htidy.inHand n (hrest n hn) j' hj' _ hc).1
  · intro n j' _ hj' hn
    obtain ⟨⟨a, ha, hset⟩, -⟩ := hheld n j' hj' (fun hc => hn (hplaces.mem_iff.2 hc))
    by_cases hae : a = e.job
    · exact .inl (hae ▸ ha)
    · refine .inr ⟨a, ha, .inl fun hc => ?_⟩
      rw [hconc, settled_concat] at hc
      exact hc.elim hset hae

/-- What follows from an end is over once all jobs have been gone through. -/
theorem IsFollowing.isOrderly (h : IsFollowing jobs slots ended jobs.length s) : IsOrderly jobs slots s :=
  ⟨h.tidy, fun n j hj hn => h.heldBack n j (List.getElem?_eq_some_iff.1 hj).1 hj hn⟩

theorem IsOrderly.of_eq {s' : Scheduler} (h : IsOrderly jobs slots s) (hrun : s'.standings = s.standings)
    (hpool : s'.pool = s.pool) (hconc : s'.conclusions = s.conclusions) :
    IsOrderly jobs slots s' := by
  refine ⟨h.tidy.of_eq hrun hpool hconc, ?_⟩
  rw [places, inHand, hrun, hpool, hconc]
  exact h.heldBack

/-- **What happens between checks takes nobody's place.** -/
theorem IsOrderly.happen (h : IsOrderly jobs slots s) (what : Happening) : IsOrderly jobs slots (s.happen what) := by
  obtain ⟨hrun, hpool, hconc, -⟩ := happen_frame s what
  exact h.of_eq hrun hpool hconc

/-- A check takes the evaluation in front one gate further, or ends it. -/
theorem IsOrderly.step_cases (h : IsOrderly jobs slots s) {e : Evaluation} {rest : List Evaluation}
    (hrun : s.running = e :: rest) :
    (∃ q, step jobs s = { s with running := rest ++ [{ e with progress := q }] } ∧ 0 < q.ahead.length
      ∧ e.progress.ahead.length = q.ahead.length + 1)
    ∨ ∃ j r b, jobs[e.job]? = some j ∧ step jobs s = conclude jobs { s with running := rest } e.job j r b := by
  have hlt : e.job < jobs.length :=
    h.tidy.lt _ (mem_places.2 (.inr (by simp [inHand, standings, hrun, Evaluation.standing])))
  have hj : jobs[e.job]? = some jobs[e.job] := List.getElem?_eq_getElem hlt
  rcases Scheduler.step_cases hrun hj with ⟨q, hcheck, hs⟩ | ⟨r, b, -, hs⟩
  · obtain ⟨h0, h1⟩ := Progress.ahead_of_running (Progress.check_none_of_running hcheck)
    exact .inl ⟨q, hs, h0, h1⟩
  · exact .inr ⟨_, r, _, hj, hs⟩

theorem IsOrderly.advance (h : IsOrderly jobs slots s) {e : Evaluation} {rest : List Evaluation}
    (hrun : s.running = e :: rest) {q : Progress} (h0 : 0 < q.ahead.length)
    (h1 : e.progress.ahead.length = q.ahead.length + 1) :
    IsOrderly jobs slots { s with running := rest ++ [{ e with progress := q }] } := by
  generalize hs' : ({ s with running := rest ++ [{ e with progress := q }] } : Scheduler) = s'
  have hst : s.standings = e.standing :: rest.map Evaluation.standing := by rw [standings, hrun, List.map_cons]
  have hst' : s'.standings = rest.map Evaluation.standing ++ [(e.job, q)] := by
    rw [standings, ← hs', List.map_append]
    rfl
  have hpool : s'.pool = s.pool := by rw [← hs']
  have hconc : s'.conclusions = s.conclusions := by rw [← hs']
  have hhand : s'.inHand.Perm s.inHand := by
    rw [inHand, hst', hpool, inHand, hst, List.map_append]
    exact List.perm_append_comm.append_right _
  have hplaces : s'.places.Perm s.places := by
    rw [places, hconc, places]
    exact hhand.append_left _
  obtain ⟨⟨hserves, hwork, hnodup, hlt, hin, hdue⟩, hheld⟩ := h
  rw [hst] at hserves hwork
  refine ⟨⟨?_, ?_, hplaces.nodup_iff.2 hnodup, fun n hn => hlt n (hplaces.mem_iff.1 hn), ?_, by rwa [hconc]⟩, ?_⟩
  · rw [hst', hpool, List.length_append, List.length_singleton]
    exact hserves
  · rw [hst']
    have hle : e.progress.ahead.length ≤ Gate.all.length := (hwork _ List.mem_cons_self).2
    refine List.forall_mem_append.2
      ⟨fun x hx => hwork x (List.mem_cons_of_mem _ hx), List.forall_mem_singleton.2 ⟨h0, ?_⟩⟩
    show q.ahead.length ≤ _
    omega
  · rw [hconc]
    exact fun n hn => hin n (hhand.mem_iff.1 hn)
  · rw [hconc]
    exact fun n j hj hn => hheld n j hj (fun hc => hn (hplaces.mem_iff.2 hc))

/-- **A check keeps everybody in order.** -/
theorem IsOrderly.step (hearlier : AwaitEarlier jobs) (h : IsOrderly jobs slots s) :
    IsOrderly jobs slots (Scheduler.step jobs s) := by
  cases hrun : s.running with
  | nil => rwa [step_of_idle hrun]
  | cons e rest =>
    rcases h.step_cases hrun with ⟨q, hs, h0, h1⟩ | ⟨j, r, b, -, hs⟩
    · rw [hs]
      exact h.advance hrun h0 h1
    · rw [hs]
      exact ((h.release hrun _ _).foldl_follow hearlier (Nat.le_refl _)).isOrderly

end Scheduler

end PolicyGates
