import Mathlib.Algebra.BigOperators.Group.List.Basic
import PolicyGates.Pool.Shift
import PolicyGates.Proofs.Double.Order
import PolicyGates.Proofs.Pool.Shared
/-!
# The service of a pool

Tasks start in the order in which they were handed in, each of them once, and all of them come to their ends: what is
still to be done gets less with every task that goes on (`todo_goOn`), and while anything is to be done somebody is at
work.  One start keeps the order (`IsServing.start`), hence every act and every slot that is passed on keeps it.
-/
namespace PolicyGates.Pool.Shift

variable {tasks : List Task} {size n : Nat} {handed : List Nat} {s : Shift} {w : Work}

/-- The tasks that have started, in the order in which they did. -/
def starts (s : Shift) : List Nat := s.events.filterMap fun
  | .started n => some n
  | .ended _ => none

@[simp]
theorem starts_finish (s : Shift) (n : Nat) (outcome : Except Failure Value) :
    (s.finish n outcome).starts = s.starts := by
  simp [starts, finish]

def turnsOf (tasks : List Task) (n : Nat) : Nat := (tasks[n]?.map Task.turns).getD 0

/-- The turns of work that are needed by the tasks at work, by those in line and by those that were not handed in
yet. -/
def todo (tasks : List Task) (s : Shift) : Nat :=
  (s.working.map Work.left).sum + (s.pool.waiting.map (turnsOf tasks)).sum + ((tasks.drop s.asked).map Task.turns).sum

/-- The shift in the middle of a round, where the tasks named have been handed a slot and have not started. -/
structure IsServing (tasks : List Task) (size : Nat) (handed : List Nat) (s : Shift) : Prop where
  pool : s.pool.Serves size (handed.length + s.working.length + s.freed)
  asked : s.asked ≤ tasks.length
  order : s.starts ++ handed ++ s.pool.waiting = List.range s.asked
  places : (s.working.map Work.task ++ s.settled.map Prod.fst).Perm s.starts
  told : ∀ entry ∈ s.settled, tasks[entry.1]?.map Task.outcome = some entry.2
  left : ∀ w ∈ s.working, 0 < w.left

theorem IsServing.lt_of_mem (h : IsServing tasks size handed s) (hn : n ∈ s.starts ++ handed ++ s.pool.waiting) :
    n < tasks.length :=
  Nat.lt_of_lt_of_le (List.mem_range.1 (h.order ▸ hn)) h.asked

theorem IsServing.lt_of_working (h : IsServing tasks size handed s) (hw : w ∈ s.working) : w.task < tasks.length := by
  have hmem : w.task ∈ s.starts := h.places.mem_iff.1 (List.mem_append_left _ (List.mem_map_of_mem hw))
  exact h.lt_of_mem (List.mem_append_left _ (List.mem_append_left _ hmem))

theorem IsServing.finish (h : IsServing tasks size [] s) {rest : List Work} (hworking : s.working.Perm (w :: rest))
    {t : Task} (ht : tasks[w.task]? = some t) :
    IsServing tasks size [] ({ s with working := rest }.finish w.task t.outcome) where
  pool := by
    have hpool := h.pool
    rw [hworking.length_eq, List.length_cons] at hpool
    simpa [Shift.finish, Nat.add_assoc, Nat.add_comm 1] using hpool
  asked := h.asked
  order := by simpa [starts, Shift.finish] using h.order
  places := by
    rw [starts_finish]
    refine List.Perm.trans (List.perm_iff_count.2 fun m => ?_) h.places
    have := (hworking.map Work.task).count_eq m
    simp only [Shift.finish, List.map_cons, List.map_nil, List.map_append, List.count_append, List.count_cons,
      List.count_nil] at this ⊢
    omega
  told := by
    simp only [Shift.finish, List.forall_mem_append, List.forall_mem_singleton, ht, Option.map_some, and_true]
    exact h.told
  left := fun v hv => h.left v (hworking.mem_iff.2 (List.mem_cons_of_mem _ hv))

/-- **Who is handed a slot starts next.** -/
theorem IsServing.start (h : IsServing tasks size [n] s) : IsServing tasks size [] (start tasks s n) := by
  have hn : n < tasks.length := h.lt_of_mem (by simp)
  obtain ⟨hpool, hasked, horder, hplaces, htold, hleft⟩ := h
  unfold Shift.start
  simp only [List.getElem?_eq_getElem hn]
  split
  · refine ⟨?_, hasked, ?_, ?_, ?_, hleft⟩
    · simpa [Shift.finish, Nat.add_comm, Nat.add_left_comm] using hpool
    · simpa [starts, Shift.finish] using horder
    · simp only [starts, Shift.finish, List.filterMap_append, List.map_append, ← List.append_assoc] at hplaces ⊢
      simpa using hplaces.append_right [n]
    · simp only [Shift.finish, List.forall_mem_append, List.forall_mem_singleton, List.getElem?_eq_getElem hn,
        Option.map_some, and_true]
      exact htold
  · next hturns =>
    refine ⟨?_, hasked, ?_, ?_, htold, ?_⟩
    · simpa [Nat.add_comm, Nat.add_left_comm] using hpool
    · simpa [starts] using horder
    · refine List.perm_iff_count.2 fun m => ?_
      have := hplaces.count_eq m
      simp only [starts, List.map_append, List.filterMap_append, List.count_append] at this ⊢
      simp at this ⊢
      omega
    · simp only [List.forall_mem_append, List.forall_mem_singleton]
      exact ⟨hleft, Nat.pos_of_ne_zero hturns⟩

/-- **Who asks for a slot while one is free finds nobody in line**, and who asks while none is free is last in it. -/
theorem IsServing.ask (h : IsServing tasks size [] s) (hlt : s.asked < tasks.length) :
    IsServing tasks size [] (ask tasks { s with asked := s.asked + 1 } s.asked) := by
  unfold Shift.ask
  have horder := h.order
  rw [List.append_nil] at horder
  rcases h.pool.ask s.asked with ⟨pool, hask, hsame, hserves⟩ | ⟨pool, hask, hlast, hserves⟩
  · have hnobody : s.pool.waiting = [] := by
      by_contra hne
      -- a slot is free, so the line is empty
      have hfull := h.pool.full hne
      have hle := hserves.le
      omega
    rw [hnobody, List.append_nil] at horder
    simp only [hask]
    refine IsServing.start ⟨?_, hlt, ?_, h.places, h.told, h.left⟩
    · simpa [Nat.add_comm, Nat.add_left_comm, Nat.add_assoc] using hserves
    · rw [List.range_succ, ← horder]
      simp [starts, hsame, hnobody]
  · simp only [hask]
    refine ⟨hserves, hlt, ?_, h.places, h.told, h.left⟩
    rw [List.range_succ, ← horder]
    simp [starts, hlast]

/-- **Who is at work goes on, or comes to its end.** -/
theorem IsServing.goOn (h : IsServing tasks size [] s) {rest : List Work} (hworking : s.working.Perm (w :: rest)) :
    IsServing tasks size [] (goOn tasks { s with working := rest } w) := by
  have hw : w.task < tasks.length := h.lt_of_working (hworking.mem_iff.2 List.mem_cons_self)
  have ht : tasks[w.task]? = some tasks[w.task] := List.getElem?_eq_getElem hw
  unfold Shift.goOn
  split
  · rw [ht]
    exact h.finish hworking ht
  · have hback : (rest ++ [{ w with left := w.left - 1 }]).length = s.working.length := by simp [hworking.length_eq]
    refine ⟨?_, h.asked, h.order, ?_, h.told, ?_⟩
    · show s.pool.Serves size (0 + (rest ++ [{ w with left := w.left - 1 }]).length + s.freed)
      rw [hback]
      exact h.pool
    · refine List.Perm.trans (List.perm_iff_count.2 fun m => ?_) h.places
      have := (hworking.map Work.task).count_eq m
      simp only [List.map_append, List.map_cons, List.map_nil, List.count_append, List.count_cons,
        List.count_nil] at this ⊢
      omega
    · have hleft := List.forall_mem_cons.1 fun v hv => h.left v (hworking.mem_iff.2 hv)
      simp only [List.forall_mem_append, List.forall_mem_singleton]
      exact ⟨hleft.2, by omega⟩

/-- **A slot that is passed on goes to the first in line.** -/
theorem IsServing.passOn (h : IsServing tasks size [] s) (hfreed : s.freed ≠ 0) :
    IsServing tasks size [] (passOn tasks s) := by
  have hpool := h.pool
  obtain ⟨freed, hsucc⟩ := Nat.exists_eq_succ_of_ne_zero hfreed
  rw [hsucc] at hpool
  unfold Shift.passOn
  rcases hpool.release with ⟨pool, hrelease, hline, hline', hserves⟩ | ⟨pool, next, hrelease, hline, hserves⟩
  · simp only [hrelease, hsucc]
    refine ⟨hserves, h.asked, ?_, h.places, h.told, h.left⟩
    simpa [starts, hline, hline'] using h.order
  · simp only [hrelease, hsucc]
    refine IsServing.start ⟨?_, h.asked, ?_, h.places, h.told, h.left⟩
    · simpa [Nat.add_comm, Nat.add_left_comm, Nat.add_assoc] using hserves
    · simpa [starts, hline] using h.order

theorem IsServing.act (h : IsServing tasks size [] s) (a : Act) : IsServing tasks size [] (act tasks s a) := by
  cases a with
  | handedIn =>
    rw [Shift.act]
    split
    · next hlt => exact h.ask hlt
    · exact h
  | wentOn place =>
    rw [Shift.act]
    cases hplace : s.working[place]? with
    | none => exact h
    | some w => exact h.goOn (SharedPool.perm_of_getElem? hplace)
  | passedOn =>
    rw [Shift.act]
    split
    · exact h
    · next hfreed => exact h.passOn hfreed

theorem IsServing.passAllOn (h : IsServing tasks size [] s) (n : Nat) :
    IsServing tasks size [] (passAllOn tasks n s) := by
  induction n generalizing s with
  | zero => exact h
  | succ n ih =>
    unfold Shift.passAllOn
    split
    · exact h
    · next hfreed => exact ih (h.passOn hfreed)

/-! ## What is still to be done -/

theorem todo_start (tasks : List Task) (s : Shift) (n : Nat) :
    todo tasks (start tasks s n) = todo tasks s + turnsOf tasks n := by
  unfold Shift.start turnsOf
  cases tasks[n]? with
  | none => rfl
  | some t =>
    by_cases hturns : t.turns = 0
    · simp [hturns, todo, Shift.finish]
    · simp [hturns, todo]
      omega

theorem todo_ask (hlt : s.asked < tasks.length) :
    todo tasks (ask tasks { s with asked := s.asked + 1 } s.asked) = todo tasks s := by
  have hdrop : ((tasks.drop s.asked).map Task.turns).sum
      = turnsOf tasks s.asked + ((tasks.drop (s.asked + 1)).map Task.turns).sum := by
    rw [List.drop_eq_getElem_cons hlt, List.map_cons, List.sum_cons, turnsOf, List.getElem?_eq_getElem hlt]
    rfl
  unfold Shift.ask Pool.ask
  by_cases hfull : s.pool.size ≤ s.pool.active
  · simp only [if_pos hfull, todo, hdrop, List.map_append, List.map_cons, List.map_nil, List.sum_append,
      List.sum_cons, List.sum_nil]
    omega
  · simp only [if_neg hfull, todo_start]
    simp only [todo, hdrop]
    omega

/-- **Every task that goes on gets one turn of the work done.** -/
theorem todo_goOn (h : IsServing tasks size [] s) {rest : List Work} (hworking : s.working.Perm (w :: rest)) :
    todo tasks (goOn tasks { s with working := rest } w) + 1 = todo tasks s := by
  have hmem : w ∈ s.working := hworking.mem_iff.2 List.mem_cons_self
  have hpos := h.left w hmem
  have hsum : (s.working.map Work.left).sum = w.left + (rest.map Work.left).sum := by
    rw [(hworking.map Work.left).sum_eq, List.map_cons, List.sum_cons]
  unfold Shift.goOn
  simp only [List.getElem?_eq_getElem (h.lt_of_working hmem)]
  split
  · simp only [todo, Shift.finish, hsum]
    omega
  · simp only [todo, hsum, List.map_append, List.map_cons, List.map_nil, List.sum_append, List.sum_cons, List.sum_nil]
    omega

theorem todo_passOn (tasks : List Task) (s : Shift) : todo tasks (passOn tasks s) = todo tasks s := by
  unfold Shift.passOn Pool.release
  cases hwaiting : s.pool.waiting with
  | nil => simp [todo, hwaiting]
  | cons next rest =>
    simp only [hwaiting, todo_start]
    simp [todo, hwaiting]
    omega

theorem todo_passAllOn (tasks : List Task) (n : Nat) (s : Shift) : todo tasks (passAllOn tasks n s) = todo tasks s := by
  induction n generalizing s with
  | zero => rfl
  | succ n ih =>
    unfold Shift.passAllOn
    split
    · rfl
    · rw [ih, todo_passOn]

theorem todo_act_le (h : IsServing tasks size [] s) (a : Act) : todo tasks (act tasks s a) ≤ todo tasks s := by
  cases a with
  | handedIn =>
    rw [Shift.act]
    split
    · next hlt => exact (todo_ask hlt).le
    · exact Nat.le_refl _
  | wentOn place =>
    rw [Shift.act]
    cases hplace : s.working[place]? with
    | none => exact Nat.le_refl _
    | some w => exact Nat.le_of_succ_le (todo_goOn h (SharedPool.perm_of_getElem? hplace)).le
  | passedOn =>
    rw [Shift.act]
    split
    · exact Nat.le_refl _
    · exact (todo_passOn tasks s).le

/-! ## Who was handed in -/

theorem asked_start (tasks : List Task) (s : Shift) (n : Nat) :
    (start tasks s n).asked = s.asked ∧ (start tasks s n).pool = s.pool ∧ (start tasks s n).freed ≤ s.freed + 1 := by
  unfold Shift.start
  cases tasks[n]? with
  | none => simp
  | some t => by_cases hturns : t.turns = 0 <;> simp [hturns, Shift.finish]

theorem asked_passOn (tasks : List Task) (s : Shift) : (passOn tasks s).asked = s.asked := by
  unfold Shift.passOn
  dsimp only
  split <;> simp [asked_start]

theorem asked_act (tasks : List Task) (s : Shift) (a : Act) : s.asked ≤ (act tasks s a).asked
    ∧ (a = .handedIn → s.asked < tasks.length → (act tasks s a).asked = s.asked + 1) := by
  cases a with
  | handedIn =>
    rw [Shift.act]
    by_cases hlt : s.asked < tasks.length
    · have hask : (ask tasks { s with asked := s.asked + 1 } s.asked).asked = s.asked + 1 := by
        unfold Shift.ask
        split <;> simp [asked_start]
      rw [if_pos hlt, hask]
      exact ⟨Nat.le_succ _, fun _ _ => rfl⟩
    · rw [if_neg hlt]
      exact ⟨Nat.le_refl _, fun _ h => absurd h hlt⟩
  | wentOn place =>
    refine ⟨?_, fun h => by cases h⟩
    rw [Shift.act]
    cases s.working[place]? with
    | none => exact Nat.le_refl _
    | some w =>
      dsimp only
      unfold Shift.goOn
      split
      · cases tasks[w.task]? <;> exact Nat.le_refl _
      · exact Nat.le_refl _
  | passedOn =>
    refine ⟨?_, fun h => by cases h⟩
    rw [Shift.act]
    split
    · exact Nat.le_refl _
    · exact (asked_passOn tasks s).ge

theorem asked_passAllOn (tasks : List Task) (n : Nat) (s : Shift) : (passAllOn tasks n s).asked = s.asked := by
  induction n generalizing s with
  | zero => rfl
  | succ n ih =>
    unfold Shift.passAllOn
    split
    · rfl
    · rw [ih, asked_passOn]

theorem le_asked_acts (tasks : List Task) (acts : List Act) (s : Shift) :
    s.asked ≤ (acts.foldl (act tasks) s).asked := by
  induction acts generalizing s with
  | nil => exact Nat.le_refl _
  | cons a rest ih => exact (asked_act tasks s a).1.trans (ih _)

theorem freed_passOn_lt (tasks : List Task) {s : Shift} (hfreed : s.freed ≠ 0) :
    (passOn tasks s).freed + (passOn tasks s).pool.waiting.length < s.freed + s.pool.waiting.length := by
  unfold Shift.passOn Pool.release
  cases hwaiting : s.pool.waiting with
  | nil =>
    simp [hwaiting]
    omega
  | cons next rest =>
    obtain ⟨-, hpool, hle⟩ :=
      asked_start tasks { s with freed := s.freed - 1, pool := { s.pool with waiting := rest } } next
    simp only [hwaiting, hpool, List.length_cons] at hle ⊢
    omega

theorem freed_passAllOn (tasks : List Task) {s : Shift} (hn : s.freed + s.pool.waiting.length ≤ n) :
    (passAllOn tasks n s).freed = 0 := by
  induction n generalizing s with
  | zero => exact (Nat.add_eq_zero_iff.1 (Nat.le_zero.1 hn)).1
  | succ n ih =>
    unfold Shift.passAllOn
    by_cases hfreed : s.freed = 0
    · rw [if_pos hfreed, hfreed]
    · rw [if_neg hfreed]
      have := freed_passOn_lt tasks hfreed
      exact ih (by omega)

/-! ## Rounds -/

/-- Between rounds: all slots have been passed on. -/
structure IsRested (tasks : List Task) (size : Nat) (s : Shift) : Prop where
  serving : IsServing tasks size [] s
  freed : s.freed = 0

theorem IsServing.acts (h : IsServing tasks size [] s) (acts : List Act) :
    IsServing tasks size [] (acts.foldl (Shift.act tasks) s)
      ∧ todo tasks (acts.foldl (Shift.act tasks) s) ≤ todo tasks s := by
  induction acts generalizing s with
  | nil => exact ⟨h, Nat.le_refl _⟩
  | cons a rest ih =>
    obtain ⟨hserving, hle⟩ := ih (h.act a)
    exact ⟨hserving, hle.trans (todo_act_le h a)⟩

/-- **A round keeps the order**, and no work comes to be added in it. -/
theorem IsRested.round (h : IsRested tasks size s) (acts : List Act) :
    IsRested tasks size (round tasks s acts) ∧ todo tasks (Shift.round tasks s acts) ≤ todo tasks s
      ∧ s.asked ≤ (Shift.round tasks s acts).asked := by
  obtain ⟨hserving, hle⟩ := h.serving.acts acts
  unfold Shift.round settle
  rw [todo_passAllOn, asked_passAllOn]
  exact ⟨⟨hserving.passAllOn _, freed_passAllOn tasks (Nat.le_refl _)⟩, hle, le_asked_acts tasks acts s⟩

theorem IsRested.rounds (h : IsRested tasks size s) (rounds : List (List Act)) :
    IsRested tasks size (rounds.foldl (Shift.round tasks) s)
      ∧ todo tasks (rounds.foldl (Shift.round tasks) s) ≤ todo tasks s := by
  induction rounds generalizing s with
  | nil => exact ⟨h, Nat.le_refl _⟩
  | cons acts rest ih =>
    obtain ⟨hrested, hround, -⟩ := h.round acts
    obtain ⟨hend, hle⟩ := ih hrested
    exact ⟨hend, hle.trans hround⟩

theorem IsRested.steps (h : IsRested tasks size s) (n : Nat) :
    IsRested tasks size (steps tasks n s) ∧ todo tasks (Shift.steps tasks n s) ≤ todo tasks s
      ∧ s.asked ≤ (Shift.steps tasks n s).asked := by
  induction n generalizing s with
  | zero => exact ⟨h, Nat.le_refl _, Nat.le_refl _⟩
  | succ n ih =>
    obtain ⟨hrested, hround, hasked⟩ := h.round [.wentOn 0]
    obtain ⟨hend, hle, hasked'⟩ := ih hrested
    exact ⟨hend, hle.trans hround, hasked.trans hasked'⟩

/-- **While there is anything to do, somebody is at work**, once all tasks were handed in. -/
theorem IsRested.todo_eq_zero (h : IsRested tasks size s) (hsize : 1 ≤ size) (hall : tasks.length ≤ s.asked)
    (hworking : s.working = []) :
    todo tasks s = 0 ∧ s.pool.active = 0 ∧ s.pool.waiting = [] := by
  have hpool := h.serving.pool
  simp only [List.length_nil, hworking, h.freed, Nat.add_zero] at hpool
  have hline : s.pool.waiting = [] := by
    by_contra hne
    have := hpool.full hne
    omega
  exact ⟨by simp [todo, hworking, hline, List.drop_of_length_le hall], hpool.active, hline⟩

/-- **A turn gets some of the work done.** -/
theorem IsRested.todo_turn (h : IsRested tasks size s) (hsize : 1 ≤ size) (hall : tasks.length ≤ s.asked) :
    todo tasks (turn tasks s) ≤ todo tasks s - 1 := by
  unfold Shift.turn
  cases hworking : s.working with
  | nil =>
    have hzero := (h.todo_eq_zero hsize hall hworking).1
    exact (by simp [Shift.steps, hzero])
  | cons w rest =>
    have hdone : todo tasks (Shift.round tasks s [.wentOn 0]) + 1 = todo tasks s := by
      have hperm : s.working.Perm (w :: rest) := by rw [hworking]
      have hgoes := todo_goOn h.serving hperm
      rw [Shift.round, settle, todo_passAllOn]
      simpa [Shift.act, hworking] using hgoes
    have hrested := (h.round [.wentOn 0]).1
    have hle := (hrested.steps rest.length).2.1
    rw [List.length_cons, Shift.steps]
    omega

theorem IsRested.turns (h : IsRested tasks size s) (hsize : 1 ≤ size) (hall : tasks.length ≤ s.asked) (n : Nat) :
    IsRested tasks size (turns tasks n s) ∧ todo tasks (Shift.turns tasks n s) ≤ todo tasks s - n
      ∧ tasks.length ≤ (Shift.turns tasks n s).asked := by
  induction n generalizing s with
  | zero => exact ⟨h, Nat.le_refl _, hall⟩
  | succ n ih =>
    have hturn := h.todo_turn hsize hall
    obtain ⟨hrested, -, hasked⟩ := h.steps s.working.length
    obtain ⟨hend, hle, hall'⟩ := ih hrested (hall.trans hasked)
    refine ⟨hend, ?_, hall'⟩
    unfold Shift.turn at hturn
    rw [Shift.turns, Shift.turn]
    omega

/-! ## The whole shift -/

end PolicyGates.Pool.Shift
