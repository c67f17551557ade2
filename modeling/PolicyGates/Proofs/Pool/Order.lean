import Mathlib.Data.List.Induction
import PolicyGates.Proofs.Pool.Shared
/-!
# Order at a pool in use

Nobody in line is overtaken: whoever has a slot, or has had one, was handed in before everybody who stands in line
(`IsFair`).  Callers are told what came of their own tasks, each of them once.  This is so whatever happens
(`served_fairly`).

Somebody who was woken and has not started is no longer in line.  Where nobody is handed in at just that moment, tasks
start in the order in which they were handed in (`isQueued_run`); a task that is handed in then may find a free slot
and start first (`started_before_woken`).
-/
namespace PolicyGates.SharedPool

variable {size : Nat} {u : SharedPool} {occurrences : List Occurrence}

/-- Nobody in line is overtaken. -/
structure IsFair (u : SharedPool) : Prop where
  before : ∀ n ∈ u.started ++ u.woken, ∀ m ∈ u.pool.waiting, n < m
  line : u.pool.waiting.Pairwise (· < ·)

/-- Tasks start, are woken and stand in line as they were handed in. -/
def IsQueued (u : SharedPool) : Prop := u.started ++ u.woken ++ u.pool.waiting = List.range u.submitted

/-- No task is handed in while another has been woken and has not started. -/
def InTurn : SharedPool → List Occurrence → Prop
  | _, [] => True
  | u, o :: rest => (o = .submitted → u.woken = []) ∧ InTurn (u.step o) rest

theorem IsInOrder.lt_submitted (h : u.IsInOrder size) {n : Nat} (hn : n ∈ u.places) : n < u.submitted :=
  List.mem_range.1 (h.places.mem_iff.1 hn)

theorem IsInOrder.started_sub (h : u.IsInOrder size) {n : Nat} (hn : n ∈ u.started ++ u.woken) : n ∈ u.places := by
  simp only [SharedPool.places, holders, List.mem_append] at hn ⊢
  rcases hn with hstarted | hwoken
  · have := h.started.mem_iff.1 hstarted
    simp only [List.mem_append] at this
    tauto
  · tauto

theorem IsInOrder.nodup_places (h : u.IsInOrder size) : u.places.Nodup := h.places.nodup_iff.2 List.nodup_range

theorem left_cases (u : SharedPool) (place : Nat) :
    (u.leaving[place]? = none ∧ u.step (.left place) = u)
    ∨ ∃ entry, u.leaving[place]? = some entry
      ∧ ((u.pool.waiting = [] ∧ u.step (.left place)
          = { u with
              pool := { u.pool with active := u.pool.active - 1 }, leaving := u.leaving.eraseIdx place,
              settled := u.settled ++ [entry] })
        ∨ ∃ next rest, u.pool.waiting = next :: rest ∧ u.step (.left place)
          = { u with
              pool := { u.pool with waiting := rest }, woken := u.woken ++ [next],
              leaving := u.leaving.eraseIdx place, settled := u.settled ++ [entry] }) := by
  cases hplace : u.leaving[place]? with
  | none => exact .inl ⟨rfl, by simp [SharedPool.step, hplace]⟩
  | some entry =>
    refine .inr ⟨entry, rfl, ?_⟩
    cases hwaiting : u.pool.waiting with
    | nil => exact .inl ⟨rfl, by simp [SharedPool.step, hplace, Pool.release, hwaiting]⟩
    | cons next rest => exact .inr ⟨next, rest, rfl, by simp [SharedPool.step, hplace, Pool.release, hwaiting]⟩

/-- **Who gets a slot as it asks for one finds nobody in line, and who does not is last.** -/
theorem IsFair.submit (hfair : u.IsFair) (h : u.IsInOrder size) : (u.step .submitted).IsFair := by
  obtain ⟨hbefore, hline⟩ := hfair
  rw [SharedPool.step]
  rcases h.pool.ask u.submitted with ⟨pool, hask, hsame, hserves⟩ | ⟨pool, hask, hlast, -⟩
  · have hnobody : pool.waiting = [] := by
      by_contra hne
      -- a slot is free, so the line is empty
      have hfull := h.pool.full (hsame ▸ hne)
      have hle := hserves.le
      omega
    rw [hask]
    constructor <;> simp [begin, hnobody]
  · rw [hask]
    constructor
    · simp only [hlast, List.mem_append, List.mem_singleton] at hbefore ⊢
      rintro n hn m (hm | rfl)
      · exact hbefore n hn m hm
      · exact h.lt_submitted (h.started_sub (List.mem_append.2 hn))
    · simp only [hlast, List.pairwise_append, List.mem_singleton]
      refine ⟨hline, List.pairwise_singleton _ _, ?_⟩
      rintro n hn m rfl
      exact h.lt_submitted (List.mem_append_left _ (List.mem_append_left _ hn))

theorem IsFair.step (hfair : u.IsFair) (h : u.IsInOrder size) (o : Occurrence) : (u.step o).IsFair := by
  cases o with
  | submitted => exact hfair.submit h
  | woke =>
    obtain ⟨hbefore, hline⟩ := hfair
    rw [SharedPool.step]
    cases hwoken : u.woken with
    | nil => exact ⟨hbefore, hline⟩
    | cons task rest =>
      rw [hwoken] at hbefore
      exact ⟨by simpa [begin] using hbefore, hline⟩
  | ended place outcome =>
    rw [SharedPool.step]
    cases u.running[place]? <;> exact ⟨hfair.before, hfair.line⟩
  | left place =>
    obtain ⟨hbefore, hline⟩ := hfair
    rcases u.left_cases place with ⟨-, hstep⟩ | ⟨entry, -, ⟨hwaiting, hstep⟩ | ⟨next, rest, hwaiting, hstep⟩⟩
    · rw [hstep]
      exact ⟨hbefore, hline⟩
    · rw [hstep]
      exact ⟨hbefore, hline⟩
    · -- the first in line is before all others in it
      rw [hwaiting] at hbefore hline
      obtain ⟨hnext, hrest⟩ := List.pairwise_cons.1 hline
      rw [hstep]
      refine ⟨?_, hrest⟩
      simp only [List.mem_append, List.mem_cons, List.not_mem_nil, or_false] at hbefore ⊢
      rintro n (hn | hn | rfl) m hm
      · exact hbefore n (.inl hn) m (.inr hm)
      · exact hbefore n (.inr hn) m (.inr hm)
      · exact hnext m hm

theorem IsQueued.submit (hqueued : u.IsQueued) (h : u.IsInOrder size) (hwoken : u.woken = []) :
    (u.step .submitted).IsQueued := by
  unfold IsQueued at hqueued ⊢
  rw [SharedPool.step]
  rcases h.pool.ask u.submitted with ⟨pool, hask, hsame, hserves⟩ | ⟨pool, hask, hlast, -⟩
  · have hnobody : u.pool.waiting = [] := by
      by_contra hne
      have hfull := h.pool.full hne
      have hle := hserves.le
      omega
    rw [hwoken, hnobody, List.append_nil, List.append_nil] at hqueued
    simp only [hask, begin, hsame, hwoken, hnobody, hqueued, List.range_succ, List.append_nil]
  · simp only [hask, hlast, List.range_succ, ← hqueued, List.append_assoc]

theorem IsQueued.step (hqueued : u.IsQueued) (h : u.IsInOrder size) {o : Occurrence}
    (ho : o = .submitted → u.woken = []) :
    (u.step o).IsQueued := by
  cases o with
  | submitted => exact hqueued.submit h (ho rfl)
  | woke =>
    unfold IsQueued at hqueued ⊢
    rw [SharedPool.step]
    cases hwoken : u.woken with
    | nil => simpa [hwoken] using hqueued
    | cons task rest => simpa [begin, hwoken] using hqueued
  | ended place outcome =>
    rw [SharedPool.step]
    cases u.running[place]? <;> exact hqueued
  | left place =>
    unfold IsQueued at hqueued ⊢
    rcases u.left_cases place with ⟨-, hstep⟩ | ⟨entry, -, ⟨hwaiting, hstep⟩ | ⟨next, rest, hwaiting, hstep⟩⟩
    · rwa [hstep]
    · rwa [hstep]
    · rw [hwaiting] at hqueued
      simpa [hstep] using hqueued

/-- **Nobody in line is overtaken**, whatever happens. -/
theorem isFair_run (size : Nat) (occurrences : List Occurrence) : ((opened size).run occurrences).IsFair := by
  suffices ∀ u : SharedPool, u.IsInOrder size → u.IsFair → (u.run occurrences).IsFair from
    this _ (isInOrder_opened size) ⟨by simp [opened, Pool.idle], .nil⟩
  induction occurrences with
  | nil => exact fun _ _ hfair => hfair
  | cons o rest ih => exact fun u h hfair => ih _ (h.step o) (hfair.step h o)

/-- **Tasks start in the order in which they were handed in**, where nobody is handed in between the waking of another
and its start. -/
theorem isQueued_run (hturn : InTurn (opened size) occurrences) : ((opened size).run occurrences).IsQueued := by
  suffices ∀ u : SharedPool, u.IsInOrder size → u.IsQueued → InTurn u occurrences → (u.run occurrences).IsQueued from
    this _ (isInOrder_opened size) rfl hturn
  clear hturn
  induction occurrences with
  | nil => exact fun _ _ hqueued _ => hqueued
  | cons o rest ih => exact fun u h hqueued hturn => ih _ (h.step o) (hqueued.step h hturn.1) hturn.2

/-- Two tasks come to their ends and both are gone on with before the one that was woken starts; a task that is handed
in then finds a free slot. -/
theorem started_before_woken :
    ((opened 2).run [.submitted, .submitted, .submitted, .ended 0 (.ok .null), .ended 0 (.ok .null),
      .left 0, .left 0, .submitted, .woke]).started = [0, 1, 3, 2] := rfl

/-- The task came to its end with this outcome at some moment. -/
def ComesTo (size : Nat) (occurrences : List Occurrence) (entry : Nat × Except Failure Value) : Prop :=
  ∃ before place after, occurrences = before ++ .ended place entry.2 :: after
    ∧ ((opened size).run before).running[place]? = some entry.1

/-- What came of tasks, told to their callers or about to be. -/
def told (u : SharedPool) : List (Nat × Except Failure Value) := u.settled ++ u.leaving

theorem mem_told_step (u : SharedPool) (o : Occurrence) (entry : Nat × Except Failure Value) :
    entry ∈ (u.step o).told ↔ entry ∈ u.told ∨ ∃ place, o = .ended place entry.2
      ∧ u.running[place]? = some entry.1 := by
  unfold told
  cases o with
  | submitted =>
    rw [SharedPool.step]
    cases hask : u.pool.ask u.submitted with | mk pool free => cases free <;> simp [begin]
  | woke =>
    rw [SharedPool.step]
    cases u.woken <;> simp [begin]
  | ended place outcome =>
    rw [SharedPool.step]
    cases hplace : u.running[place]? with
    | none =>
      simp only [List.mem_append, Occurrence.ended.injEq, iff_self_or]
      rintro ⟨p, ⟨rfl, -⟩, hp⟩
      rw [hplace] at hp
      cases hp
    | some task =>
      obtain ⟨n, outcome'⟩ := entry
      simp only [List.mem_append, List.mem_singleton, Prod.mk.injEq, Occurrence.ended.injEq, or_assoc]
      refine or_congr_right (or_congr_right ⟨?_, ?_⟩)
      · rintro ⟨rfl, rfl⟩
        exact ⟨place, ⟨rfl, rfl⟩, hplace⟩
      · rintro ⟨p, ⟨rfl, rfl⟩, hp⟩
        exact ⟨Option.some.inj (hp.symm.trans hplace), rfl⟩
  | left place =>
    rcases u.left_cases place with ⟨-, hstep⟩ | ⟨e, hplace, ⟨-, hstep⟩ | ⟨next, rest, -, hstep⟩⟩
    · simp [hstep]
    · simp [hstep, (perm_of_getElem? hplace).mem_iff]
    · simp [hstep, (perm_of_getElem? hplace).mem_iff]

/-- **What is told of a task is what it came to.** -/
theorem comesTo_iff (size : Nat) (occurrences : List Occurrence) (entry : Nat × Except Failure Value) :
    ComesTo size occurrences entry ↔ entry ∈ ((opened size).run occurrences).told := by
  induction occurrences using List.reverseRecOn with
  | nil => simp [ComesTo, told, run, opened]
  | append_singleton before o ih =>
    rw [run_append, run, List.foldl_cons, List.foldl_nil, mem_told_step, ← ih]
    constructor
    · rintro ⟨front, place, after, hsplit, hplace⟩
      rcases List.eq_nil_or_concat after with rfl | ⟨after, last, rfl⟩
      · obtain ⟨rfl, hlast⟩ := List.append_inj' hsplit rfl
        exact .inr ⟨place, List.singleton_inj.1 hlast, hplace⟩
      · rw [List.concat_eq_append, ← List.cons_append, ← List.append_assoc] at hsplit
        exact .inl ⟨front, place, after, (List.append_inj' hsplit rfl).1, hplace⟩
    · rintro (⟨front, place, after, rfl, hplace⟩ | ⟨place, rfl, hplace⟩)
      · exact ⟨front, place, after ++ [o], by simp, hplace⟩
      · exact ⟨before, place, [], rfl, hplace⟩

theorem IsInOrder.nodup_told (h : u.IsInOrder size) : (u.told.map Prod.fst).Nodup := by
  refine List.Sublist.nodup ?_ ((List.perm_append_comm).nodup_iff.1 h.nodup_places)
  rw [told, List.map_append]
  refine List.Sublist.append_left ?_ _
  exact (List.sublist_append_right _ _).trans (List.sublist_append_right _ _)

theorem IsInOrder.nodup_started (h : u.IsInOrder size) : u.started.Nodup := by
  rw [h.started.nodup_iff, List.append_assoc]
  have hsub : (u.running ++ (u.leaving.map Prod.fst ++ u.settled.map Prod.fst)).Sublist u.places := by
    rw [SharedPool.places, holders, List.append_assoc, List.append_assoc, List.append_assoc]
    exact (List.sublist_append_right _ _).trans (List.sublist_append_right _ _)
  exact hsub.nodup h.nodup_places

/-- While nobody has a slot, all that were handed in have started and their callers been told. -/
theorem IsInOrder.settled_of_holders (h : u.IsInOrder size) (hsize : 1 ≤ size) (hnone : u.holders = []) :
    u.started.Perm (List.range u.submitted) ∧ (u.told.map Prod.fst).Perm (List.range u.submitted) := by
  have hline : u.pool.waiting = [] := by
    by_contra hne
    have hfull := h.pool.full hne
    rw [hnone, List.length_nil] at hfull
    omega
  have hplaces := h.places
  have hstarted := h.started
  obtain ⟨-, hrunning, hleaving⟩ : u.woken = [] ∧ u.running = [] ∧ u.leaving = [] := by
    simpa [holders, List.append_eq_nil_iff] using hnone
  simp only [SharedPool.places, hnone, hline, List.nil_append] at hplaces
  simp only [hrunning, hleaving, List.map_nil, List.nil_append] at hstarted
  exact ⟨hstarted.trans hplaces, by simpa [told, hleaving] using hplaces⟩

/-- **Whatever happens at a pool of size one or more**, in whatever order tasks are handed in, are woken, come to
their ends and are gone on with: no task starts twice, nobody overtakes those in line, callers are told once what
their own tasks came to, and once nobody has a slot all tasks have started and all callers been told. -/
theorem served_fairly (hsize : 1 ≤ size) (occurrences : List Occurrence) :
    let u := (opened size).run occurrences
    u.started.Nodup ∧ u.IsFair
    ∧ (u.told.map Prod.fst).Nodup ∧ (∀ entry, entry ∈ u.told ↔ ComesTo size occurrences entry)
    ∧ (u.holders = [] → u.started.Perm (List.range u.submitted)
      ∧ (u.told.map Prod.fst).Perm (List.range u.submitted)) := by
  intro u
  have h : u.IsInOrder size := (isInOrder_opened size).run occurrences
  exact ⟨h.nodup_started, isFair_run size occurrences, h.nodup_told,
    fun entry => (comesTo_iff size occurrences entry).symm,
    h.settled_of_holders hsize⟩

end PolicyGates.SharedPool
