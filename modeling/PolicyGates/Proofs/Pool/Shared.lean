import Mathlib.Data.List.Perm.Basic
import PolicyGates.Pool.Shared
import PolicyGates.Proofs.Pool.Slots
/-!
# Slots of a pool in use

Whatever happens to a pool, and in whatever order, as many slots are taken as there are tasks that have one, each task
that was handed in has one place, and the tasks that have started are those at work or at their ends (`IsInOrder`).
One occurrence keeps this (`IsInOrder.step`), hence all that can happen do (`slots_exact`).
-/
namespace PolicyGates.SharedPool

/-- The tasks that were handed in, by where they are: in line, with a slot, or done with. -/
def places (u : SharedPool) : List Nat := u.pool.waiting ++ u.holders ++ u.settled.map Prod.fst

/-- All slots are accounted for, and each task that was handed in has one place. -/
structure IsInOrder (size : Nat) (u : SharedPool) : Prop where
  pool : u.pool.Serves size u.holders.length
  places : u.places.Perm (List.range u.submitted)
  started : u.started.Perm (u.running ++ u.leaving.map Prod.fst ++ u.settled.map Prod.fst)

variable {size : Nat} {u : SharedPool}

theorem perm_of_getElem? {α : Type} {l : List α} {i : Nat} {a : α} (h : l[i]? = some a) :
    l.Perm (a :: l.eraseIdx i) := by
  obtain ⟨hi, rfl⟩ := List.getElem?_eq_some_iff.1 h
  exact (List.getElem_cons_eraseIdx_perm hi).symm

theorem isInOrder_opened (size : Nat) : (opened size).IsInOrder size := ⟨Pool.serves_idle size, .nil, .nil⟩

namespace IsInOrder

theorem submit (h : u.IsInOrder size) : (u.step .submitted).IsInOrder size := by
  obtain ⟨hpool, hplaces, hstarted⟩ := h
  unfold SharedPool.places holders at hplaces
  rw [SharedPool.step]
  rcases hpool.ask u.submitted with ⟨pool, hask, hline, hserves⟩ | ⟨pool, hask, hline, hserves⟩
  · rw [hask]
    refine ⟨?_, ?_, ?_⟩
    · have hlength : ({ u with pool, submitted := u.submitted + 1 } |>.begin u.submitted).holders.length
        = u.holders.length + 1 := by
        simp only [begin, holders, List.length_append, List.length_singleton]
        omega
      exact hlength ▸ hserves
    · simp only [begin, SharedPool.places, holders, hline, List.range_succ]
      refine List.perm_iff_count.2 fun n => ?_
      have := hplaces.count_eq n
      simp only [List.count_append] at this ⊢
      omega
    · refine List.perm_iff_count.2 fun n => ?_
      have := hstarted.count_eq n
      simp only [begin, List.count_append] at this ⊢
      omega
  · rw [hask]
    refine ⟨hserves, ?_, hstarted⟩
    simp only [SharedPool.places, holders, hline, List.range_succ]
    refine List.perm_iff_count.2 fun n => ?_
    have := hplaces.count_eq n
    simp only [List.count_append] at this ⊢
    omega

theorem wake (h : u.IsInOrder size) : (u.step .woke).IsInOrder size := by
  obtain ⟨hpool, hplaces, hstarted⟩ := h
  unfold SharedPool.places at hplaces
  rw [SharedPool.step]
  cases hwoken : u.woken with
  | nil => exact ⟨hpool, hplaces, hstarted⟩
  | cons task rest =>
    have hholders : u.holders.Perm ({ u with woken := rest } |>.begin task).holders := by
      refine List.perm_iff_count.2 fun n => ?_
      simp only [begin, holders, hwoken, List.count_append, List.count_cons, List.count_nil]
      omega
    refine ⟨hholders.length_eq ▸ hpool, ?_, ?_⟩
    · exact (((hholders.append_left _).append_right _).symm).trans hplaces
    · refine List.perm_iff_count.2 fun n => ?_
      have := hstarted.count_eq n
      simp only [begin, List.count_append] at this ⊢
      omega

theorem finish (h : u.IsInOrder size) (place : Nat) (outcome : Except Failure Value) :
    (u.step (.ended place outcome)).IsInOrder size := by
  obtain ⟨hpool, hplaces, hstarted⟩ := h
  unfold SharedPool.places at hplaces
  rw [SharedPool.step]
  cases htask : u.running[place]? with
  | none => exact ⟨hpool, hplaces, hstarted⟩
  | some task =>
    have hrunning := perm_of_getElem? htask
    have hmoved : (u.running ++ u.leaving.map Prod.fst).Perm
        (u.running.eraseIdx place ++ (u.leaving ++ [(task, outcome)]).map Prod.fst) := by
      refine List.perm_iff_count.2 fun n => ?_
      have := hrunning.count_eq n
      simp only [List.map_append, List.map_cons, List.map_nil, List.count_append, List.count_cons,
        List.count_nil] at this ⊢
      omega
    have hholders : u.holders.Perm
        { u with running := u.running.eraseIdx place, leaving := u.leaving ++ [(task, outcome)] }.holders := by
      simp only [holders, List.append_assoc]
      exact hmoved.append_left _
    exact ⟨hholders.length_eq ▸ hpool, (((hholders.append_left _).append_right _).symm).trans hplaces,
      hstarted.trans (hmoved.append_right _)⟩

/-- **The slot of a task that has ended goes to the first in line, or is free.** -/
theorem leave (h : u.IsInOrder size) (place : Nat) : (u.step (.left place)).IsInOrder size := by
  obtain ⟨hpool, hplaces, hstarted⟩ := h
  unfold SharedPool.places holders at hplaces
  rw [SharedPool.step]
  cases hentry : u.leaving[place]? with
  | none => exact ⟨hpool, hplaces, hstarted⟩
  | some entry =>
    have hleaving := (perm_of_getElem? hentry).map Prod.fst
    have hlength : u.holders.length = u.woken.length + u.running.length + (u.leaving.eraseIdx place).length + 1 := by
      have := hleaving.length_eq
      simp only [List.map_cons, List.length_cons, List.length_map] at this
      simp only [holders, List.length_append, List.length_map]
      omega
    have hstarted' : u.started.Perm (u.running ++ (u.leaving.eraseIdx place).map Prod.fst
        ++ (u.settled ++ [entry]).map Prod.fst) := by
      refine List.perm_iff_count.2 fun n => ?_
      have h₁ := hstarted.count_eq n
      have h₂ := hleaving.count_eq n
      simp only [List.map_append, List.map_cons, List.map_nil, List.count_append, List.count_cons,
        List.count_nil] at h₁ h₂ ⊢
      omega
    rw [hlength] at hpool
    rcases hpool.release with ⟨pool, hrelease, hline, hline', hserves⟩ | ⟨pool, next, hrelease, hline, hserves⟩
    · simp only [hrelease]
      refine ⟨?_, ?_, hstarted'⟩
      · simpa only [holders, List.length_append, List.length_map] using hserves
      · refine List.perm_iff_count.2 fun n => ?_
        have h₁ := hplaces.count_eq n
        have h₂ := hleaving.count_eq n
        simp only [SharedPool.places, holders, hline, hline', List.map_append, List.map_cons, List.map_nil,
          List.count_append, List.count_cons, List.count_nil] at h₁ h₂ ⊢
        omega
    · simp only [hrelease]
      refine ⟨?_, ?_, hstarted'⟩
      · simp only [holders, List.length_append, List.length_map, List.length_singleton]
        convert hserves using 1
        omega
      · refine List.perm_iff_count.2 fun n => ?_
        have h₁ := hplaces.count_eq n
        have h₂ := hleaving.count_eq n
        simp only [SharedPool.places, holders, hline, List.map_append, List.map_cons, List.map_nil, List.count_append,
          List.count_cons, List.count_nil] at h₁ h₂ ⊢
        omega

/-- **Whatever happens to a pool, its slots stay accounted for.** -/
theorem step (h : u.IsInOrder size) (o : Occurrence) : (u.step o).IsInOrder size := by
  cases o with
  | submitted => exact h.submit
  | woke => exact h.wake
  | ended place outcome => exact h.finish place outcome
  | left place => exact h.leave place

theorem run (h : u.IsInOrder size) (occurrences : List Occurrence) : (u.run occurrences).IsInOrder size := by
  induction occurrences generalizing u with
  | nil => exact h
  | cons o rest ih => exact ih (h.step o)

theorem idle (h : u.IsInOrder size) (hsettled : ∀ n < u.submitted, n ∈ u.settled.map Prod.fst) :
    u.pool.active = 0 ∧ u.pool.waiting = [] := by
  have hlength := h.places.length_eq
  have hle : u.submitted ≤ (u.settled.map Prod.fst).length := by
    have hsub : List.range u.submitted ⊆ u.settled.map Prod.fst := fun n hn => hsettled n (List.mem_range.1 hn)
    simpa using (List.subperm_of_subset List.nodup_range hsub).length_le
  simp only [SharedPool.places, List.length_append, List.length_range] at hlength
  refine ⟨?_, List.eq_nil_of_length_eq_zero (by omega)⟩
  rw [h.pool.active]
  omega

end IsInOrder

/-- **The slots of a pool in use.**  In whatever order tasks are handed in, are woken, come to their ends, well or
badly, and are gone on with: as many slots are taken as there are tasks that have one, and no more than there are, so
no more tasks than that are at work at once; nobody stands in line while a slot is free; and no slot is taken and
nobody in line once the callers have been told of all tasks.  While somebody has not been told and there is a slot at
all, some task has one. -/
theorem slots_exact (size : Nat) (occurrences : List Occurrence) :
    let u := (opened size).run occurrences
    u.pool.active = u.holders.length ∧ u.pool.active ≤ size ∧ u.running.length ≤ size
    ∧ (u.pool.waiting ≠ [] → u.pool.active = size)
    ∧ u.places.Perm (List.range u.submitted)
    ∧ ((∀ n < u.submitted, n ∈ u.settled.map Prod.fst) → u.pool.active = 0 ∧ u.pool.waiting = [])
    ∧ (1 ≤ size → ∀ n < u.submitted, n ∉ u.settled.map Prod.fst → u.holders ≠ []) := by
  intro u
  have h : u.IsInOrder size := (isInOrder_opened size).run occurrences
  have hactive := h.pool.active
  have hle := h.pool.le
  refine ⟨hactive, hactive ▸ hle, ?_, fun hline => hactive.trans (h.pool.full hline), h.places, h.idle,
    fun hsize n hn hopen => ?_⟩
  · have hrunning : u.running.length ≤ u.holders.length := by
      simp only [holders, List.length_append]
      omega
    exact Nat.le_trans hrunning hle
  · intro hnone
    -- the task would have to stand in line while every slot is free
    have hplace : n ∈ u.places := h.places.mem_iff.2 (List.mem_range.2 hn)
    rw [places, hnone, List.append_nil, List.mem_append] at hplace
    have hfull := h.pool.full (List.ne_nil_of_mem (hplace.resolve_right hopen))
    rw [hnone, List.length_nil] at hfull
    omega

end PolicyGates.SharedPool
