import PolicyGates.Proofs.Audit.Growth
import PolicyGates.Proofs.Scheduler.Ending
/-!
# What a schedule leaves in the log

Where the clock has an instant for everybody and the store takes everything, no evaluation fails, and the log gains the
record of each job at the moment when the job is concluded: records and conclusions stand in the same order
(`IsRecorded`).  Every check keeps that (`IsRecorded.step`), so it holds in the end (`isRecorded_run`).
-/
namespace PolicyGates

/-- The clock after so many more readings. -/
def Clock.later (c : Clock) (readings : Nat) : Clock := ⟨c.start, c.readings + readings⟩

namespace Scheduler

variable (jobs : List Job)

/-- What a concluded job has left: the record of its decision, on its own proposal. -/
def IsRecordOf (entry : Nat × Conclusion) (r : Audit.Record) : Prop :=
  ∃ j d, jobs[entry.1]? = some j ∧ entry.2.decision? = .ok d ∧ d.proposalId = j.proposal.proposalId
    ∧ r.proposalHash = .str (Audit.hashOf j.proposal.toValue) ∧ r.decision = d.toValue

/-- Nobody has failed, and the log has gained one record for each conclusion, in the same order. -/
structure IsRecorded (reg : Registry) (s : Scheduler) : Prop where
  log : s.registry.log.IsSound
  accepts : s.registry.log.Accepts
  clock : s.registry.clock = reg.clock.later s.conclusions.length
  gained : ∃ gained, s.registry.log.history = reg.log.history ++ gained
    ∧ List.Forall₂ (IsRecordOf jobs) s.conclusions gained

variable {jobs} {reg : Registry} {s s' : Scheduler} {slots : Nat}

theorem isRecorded_opening (hlog : reg.log.IsSound) (haccepts : reg.log.Accepts) (slots : Nat) :
    IsRecorded jobs reg (opening reg slots) := ⟨hlog, haccepts, rfl, [], (List.append_nil _).symm, .nil⟩

theorem IsRecorded.of_eq (h : IsRecorded jobs reg s) (hlog : s'.registry.log = s.registry.log)
    (hclock : s'.registry.clock = s.registry.clock) (hconc : s'.conclusions = s.conclusions) :
    IsRecorded jobs reg s' := by
  refine ⟨?_, ?_, ?_, ?_⟩
  · rw [hlog]
    exact h.log
  · rw [hlog]
    exact h.accepts
  · rw [hclock, hconc]
    exact h.clock
  · rw [hlog, hconc]
    exact h.gained

theorem IsRecorded.happen (h : IsRecorded jobs reg s) (what : Happening) : IsRecorded jobs reg (s.happen what) := by
  cases what with
  | abort reason =>
    unfold Scheduler.happen
    dsimp only
    split
    · exact h
    · exact h.of_eq rfl rfl rfl
  | advance ms => exact h.of_eq rfl rfl rfl

theorem IsRecorded.exists_decision (h : IsRecorded jobs reg s) {entry : Nat × Conclusion}
    (hentry : entry ∈ s.conclusions) :
    ∃ d, entry.2.decision? = .ok d := by
  obtain ⟨gained, -, hgained⟩ := h.gained
  obtain ⟨i, hi, rfl⟩ := List.getElem_of_mem hentry
  obtain ⟨-, d, -, hd, -⟩ := (List.forall₂_iff_get.1 hgained).2 i hi (hgained.length_eq ▸ hi)
  exact ⟨d, hd⟩

/-! ## Slots -/

theorem start_frame (s : Scheduler) (n : Nat) :
    (start jobs s n).registry = s.registry ∧ (start jobs s n).conclusions = s.conclusions := by
  unfold start
  split <;> exact ⟨rfl, rfl⟩

theorem release_keeps (jobs : List Job) (s : Scheduler) :
    (release jobs s).registry = s.registry ∧ (release jobs s).conclusions = s.conclusions := by
  unfold release
  split
  · exact start_frame _ _
  · exact ⟨rfl, rfl⟩

theorem ask_keeps (jobs : List Job) (s : Scheduler) (n : Nat) :
    (ask jobs s n).registry = s.registry ∧ (ask jobs s n).conclusions = s.conclusions := by
  unfold ask
  split
  · exact start_frame _ _
  · exact ⟨rfl, rfl⟩

theorem enrol_keeps (jobs : List Job) (s : Scheduler) :
    (enrol jobs s).registry = s.registry ∧ (enrol jobs s).conclusions = s.conclusions := by
  unfold enrol
  generalize List.range jobs.length = ns
  induction ns generalizing s with
  | nil => exact ⟨rfl, rfl⟩
  | cons n rest ih =>
    obtain ⟨hreg, hconc⟩ := ask_keeps jobs s n
    rw [List.foldl_cons]
    split
    · split
      · exact ⟨(ih _).1.trans hreg, (ih _).2.trans hconc⟩
      · exact ih s
    · exact ih s

/-- The end of a job lets another one ask for a slot, or makes it fail that awaited one that has failed. -/
theorem follow_registry (jobs : List Job) (s : Scheduler) (ended n : Nat) :
    (follow jobs ended s n).registry = s.registry
    ∧ ((follow jobs ended s n).conclusions = s.conclusions
      ∨ ∃ j a f, jobs[n]? = some j ∧ ¬Settled s.conclusions n ∧ a ∈ j.awaits ∧ (a, .failed f) ∈ s.conclusions
        ∧ (follow jobs ended s n).conclusions = s.conclusions ++ [(n, .failed f)]) := by
  unfold follow
  cases hj : jobs[n]? with
  | none => exact ⟨rfl, .inl rfl⟩
  | some j =>
    dsimp only
    split
    · exact ⟨rfl, .inl rfl⟩
    · next hskip =>
      split
      · next f hf =>
        rw [Bool.or_eq_true, not_or, conclusion?_isSome_iff] at hskip
        obtain ⟨a, ha, hfound⟩ := List.exists_of_findSome?_eq_some hf
        refine ⟨rfl, .inr ⟨j, a, f, rfl, hskip.2, ha, ?_, rfl⟩⟩
        split at hfound
        · next g hc =>
          obtain ⟨before, after, hsplit, -⟩ := List.lookup_eq_some_iff.1 hc
          rw [hsplit, Option.some.inj hfound]
          simp
        · cases hfound
      · split
        · obtain ⟨hreg, hconc⟩ := ask_keeps jobs s n
          exact ⟨hreg, .inl hconc⟩
        · exact ⟨rfl, .inl rfl⟩

theorem follow_keeps (jobs : List Job) (h : ∀ entry ∈ s.conclusions, ∃ d, entry.2.decision? = .ok d) (ended n : Nat) :
    (follow jobs ended s n).registry = s.registry ∧ (follow jobs ended s n).conclusions = s.conclusions := by
  obtain ⟨hreg, hconc | ⟨j, a, f, -, -, -, hf, -⟩⟩ := follow_registry jobs s ended n
  · exact ⟨hreg, hconc⟩
  · obtain ⟨d, hd⟩ := h _ hf
    cases hd

theorem IsRecorded.foldl_follow (h : IsRecorded jobs reg s) (ended : Nat) (ns : List Nat) :
    IsRecorded jobs reg (ns.foldl (Scheduler.follow jobs ended) s) := by
  induction ns generalizing s with
  | nil => exact h
  | cons n rest ih =>
    obtain ⟨hreg, hconc⟩ := follow_keeps jobs (fun entry hentry => h.exists_decision hentry) ended n
    exact ih (h.of_eq (by rw [hreg]) (by rw [hreg]) hconc)

/-! ## Checks -/

/-- **An evaluation that is concluded leaves the record of its decision.** -/
theorem IsRecorded.conclude (h : IsRecorded jobs reg s) {n : Nat} {j : Job} (hj : jobs[n]? = some j)
    (hclock : (reg.clock.later s.conclusions.length).now?.isSome) (r : Run) (spent : Float) :
    IsRecorded jobs reg (Scheduler.conclude jobs s n j r spent) := by
  obtain ⟨hlog, haccepts, hreadings, gained, hhistory, hgained⟩ := h
  rw [← hreadings, Option.isSome_iff_exists] at hclock
  obtain ⟨time, htime⟩ := hclock
  obtain ⟨log, x, happend, hlog', haccepts', hhistory', hhash, hdecision⟩ := hlog.append haccepts
    (.str (Audit.hashOf j.proposal.toValue)) (s.registry.drawn j.proposal j.mode r spent time).toValue
  obtain ⟨console, hconclude⟩ := Registry.conclude_of_taken htime happend
  unfold Scheduler.conclude
  rw [hconclude]
  refine IsRecorded.foldl_follow ?_ n _
  refine IsRecorded.of_eq ?_ (congrArg _ (release_keeps jobs _).1) (congrArg _ (release_keeps jobs _).1)
    (release_keeps jobs _).2
  refine ⟨hlog', haccepts', ?_, gained ++ [x], ?_, ?_⟩
  · show s.registry.clock.tick = reg.clock.later (s.conclusions ++ [_]).length
    rw [hreadings, List.length_append]
    rfl
  · show log.history = _
    rw [hhistory', hhistory, List.append_assoc]
  · exact List.rel_append hgained (.cons ⟨j, _, hj, Registry.decision?_deliver _ _, rfl, hhash, hdecision⟩ .nil)

/-- **A check leaves the record of whoever it concludes.** -/
theorem IsRecorded.step (h : IsRecorded jobs reg s) (horder : IsOrderly jobs slots s)
    (hclock : ∀ k < jobs.length, (reg.clock.later k).now?.isSome) : IsRecorded jobs reg (Scheduler.step jobs s) := by
  cases hrun : s.running with
  | nil => rwa [step_of_idle hrun]
  | cons e rest =>
    rcases horder.step_cases hrun with ⟨q, hs, -⟩ | ⟨j, r, b, hj, hs⟩
    · rw [hs]
      exact h.of_eq rfl rfl rfl
    · have hrest : IsRecorded jobs reg { s with running := rest } := h.of_eq rfl rfl rfl
      have hlt : s.conclusions.length < jobs.length := by
        have hplaces := horder.tidy.length_places_le
        have hst : s.standings.length = rest.length + 1 := by rw [standings, hrun, List.length_map, List.length_cons]
        omega
      rw [hs]
      exact hrest.conclude hj (hclock _ hlt) r b

theorem IsRecorded.enrol (h : IsRecorded jobs reg s) : IsRecorded jobs reg (Scheduler.enrol jobs s) := by
  obtain ⟨hreg, hconc⟩ := enrol_keeps jobs s
  exact h.of_eq (by rw [hreg]) (by rw [hreg]) hconc

/-- **Where nothing keeps a record from being stored, every conclusion has one in the end.** -/
theorem isRecorded_run (hearlier : AwaitEarlier jobs) (hlog : reg.log.IsSound) (haccepts : reg.log.Accepts)
    (hclock : ∀ k < jobs.length, (reg.clock.later k).now?.isSome) (slots : Nat) (events : List Event) :
    IsRecorded jobs reg (run reg jobs slots events) := by
  have hhappen : ∀ (s : Scheduler) (what : Happening), IsOrderly jobs slots s ∧ IsRecorded jobs reg s →
      IsOrderly jobs slots (s.happen what) ∧ IsRecorded jobs reg (s.happen what) :=
    fun s what h => ⟨h.1.happen what, h.2.happen what⟩
  have hstart : IsRecorded jobs reg (Scheduler.enrol jobs (happenings events 0 (opening reg slots))) :=
    (foldl_happen_induction (fun _ what h => h.happen what) _ (isRecorded_opening hlog haccepts slots)).enrol
  exact (foldl_happen_induction hhappen _ (turns_induction hhappen
    (fun s h => ⟨h.1.step hearlier, h.2.step h.1 hclock⟩) events _ _
    ⟨isOrderly_enrol ((isEnrolling_opening reg slots).foldl_happen _), hstart⟩)).2

end Scheduler

end PolicyGates
