import PolicyGates.Proofs.Refusals
import PolicyGates.Proofs.Scheduler.Entrants
/-!
# No batch is stuck

Slots are limited and jobs await each other, which is how deadlocks come about.  Here nobody holds a slot or stands in
line for one while it still awaits something, and no slot is lost on the way from one evaluation to the next: so as
long as there is a proposal to settle, some evaluation holds a slot and makes its next check in the next turn
(`progresses_afterTurns`). Every such turn brings the batch nearer to its end, which it has reached after six turns
for each proposal (`coordinate_never_stuck`).
-/
namespace PolicyGates

namespace Scheduler

variable {jobs : List Job} {reg later : Registry} {conclusions : List (Nat × Conclusion)} {j : Job} {c : Conclusion}
  {s : Scheduler} {slots : Nat}

/-! ## How jobs are settled -/

/-- How a job has been settled: its record was taken, or it was not, or something that it awaited has failed. -/
inductive IsSettledBy (reg later : Registry) (conclusions : List (Nat × Conclusion)) (j : Job) : Conclusion → Prop
  | recorded {c : Conclusion} {d : Decision} {r : Audit.Record} (hd : c.decision? = .ok d)
    (hon : d.IsOn reg j.proposal j.mode) (hr : r ∈ later.log.history)
    (hhash : r.proposalHash = .str (Audit.hashOf j.proposal.toValue)) (hdecision : r.decision = d.toValue) :
    IsSettledBy reg later conclusions j c
  /-- Its evaluation ended, and the log did not take the record of the decision. -/
  | refused {reg' : Registry} {r : Run} {b : Budget} {time : Instant} {log : Audit.Log} {f : Failure}
    (hends : Progress.EndsIn (reg.circumstances j.proposal j.mode) j.proposal.toValue j.opening r b)
    (hlater : reg.IsLater reg')
    (hlog : reg'.log.append (.str (Audit.hashOf j.proposal.toValue))
      (reg'.drawn j.proposal j.mode r b.spent time).toValue = (log, .error f)) :
    IsSettledBy reg later conclusions j (.failed f)
  /-- Its evaluation ended, and the clock had no instant for the decision. -/
  | untimed {reg' : Registry} {r : Run} {b : Budget}
    (hends : Progress.EndsIn (reg.circumstances j.proposal j.mode) j.proposal.toValue j.opening r b)
    (hlater : reg.IsLater reg') (hclock : reg'.clock.now? = none) :
    IsSettledBy reg later conclusions j (.failed .noInstant)
  | rejected {a : Nat} {f : Failure} (ha : a ∈ j.awaits) (hfailed : (a, .failed f) ∈ conclusions) :
    IsSettledBy reg later conclusions j (.failed f)

theorem IsSettledBy.mono {later' : Registry} {conclusions' : List (Nat × Conclusion)}
    (h : IsSettledBy reg later conclusions j c) (hhistory : later.log.history ⊆ later'.log.history)
    (hconc : conclusions ⊆ conclusions') :
    IsSettledBy reg later' conclusions' j c := by
  cases h with
  | recorded hd hon hr hhash hdecision => exact .recorded hd hon (hhistory hr) hhash hdecision
  | refused hends hlater hlog => exact .refused hends hlater hlog
  | untimed hends hlater hclock => exact .untimed hends hlater hclock
  | rejected ha hfailed => exact .rejected ha (hconc hfailed)

theorem history_subset (h : reg.IsLater later) : reg.log.history ⊆ later.log.history := by
  obtain ⟨entries, hlog⟩ := h.log
  rw [hlog, Audit.Log.history_appendAll]
  exact List.subset_append_left _ _

/-- **An evaluation that is concluded is recorded or refused**, unless the clock has no instant for it. -/
theorem isSettledBy_conclude {r : Run} {b : Budget} (hlater : reg.IsLater later)
    (hends : Progress.EndsIn (reg.circumstances j.proposal j.mode) j.proposal.toValue j.opening r b)
    (conclusions : List (Nat × Conclusion)) :
    IsSettledBy reg (later.conclude j.proposal j.mode r b.spent).1 conclusions j
      (later.conclude j.proposal j.mode r b.spent).2 := by
  rcases Registry.conclude_cases later j.proposal j.mode r b.spent with
    ⟨hclock, console, hc⟩ | ⟨time, log, f, -, hlog, console, hc⟩ | ⟨time, log, x, -, hlog, console, metrics, c, hc, hd⟩
  · rw [hc]
    exact .untimed hends hlater hclock
  · rw [hc]
    exact .refused hends hlater hlog
  · rw [hc]
    obtain ⟨hgained, hnew⟩ := Audit.Log.append_gains hlog
    obtain ⟨hhash, hdecision⟩ := hnew x rfl
    refine .recorded hd ⟨r, b, _, time, hends, rfl⟩ ?_ hhash hdecision
    show x ∈ log.history
    rw [hgained]
    exact List.mem_append_right _ List.mem_cons_self

/-- **Every job that has been concluded was recorded or refused, or rejected after one that it awaited.** -/
theorem ComesTo.isSettledBy (h : ComesTo reg jobs later conclusions) :
    ∀ n c, (n, c) ∈ conclusions → ∃ j, jobs[n]? = some j ∧ IsSettledBy reg later conclusions j c := by
  induction h with
  | opened => simp
  | elapsed h now ih => exact fun n c hc => (ih n c hc).imp fun j hj =>
    ⟨hj.1, hj.2.mono (List.Subset.refl _) (List.Subset.refl _)⟩
  | concluded h hj hopen hpassed hends ih =>
    intro n c hc
    rcases List.mem_append.1 hc with hc | hc
    · obtain ⟨j, hj, hsettled⟩ := ih n c hc
      exact ⟨j, hj, hsettled.mono (history_subset (Registry.isLater_conclude ..)) (List.subset_append_left _ _)⟩
    · cases List.mem_singleton.1 hc
      exact ⟨_, hj, isSettledBy_conclude h.isLater hends _⟩
  | failed h hj hopen ha hfailed ih =>
    intro n c hc
    rcases List.mem_append.1 hc with hc | hc
    · obtain ⟨j, hj, hsettled⟩ := ih n c hc
      exact ⟨j, hj, hsettled.mono (List.Subset.refl _) (List.subset_append_left _ _)⟩
    · cases List.mem_singleton.1 hc
      exact ⟨_, hj, .rejected ha (List.mem_append_left _ hfailed)⟩

/-! ## Turns -/

/-- Where a schedule stands that is not stuck. -/
structure Progresses (reg : Registry) (jobs : List Job) (slots : Nat) (events : List Event) (done : Nat)
    (s : Scheduler) : Prop where
  /-- Every started evaluation holds a slot, no slot is held besides, and none is free while somebody is in line. -/
  pool : s.pool.Serves slots s.running.length
  /-- No job is in two places: concluded, running or in line. -/
  places : s.places.Nodup
  /-- Whoever holds a slot or stands in line for one awaits nothing any more. -/
  free : ∀ n ∈ s.inHand, ∀ j, jobs[n]? = some j → ∀ a ∈ j.awaits, Passed s.conclusions a
  settled : ∀ n c, (n, c) ∈ s.conclusions → ∃ j, jobs[n]? = some j ∧ IsSettledBy reg s.registry s.conclusions j c
  checks : ∀ e ∈ s.running, MakesCheck reg jobs events done e (turn jobs events done s)

theorem progresses_afterTurns (hearlier : AwaitEarlier jobs) (reg : Registry) (slots : Nat) (events : List Event)
    (k : Nat) :
    Progresses reg jobs slots events k (afterTurns reg jobs slots events k) := by
  have horderly := isOrderly_afterTurns hearlier reg slots events k
  obtain ⟨hsound, hcomes⟩ := comesTo_afterTurns hearlier reg slots events k
  have hpool := horderly.tidy.pool
  rw [standings, List.length_map] at hpool
  exact ⟨hpool, horderly.tidy.nodup, horderly.tidy.inHand, hcomes.isSettledBy,
    fun e he => makesCheck_turn hsound he events k⟩

/-- **While a job is left to settle, somebody runs.** -/
theorem exists_running_of_not_settled (hearlier : AwaitEarlier jobs) (hslots : 1 ≤ slots) (h : IsOrderly jobs slots s)
    {n : Nat} (hn : n < jobs.length) (hopen : ¬Settled s.conclusions n) :
    ∃ e, e ∈ s.running := by
  have hbusy : s.standings ≠ [] := fun hidle => hopen (h.settled_of_idle hearlier hslots hidle hn)
  obtain ⟨e, rest, hrun⟩ := exists_running hbusy
  exact ⟨e, by rw [hrun]; exact List.mem_cons_self⟩

theorem registry_foldl_happen (s : Scheduler) (events : List Event) :
    ∃ now, (events.foldl (fun s e => s.happen e.happening) s).registry = { s.registry with elapsed := now } := by
  refine foldl_happen_induction (P := fun t => ∃ now, t.registry = { s.registry with elapsed := now }) ?_
    events ⟨_, rfl⟩
  rintro t what ⟨now, ht⟩
  cases what with
  | abort reason =>
    refine ⟨now, ?_⟩
    unfold happen
    dsimp only
    split <;> exact ht
  | advance ms => exact ⟨t.registry.elapsed + ms,
    congrArg (fun reg : Registry => { reg with elapsed := t.registry.elapsed + ms }) ht⟩

end Scheduler

namespace Registry

open Scheduler

/-- **No batch is ever stuck.**  Take a batch without a cycle and at least one slot; whatever is aborted and whatever
times out between any two checks, and whatever the store refuses, which answers before the next check, after every
turn: if some proposal is not settled yet, a started evaluation holds a slot and makes its next check in the next
turn.  So after six turns for each proposal all of them are settled, no slot is taken and nobody stands in line, and
what the batch leaves behind is what has been left behind by then. -/
theorem coordinate_never_stuck {reg : Registry} {documents : List Value} {proposals : List Proposal}
    {timeoutMs : Value} {limit : Option TimeLimit} (hread : readBatch documents = .ok proposals)
    (hids : (proposals.map Proposal.proposalId).Nodup) (hacyclic : ¬Batch.HasCycle proposals)
    (hlimit : TimeLimit.ofValue (timeoutMs.orElse (.ofOption .num reg.settings.timeoutMs)) = .ok limit)
    (hslots : 1 ≤ Decimal.toCount reg.settings.concurrency) (mode : Option Mode) (events : List Event) :
    ∃ ordered, Batch.order proposals = .ok ordered ∧
      let slots := Decimal.toCount reg.settings.concurrency
      let jobs := ordered.map (reg.jobIn ordered mode limit)
      let s := afterTurns reg jobs slots events
      let last := s (6 * proposals.length)
      reg.jobsOf ordered mode timeoutMs = .ok jobs
      ∧ (∀ k, Progresses reg jobs slots events k (s k))
      ∧ (∀ k, ∀ p ∈ proposals, ¬Settled (s k).conclusions (numberOf ordered p) →
          ∃ e ∈ (s k).running, MakesCheck reg jobs events k e (turn jobs events k (s k)))
      ∧ (∀ k, 6 * proposals.length ≤ k → (∀ p ∈ proposals, Settled (s k).conclusions (numberOf ordered p))
          ∧ (s k).running = [] ∧ (s k).pool = .idle slots)
      ∧ Scheduler.run reg jobs slots events = afterwards events (6 * proposals.length) last
      ∧ ∃ console elapsed, (reg.coordinate documents mode timeoutMs events).1
          = { last.registry with console := console, elapsed := elapsed } := by
  obtain ⟨ordered, horder⟩ := Batch.exists_order hids hacyclic
  obtain ⟨-, hperm, hinOrder⟩ := Batch.of_order_eq_ok horder
  refine ⟨ordered, horder, ?_⟩
  intro slots jobs s last
  have hjobs : reg.jobsOf ordered mode timeoutMs = .ok jobs := jobsOf_eq ordered mode hlimit
  have hearlier : AwaitEarlier jobs := awaitEarlier_jobs hids hperm hinOrder
  have hlength : jobs.length = proposals.length := by rw [List.length_map, hperm.length_eq]
  have hturns : turnsFor jobs.length = 6 * proposals.length := by rw [hlength]; rfl
  have horderly : ∀ k, IsOrderly jobs slots (s k) := isOrderly_afterTurns hearlier reg slots events
  have hnumber : ∀ p ∈ proposals, numberOf ordered p < jobs.length := by
    intro p hp
    rw [List.length_map]
    exact numberOf_lt (hperm.mem_iff.2 hp)
  have hprogresses : ∀ k, Progresses reg jobs slots events k (s k) := progresses_afterTurns hearlier reg slots events
  have hrun : Scheduler.run reg jobs slots events = afterwards events (6 * proposals.length) last := by
    unfold Scheduler.run
    rw [hturns]
    rfl
  refine ⟨hjobs, hprogresses, fun k p hp hopen => ?_, fun k hk => ?_, hrun, ?_⟩
  · obtain ⟨e, he⟩ := exists_running_of_not_settled hearlier hslots (horderly k) (hnumber p hp) hopen
    exact ⟨e, he, (hprogresses k).checks e he⟩
  · have hidle : (s k).standings = [] := idle_afterTurns hearlier reg slots events (hturns ▸ hk)
    refine ⟨fun p hp => (horderly k).settled_of_idle hearlier hslots hidle (hnumber p hp),
      List.map_eq_nil_iff.1 hidle, ?_⟩
    exact (horderly k).tidy.pool.eq_idle (by rw [hidle]; rfl) hslots
  · obtain ⟨now, hnow⟩ := registry_foldl_happen last
      (during events (fun m => !m.le (6 * proposals.length : Nat)))
    change (afterwards events (6 * proposals.length) last).registry = _ at hnow
    rw [← hrun] at hnow
    unfold coordinate
    simp only [hread, horder, hjobs]
    -- whatever is answered, at most a line is written besides
    split
    · exact ⟨_, now, hnow⟩
    · split
      · exact ⟨_, now, congrArg (fun reg' : Registry => reg'.write .log _) hnow⟩
      · exact ⟨_, now, hnow⟩

/-- The store refuses the record of the first proposal, on which the second depends, and all is aborted after a turn. -/
theorem refused_pair_ends :
    let reg := Registry.start (.ofValue (Settings.merged (.obj []))) (some ⟨[], [true], 0⟩)
      (.startingAt Clock.defaultStart)
    let proposals : List Proposal :=
      [.ofValue (.obj (namedMembers "p2" ["p1"])), .ofValue (.obj (namedMembers "p1" []))]
    let slots := Decimal.toCount reg.settings.concurrency
    ∃ ordered jobs, Batch.order proposals = .ok ordered ∧ reg.jobsOf ordered none .absent = .ok jobs
      ∧ ∀ k, 12 ≤ k → (∀ p ∈ proposals,
        Settled (afterTurns reg jobs slots [⟨1, .abort .unstated⟩] k).conclusions (numberOf ordered p))
        ∧ (afterTurns reg jobs slots [⟨1, .abort .unstated⟩] k).running = []
        ∧ (afterTurns reg jobs slots [⟨1, .abort .unstated⟩] k).pool = .idle slots := by
  intro reg proposals slots
  have hread : readBatch [.obj (namedMembers "p2" ["p1"]), .obj (namedMembers "p1" [])] = .ok proposals := by
    rw [readBatch, create_namedMembers rfl, readBatch, create_namedMembers rfl]
    rfl
  have horder : Batch.order proposals = .ok proposals.reverse := rfl
  obtain ⟨hids, hperm, hinOrder⟩ := Batch.of_order_eq_ok horder
  have hlimit : TimeLimit.ofValue (Value.absent.orElse (.ofOption .num reg.settings.timeoutMs)) = .ok none := rfl
  have hslots : 1 ≤ Decimal.toCount reg.settings.concurrency := by decide +kernel
  obtain ⟨ordered, hordered, hjobs, -, -, hends, -⟩ :=
    coordinate_never_stuck hread hids (hinOrder.not_hasCycle hperm hids) hlimit hslots none [⟨1, .abort .unstated⟩]
  exact ⟨ordered, _, hordered, hjobs, hends⟩

end Registry

end PolicyGates
