import PolicyGates.Evaluation
import PolicyGates.Proofs.Scheduler.Turns
/-!
# What is decided of a proposal

Of the requests that are started together, those that come to a job are each told how that was concluded
(`exists_conclusionFor`), on a run of its own (`exists_isConcluded`).  A decision on a run that was not cancelled
follows from the proposal, the settings, the phase and the mode (`isDecided_of_isSettled`).  It is an approval where
every gate's condition is met and the budget pays for all of them; it is left to people where the impact is too large,
the budget pays for all gates and an enforced run has not ended for want of memory; and it is a rejection otherwise.
-/
namespace PolicyGates

open Double

namespace Registry

variable {reg : Registry} {events : List Event}

/-! ## Requests and jobs -/

theorem prepare_eq_ok {r : Request} {p : Proposal} {limit : Option TimeLimit} (hp : Proposal.create r.document = .ok p)
    (hlimit : TimeLimit.ofValue (r.timeoutMs.orElse (.ofOption .num reg.settings.timeoutMs)) = .ok limit) :
    reg.prepare r = .ok ⟨p, r.mode.getD reg.settings.mode, limit, []⟩ := by
  unfold prepare job
  rw [hp, hlimit]
  rfl

/-- The job of a request evaluates the proposal of the document in the mode that was asked for, and awaits nothing. -/
theorem of_prepare {r : Request} {j : Job} (h : reg.prepare r = .ok j) :
    Proposal.create r.document = .ok j.proposal ∧ j.mode = r.mode.getD reg.settings.mode ∧ j.awaits = [] := by
  unfold prepare job at h
  split at h
  · next p hp =>
    cases hlimit : TimeLimit.ofValue (r.timeoutMs.orElse (.ofOption .num reg.settings.timeoutMs)) with
    | error f =>
      rw [hlimit] at h
      cases h
    | ok limit =>
      rw [hlimit] at h
      cases h
      exact ⟨hp, rfl, rfl⟩
  · cases h

theorem awaits_of_prepare {r : Request} {j : Job} (h : reg.prepare r = .ok j) : j.awaits = [] := (of_prepare h).2.2

theorem areFree_prepared (requests : List Request) :
    Scheduler.AreFree ((requests.map reg.prepare).filterMap Except.toOption) := by
  intro j hj
  obtain ⟨x, hx, hxj⟩ := List.mem_filterMap.1 hj
  obtain ⟨r, -, rfl⟩ := List.mem_map.1 hx
  cases hr : reg.prepare r with
  | error f =>
    rw [hr] at hxj
    cases hxj
  | ok j' =>
    rw [hr] at hxj
    cases hxj
    exact awaits_of_prepare hr

theorem outcomes_getElem? (s : Scheduler) {prepared : List (Except Failure Job)} {i : Nat} {j : Job}
    (h : prepared[i]? = some (.ok j)) (n : Nat) :
    ∃ k, (prepared.filterMap Except.toOption)[k]? = some j
      ∧ (outcomes s n prepared)[i]? = some (outcomeOf s (n + k)) := by
  induction prepared generalizing i n with
  | nil => simp at h
  | cons x rest ih =>
    cases i with
    | zero =>
      rw [List.getElem?_cons_zero] at h
      cases h
      exact ⟨0, rfl, rfl⟩
    | succ i =>
      rw [List.getElem?_cons_succ] at h
      cases x with
      | error f => exact ih h n
      | ok j' =>
        obtain ⟨k, hk, ho⟩ := ih h (n + 1)
        refine ⟨k + 1, hk, ?_⟩
        rw [show n + (k + 1) = n + 1 + k by omega]
        exact ho

theorem outcomes_getElem?_error (s : Scheduler) {prepared : List (Except Failure Job)} {i : Nat} {f : Failure}
    (h : prepared[i]? = some (.error f)) (n : Nat) : (outcomes s n prepared)[i]? = some (.error f) := by
  induction prepared generalizing i n with
  | nil => simp at h
  | cons x rest ih =>
    cases i with
    | zero =>
      rw [List.getElem?_cons_zero] at h
      cases h
      rfl
    | succ i =>
      rw [List.getElem?_cons_succ] at h
      cases x with
      | error f' => exact ih h n
      | ok j => exact ih h (n + 1)

/-- The jobs of requests that are started together. -/
def jobsFor (reg : Registry) (requests : List Request) : List Job :=
  (requests.map reg.prepare).filterMap Except.toOption

theorem exists_conclusionFor (requests : List Request) (events : List Event) {i : Nat} {r : Request} {j : Job}
    (hr : requests[i]? = some r) (hj : reg.prepare r = .ok j) :
    ∃ c n, (reg.checkAll requests events).2[i]? = some c.outcome ∧ (reg.jobsFor requests)[n]? = some j
      ∧ (n, c) ∈ (Scheduler.run reg (reg.jobsFor requests) (reg.jobsFor requests).length events).conclusions := by
  have hprepared : (requests.map reg.prepare)[i]? = some (.ok j) := by rw [List.getElem?_map, hr, Option.map_some, hj]
  obtain ⟨n, hn, houtcome⟩ :=
    outcomes_getElem? (Scheduler.run reg (reg.jobsFor requests) (reg.jobsFor requests).length events)
    hprepared 0
  obtain ⟨hlt, -⟩ := List.getElem?_eq_some_iff.1 hn
  obtain ⟨c, hc, hmem⟩ := Scheduler.exists_conclusion reg (areFree_prepared requests) events hlt
  rw [Nat.zero_add, outcomeOf, jobsFor, hc] at houtcome
  exact ⟨c, n, houtcome, hn, hmem⟩

/-- **Every request that comes to a job is concluded on a run of its own.** -/
theorem exists_isConcluded (requests : List Request) (events : List Event) {i : Nat} {r : Request} {j : Job}
    (hr : requests[i]? = some r) (hj : reg.prepare r = .ok j) :
    ∃ c, (reg.checkAll requests events).2[i]? = some c.outcome ∧ j.IsConcluded reg c := by
  obtain ⟨c, n, houtcome, hn, hmem⟩ := exists_conclusionFor requests events hr hj
  obtain ⟨j', hj', hended⟩ := (Scheduler.isSound_run reg _ _ events).conclusions _ hmem
  obtain rfl : j = j' := Option.some.inj (hn.symm.trans hj')
  exact ⟨c, houtcome, hended.resolve_right fun ha => ha.1 (awaits_of_prepare hj)⟩

theorem checkAll_singleton (r : Request) (events : List Event) :
    reg.checkAll [r] events = ((reg.check r events).1, [(reg.check r events).2]) := by
  unfold checkAll check
  cases hr : reg.prepare r with
  | error f =>
    simp only [List.map_cons, List.map_nil, hr]
    rfl
  | ok j =>
    simp only [List.map_cons, List.map_nil, hr]
    rfl

/-! ## Decisions -/

section Decided

variable (s : Settings) (phase : Phase) (p : Proposal) (mode : Mode)

/-- Every gate's condition is met, and the budget pays for every gate. -/
def IsApprovable : Prop := (∀ g : Gate, g.IsMet s phase p) ∧ Pays s p Gate.all

/-- The impact is too large, the budget pays for every gate, and no enforced run has ended for want of memory. -/
def IsForPeople : Prop := s.escalationThreshold < p.impactScore ∧ Pays s p Gate.all
  ∧ ¬(mode.enforces = true ∧ s.memoryLimitBytes ≤ p.estimatedMemoryBytes)

/-- What the decision on a proposal has to be, if nobody cancels the evaluation. -/
structure IsDecided (d : Decision) : Prop where
  approve : d.overall = .approve ↔ IsApprovable s phase p
  escalateHuman : d.overall = .escalateHuman ↔ IsForPeople s p mode
  reject : d.overall = .reject ↔ ¬IsApprovable s phase p ∧ ¬IsForPeople s p mode
  /-- What is claimed is accrued by an approved proposal that regenerates enough. -/
  viabilityPowerDelta : d.viabilityPowerDelta
    = if d.overall = .approve ∧ s.rAbsoluteThreshold ≤ p.rAbsolute then p.viabilityPowerClaim else 0.0

variable {s phase p mode}

theorem isDecided_of_isSettled (hs : s.IsChecked) (hp : p.IsChecked) {r : Run} (h : r.IsSettled s phase p mode)
    (id : String) (spent : Float) (time : Instant) :
    IsDecided s phase p mode (.ofRun id p.proposalId mode r spent time) := by
  have happrove : r.verdict = .approve ↔ IsApprovable s phase p := h.verdict_eq_approve_iff
  have hescalate : r.verdict = .escalateHuman ↔ IsForPeople s p mode := by
    have himpact : ¬Gate.humanEscalation.IsMet s phase p ↔ s.escalationThreshold < p.impactScore :=
      not_le_iff hp.impactScore.1 hs.escalationThreshold.1
    have hmemory : ¬Gate.hardwareViability.IsMet s phase p ↔ s.memoryLimitBytes ≤ p.estimatedMemoryBytes :=
      not_lt_iff hp.estimatedMemoryBytes.1 hs.memoryLimitBytes.1
    rw [IsForPeople, ← himpact, ← hmemory]
    exact h.verdict_eq_escalateHuman_iff
  refine ⟨happrove, hescalate, ?_, ?_⟩
  · rw [← happrove, ← hescalate]
    show r.verdict = .reject ↔ _
    cases r.verdict <;> decide
  · rw [show (Decision.ofRun id p.proposalId mode r spent time).viabilityPowerDelta = r.powerDelta from rfl,
      show (Decision.ofRun id p.proposalId mode r spent time).overall = r.verdict from rfl, h.powerDelta_eq,
      Gate.accrued, ite_and]

end Decided

end Registry

end PolicyGates
