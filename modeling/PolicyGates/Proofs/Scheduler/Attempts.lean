import PolicyGates.Proofs.Scheduler.Conclusions
/-!
# The evaluations that are carried out

A schedule carries out some evaluations, one after the other: each takes an id and a reading of the clock, a decision
is drawn up on a run of the proposal's own and handed to the log, and the decision is counted if the log takes it
(`Registry.Carries`). A job is concluded as its own evaluation was answered, or fails after one that it awaits
(`IsTraced`), whatever is cancelled and whatever the store refuses (`exists_attempts`).
-/
namespace PolicyGates

/-! ## Appends -/

namespace Audit.Log

variable {l : Log}

theorem appendAll_concat (l : Log) (es : List (Value × Value)) (e : Value × Value) :
    l.appendAll (es ++ [e])
      = (((l.appendAll es).1.append e.1 e.2).1, (l.appendAll es).2 ++ [((l.appendAll es).1.append e.1 e.2).2]) := by
  induction es generalizing l with
  | nil => rfl
  | cons x rest ih =>
    simp only [List.cons_append, appendAll, ih]

theorem history_appendAll (l : Log) (es : List (Value × Value)) :
    (l.appendAll es).1.history = l.history ++ (l.appendAll es).2.filterMap Except.toOption := by
  induction es generalizing l with
  | nil => exact (List.append_nil _).symm
  | cons e rest ih =>
    rw [appendAll, ih]
    cases happend : l.append e.1 e.2 with
    | mk l' answer =>
      cases answer with
      | error f => rw [(append_eq_error happend).2.1]; rfl
      | ok r =>
        rw [(append_eq_ok happend).2.1, List.append_assoc]
        rfl

end Audit.Log

/-! ## Attempts -/

/-- An evaluation that was carried out: the decision that was drawn up, and what the log answered when it was handed
that. -/
structure Attempt where
  proposal : Proposal
  decision : Decision
  answer : Except Failure Audit.Record

def Metrics.countAll (m : Metrics) (ds : List Decision) : Metrics := ds.foldl (fun m d => (m.count d).1) m

namespace Attempt

/-- What was handed to the log. -/
def entry (a : Attempt) : Value × Value := (.str (Audit.hashOf a.proposal.toValue), a.decision.toValue)

def isAccepted (a : Attempt) : Bool := a.answer.isOk

@[simp] theorem isAccepted_eq_false_iff {a : Attempt} : a.isAccepted = false ↔ ∃ f, a.answer = .error f := by
  unfold isAccepted
  cases a.answer <;> simp [Except.isOk, Except.toBool]

def conclusion (a : Attempt) : Conclusion :=
  match a.answer with
  | .ok _ => a.decision.conclusion
  | .error f => .failed f

theorem decision?_eq (a : Attempt) : a.conclusion.decision? = a.answer.map fun _ => a.decision := by
  unfold conclusion
  cases a.answer with
  | ok r => exact Decision.decision?_conclusion _
  | error f => rfl

theorem isAccepted_of_failed {a : Attempt} {f : Failure} (h : a.conclusion = .failed f) : a.isAccepted = false := by
  have hdecision := a.decision?_eq
  rw [h] at hdecision
  cases hanswer : a.answer with
  | ok r =>
    rw [hanswer] at hdecision
    cases hdecision
  | error g => exact isAccepted_eq_false_iff.2 ⟨g, hanswer⟩

theorem exists_failed {a : Attempt} (h : a.isAccepted = false) : ∃ f, a.conclusion = .failed f := by
  obtain ⟨f, hf⟩ := isAccepted_eq_false_iff.1 h
  exact ⟨f, by rw [conclusion, hf]⟩

/-- The decision is one on a run of the proposal's own. -/
def IsOwn (reg : Registry) (mode : Mode) (a : Attempt) : Prop := a.decision.IsOn reg a.proposal mode

end Attempt

namespace Registry

/-- The registry has come from another one by carrying out these evaluations, one after the other. -/
structure Carries (reg : Registry) (attempts : List Attempt) (later : Registry) : Prop where
  settings : later.settings = reg.settings
  log : reg.log.appendAll (attempts.map Attempt.entry) = (later.log, attempts.map Attempt.answer)
  ledger : later.ledger = reg.ledger
  metrics : later.metrics = reg.metrics.countAll ((attempts.filter Attempt.isAccepted).map Attempt.decision)
  clock : later.clock = reg.clock.later attempts.length
  issued : later.issued = reg.issued + attempts.length

variable {reg later : Registry} {attempts : List Attempt}

theorem Carries.refl (reg : Registry) : reg.Carries [] reg := ⟨rfl, rfl, rfl, rfl, rfl, rfl⟩

/-- **To conclude an evaluation is to carry out one more.** -/
theorem Carries.conclude (h : reg.Carries attempts later) {time : Instant} (hnow : later.clock.now? = some time)
    (p : Proposal) (mode : Mode) (r : Run) (spent : Float) :
    ∃ a : Attempt, a.proposal = p ∧ a.decision = later.drawn p mode r spent time
      ∧ reg.Carries (attempts ++ [a]) (later.conclude p mode r spent).1
      ∧ (later.conclude p mode r spent).2 = a.conclusion := by
  obtain ⟨hsettings, hlog, hledger, hmetrics, hclock, hissued⟩ := h
  cases happend : later.log.append (.str (Audit.hashOf p.toValue)) (later.drawn p mode r spent time).toValue with
  | mk log answer =>
    have hall : reg.log.appendAll
      ((attempts ++ [(⟨p, later.drawn p mode r spent time, answer⟩ : Attempt)]).map Attempt.entry)
        = (log, (attempts ++ [(⟨p, later.drawn p mode r spent time, answer⟩ : Attempt)]).map Attempt.answer) := by
      rw [List.map_append, List.map_singleton, Audit.Log.appendAll_concat, hlog, List.map_append]
      simp only [Attempt.entry, happend]
      rfl
    refine ⟨⟨p, later.drawn p mode r spent time, answer⟩, rfl, rfl, ?_⟩
    cases answer with
    | error f =>
      obtain ⟨console, hconclude⟩ := conclude_of_refused hnow happend
      rw [hconclude]
      refine ⟨⟨hsettings, hall, hledger, ?_, ?_, ?_⟩, rfl⟩
      · show later.metrics = _
        rw [hmetrics, List.filter_append, List.filter_singleton]
        exact congrArg _ (congrArg _ (List.append_nil _).symm)
      · rw [hclock, List.length_append]; rfl
      · rw [hissued, List.length_append]; rfl
    | ok x =>
      obtain ⟨console, hconclude⟩ := conclude_of_taken hnow happend
      rw [hconclude]
      refine ⟨⟨hsettings, hall, hledger, ?_, ?_, ?_⟩, deliver_eq_conclusion _ _⟩
      · rw [hmetrics, List.filter_append, List.map_append]
        unfold Metrics.countAll
        rw [List.foldl_append]
        rfl
      · rw [hclock, List.length_append]; rfl
      · rw [hissued, List.length_append]; rfl

end Registry

namespace Scheduler

variable {reg : Registry} {jobs : List Job}

/-- This is the evaluation of the job with the number, carried out after all that the job awaits. -/
def IsAttemptOf (reg : Registry) (jobs : List Job) (conclusions : List (Nat × Conclusion)) (x : Nat × Attempt) : Prop :=
  ∃ j, jobs[x.1]? = some j ∧ x.2.proposal = j.proposal ∧ x.2.IsOwn reg j.mode ∧ (x.1, x.2.conclusion) ∈ conclusions
    ∧ ∀ a ∈ j.awaits, Passed conclusions a

/-- The evaluation was carried out, and its record was refused. -/
def Refused (attempts : List (Nat × Attempt)) (n : Nat) : Prop := ∃ x ∈ attempts, x.1 = n ∧ x.2.isAccepted = false

/-- What a schedule has come to, and the evaluations that it has carried out, with the numbers of their jobs. -/
structure IsTraced (reg : Registry) (jobs : List Job) (later : Registry) (conclusions : List (Nat × Conclusion))
    (attempts : List (Nat × Attempt)) : Prop where
  carries : reg.Carries (attempts.map Prod.snd) later
  nodup : (attempts.map Prod.fst).Nodup
  own : ∀ x ∈ attempts, IsAttemptOf reg jobs conclusions x
  /-- A job that was concluded without an evaluation has failed after one that it awaited. -/
  failed : ∀ n c, (n, c) ∈ conclusions → n ∉ attempts.map Prod.fst →
    (∃ f, c = .failed f) ∧ ∃ j, jobs[n]? = some j ∧ ∃ a ∈ j.awaits, Failed conclusions a

variable {later : Registry} {conclusions : List (Nat × Conclusion)} {attempts : List (Nat × Attempt)}
  {n : Nat} {j : Job}

theorem IsAttemptOf.concat {x : Nat × Attempt} (h : IsAttemptOf reg jobs conclusions x) (hn : ¬Settled conclusions n)
    (c : Conclusion) : IsAttemptOf reg jobs (conclusions ++ [(n, c)]) x := by
  obtain ⟨j, hj, hproposal, hown, hmem, hpassed⟩ := h
  exact ⟨j, hj, hproposal, hown, List.mem_append_left _ hmem, fun a ha => (hpassed a ha).concat hn⟩

namespace IsTraced

theorem settled (h : IsTraced reg jobs later conclusions attempts) (hn : n ∈ attempts.map Prod.fst) :
    Settled conclusions n := by
  obtain ⟨x, hx, rfl⟩ := List.mem_map.1 hn
  obtain ⟨j, -, -, -, hmem, -⟩ := h.own x hx
  exact ⟨_, hmem⟩

theorem length_lt (h : IsTraced reg jobs later conclusions attempts) (hj : jobs[n]? = some j)
    (hn : ¬Settled conclusions n) :
    attempts.length < jobs.length := by
  -- the numbers of the jobs that have been evaluated are different, and this one is not among them
  have hnodup : (n :: attempts.map Prod.fst).Nodup := List.nodup_cons.2 ⟨fun hc => hn (h.settled hc), h.nodup⟩
  have hsubset : n :: attempts.map Prod.fst ⊆ List.range jobs.length := by
    intro m hm
    rw [List.mem_range]
    rcases List.mem_cons.1 hm with rfl | hm
    · exact (List.getElem?_eq_some_iff.1 hj).1
    · obtain ⟨x, hx, rfl⟩ := List.mem_map.1 hm
      obtain ⟨j', hj', -⟩ := h.own x hx
      exact (List.getElem?_eq_some_iff.1 hj').1
  have hle := (List.subperm_of_subset hnodup hsubset).length_le
  rwa [List.length_cons, List.length_map, List.length_range] at hle

theorem elapsed (h : IsTraced reg jobs later conclusions attempts) (now : Float) :
    IsTraced reg jobs { later with elapsed := now } conclusions attempts := by
  obtain ⟨⟨hsettings, hlog, hledger, hmetrics, hclock, hissued⟩, hnodup, hown, hfailed⟩ := h
  exact ⟨⟨hsettings, hlog, hledger, hmetrics, hclock, hissued⟩, hnodup, hown, hfailed⟩

/-- **A job that is concluded has been evaluated once more than those before.** -/
theorem conclude (h : IsTraced reg jobs later conclusions attempts) (hj : jobs[n]? = some j)
    (hn : ¬Settled conclusions n) (hpassed : ∀ a ∈ j.awaits, Passed conclusions a) {r : Run} {b : Budget}
    (hends : Progress.EndsIn (reg.circumstances j.proposal j.mode) j.proposal.toValue j.opening r b)
    (hclock : ∀ k < jobs.length, (reg.clock.later k).now?.isSome) :
    ∃ a, IsTraced reg jobs (later.conclude j.proposal j.mode r b.spent).1
      (conclusions ++ [(n, (later.conclude j.proposal j.mode r b.spent).2)]) (attempts ++ [(n, a)]) := by
  have hinstant : later.clock.now?.isSome := by
    rw [h.carries.clock, List.length_map]
    exact hclock _ (h.length_lt hj hn)
  obtain ⟨time, htime⟩ := Option.isSome_iff_exists.1 hinstant
  obtain ⟨a, hproposal, hdecision, hcarries, hconclusion⟩ := h.carries.conclude htime j.proposal j.mode r b.spent
  have hnew : n ∉ attempts.map Prod.fst := fun hc => hn (h.settled hc)
  have hown : a.IsOwn reg j.mode := ⟨r, b, _, time, hproposal ▸ hends, by rw [hdecision, hproposal]; rfl⟩
  refine ⟨a, ?_, ?_, ?_, ?_⟩
  · rw [List.map_append]
    exact hcarries
  · rw [List.map_append]
    refine List.nodup_append.2 ⟨h.nodup, List.nodup_singleton n, ?_⟩
    rintro m hm k hk rfl
    cases List.mem_singleton.1 hk
    exact hnew hm
  · refine List.forall_mem_append.2 ⟨fun x hx => (h.own x hx).concat hn _, List.forall_mem_singleton.2 ?_⟩
    refine ⟨j, hj, hproposal, hown, ?_, fun m hm => (hpassed m hm).concat hn⟩
    rw [hconclusion]
    exact List.mem_append_right _ List.mem_cons_self
  · intro m c hmem hm
    rw [List.map_append, List.mem_append, not_or] at hm
    rcases List.mem_append.1 hmem with hmem | hmem
    · obtain ⟨hf, j', hj', m', hm', hfail⟩ := h.failed m c hmem hm.1
      exact ⟨hf, j', hj', m', hm', hfail.concat⟩
    · cases List.mem_singleton.1 hmem
      exact absurd List.mem_cons_self hm.2

theorem fail {m : Nat} {f : Failure} (h : IsTraced reg jobs later conclusions attempts) (hj : jobs[n]? = some j)
    (hn : ¬Settled conclusions n) (hm : m ∈ j.awaits) (hfailed : (m, .failed f) ∈ conclusions) :
    IsTraced reg jobs later (conclusions ++ [(n, .failed f)]) attempts := by
  refine ⟨h.carries, h.nodup, fun x hx => (h.own x hx).concat hn _, fun k c hmem hk => ?_⟩
  rcases List.mem_append.1 hmem with hmem | hmem
  · obtain ⟨hf, j', hj', m', hm', hfail⟩ := h.failed k c hmem hk
    exact ⟨hf, j', hj', m', hm', hfail.concat⟩
  · cases List.mem_singleton.1 hmem
    exact ⟨⟨f, rfl⟩, j, hj, m, hm, Failed.concat ⟨f, hfailed⟩⟩

/-! ## Who is evaluated -/

theorem failed_of_refused (h : IsTraced reg jobs later conclusions attempts) (hn : Refused attempts n) :
    Failed conclusions n := by
  obtain ⟨x, hx, rfl, hrefused⟩ := hn
  obtain ⟨j, -, -, -, hmem, -⟩ := h.own x hx
  obtain ⟨f, hf⟩ := x.2.exists_failed hrefused
  exact ⟨f, hf ▸ hmem⟩

theorem refused_of_failed (h : IsTraced reg jobs later conclusions attempts) (hnodup : (conclusions.map Prod.fst).Nodup)
    (hn : n ∈ attempts.map Prod.fst) (hfailed : Failed conclusions n) : Refused attempts n := by
  obtain ⟨x, hx, rfl⟩ := List.mem_map.1 hn
  obtain ⟨j, -, -, -, hmem, -⟩ := h.own x hx
  obtain ⟨f, hf⟩ := hfailed
  have hsame := List.inj_on_of_nodup_map hnodup hmem hf rfl
  exact ⟨x, hx, rfl, Attempt.isAccepted_of_failed (Prod.ext_iff.1 hsame).2⟩

/-- **A job is evaluated exactly if all that it awaits is**, and none of that was refused. -/
theorem evaluated_iff (h : IsTraced reg jobs later conclusions attempts) (hnodup : (conclusions.map Prod.fst).Nodup)
    (hj : jobs[n]? = some j) (hn : Settled conclusions n) :
    n ∈ attempts.map Prod.fst ↔ ∀ a ∈ j.awaits, a ∈ attempts.map Prod.fst ∧ ¬Refused attempts a := by
  constructor
  · intro hmem a ha
    obtain ⟨x, hx, rfl⟩ := List.mem_map.1 hmem
    obtain ⟨j', hj', -, -, -, hpassed⟩ := h.own x hx
    obtain rfl := Option.some.inj (hj.symm.trans hj')
    obtain ⟨⟨c, hc⟩, hopen⟩ := hpassed a ha
    refine ⟨by_contra fun hnot => hopen ?_, fun hrefused => hopen (h.failed_of_refused hrefused)⟩
    obtain ⟨⟨f, rfl⟩, -⟩ := h.failed a c hc hnot
    exact ⟨f, hc⟩
  · intro hall
    by_contra hnot
    obtain ⟨c, hc⟩ := hn
    obtain ⟨-, j', hj', a, ha, hfailed⟩ := h.failed n c hc hnot
    obtain rfl := Option.some.inj (hj.symm.trans hj')
    exact (hall a ha).2 (h.refused_of_failed hnodup (hall a ha).1 hfailed)

theorem exists_refused (h : IsTraced reg jobs later conclusions attempts) (hnodup : (conclusions.map Prod.fst).Nodup)
    (hearlier : AwaitEarlier jobs) (hfailed : Failed conclusions n) : ∃ m, Refused attempts m := by
  induction n using Nat.strong_induction_on with
  | h n ih =>
    by_cases hn : n ∈ attempts.map Prod.fst
    · exact ⟨n, h.refused_of_failed hnodup hn hfailed⟩
    · obtain ⟨f, hf⟩ := hfailed
      obtain ⟨-, j, hj, a, ha, hawaited⟩ := h.failed n _ hf hn
      exact ih a (hearlier n j hj a ha) hawaited

end IsTraced

/-- **Whatever a schedule comes to, it has come to by carrying out evaluations**, as long as the clock has an instant
for each. -/
theorem ComesTo.exists_attempts (h : ComesTo reg jobs later conclusions)
    (hclock : ∀ k < jobs.length, (reg.clock.later k).now?.isSome) :
    ∃ attempts, IsTraced reg jobs later conclusions attempts := by
  induction h with
  | opened => exact ⟨[], .refl reg, List.nodup_nil, by simp, by simp⟩
  | elapsed _ now ih =>
    obtain ⟨attempts, htraced⟩ := ih
    exact ⟨attempts, htraced.elapsed now⟩
  | concluded _ hj hn hpassed hends ih =>
    obtain ⟨attempts, htraced⟩ := ih
    obtain ⟨a, ha⟩ := htraced.conclude hj hn hpassed hends hclock
    exact ⟨_, ha⟩
  | failed _ hj hn hm hfailed ih =>
    obtain ⟨attempts, htraced⟩ := ih
    exact ⟨attempts, htraced.fail hj hn hm hfailed⟩

end Scheduler

end PolicyGates
