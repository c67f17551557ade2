import Mathlib.Data.List.Forall2
import PolicyGates.Registry
/-!
# What a conclusion comes from

Concluding an evaluation draws up a decision on its run and hands it to the log.  There are three ways in which this can
end (`conclude_cases`): the clock has no instant to give, the log does not take the record, or the decision is handed
over, if only as a refusal.  Settings never change, the clock only moves on and the log only has records appended to it
(`IsLater`).
-/
namespace PolicyGates

theorem exists_mapM_eq_ok {α β ε : Type} {f : α → Except ε β} {R : α → β → Prop} {l : List α}
    (h : ∀ a ∈ l, ∃ b, f a = .ok b ∧ R a b) : ∃ bs, l.mapM f = .ok bs ∧ List.Forall₂ R l bs := by
  induction l with
  | nil => exact ⟨[], rfl, .nil⟩
  | cons a rest ih =>
    obtain ⟨ha, hrest⟩ := List.forall_mem_cons.1 h
    obtain ⟨b, hb, hab⟩ := ha
    obtain ⟨bs, hbs, hall⟩ := ih hrest
    refine ⟨b :: bs, ?_, .cons hab hall⟩
    rw [List.mapM_cons, hb, hbs]
    rfl

theorem forall₂_of_mapM_eq_ok {α β ε : Type} {f : α → Except ε β} {l : List α} {bs : List β} (h : l.mapM f = .ok bs) :
    List.Forall₂ (fun a b => f a = .ok b) l bs := by
  induction l generalizing bs with
  | nil =>
    cases h
    exact .nil
  | cons a rest ih =>
    rw [List.mapM_cons] at h
    cases ha : f a with
    | error e =>
      rw [ha] at h
      cases h
    | ok b =>
      cases hrest : rest.mapM f with
      | error e =>
        rw [ha, hrest] at h
        cases h
      | ok bs' =>
        rw [ha, hrest] at h
        cases h
        exact .cons ha (ih hrest)

theorem exists_getElem?_of_forall₂ {α β : Type} {R : α → β → Prop} {l : List α} {l' : List β}
    (h : List.Forall₂ R l l') {i : Nat} {a : α} (ha : l[i]? = some a) :
    ∃ b, l'[i]? = some b ∧ R a b := by
  obtain ⟨hi, rfl⟩ := List.getElem?_eq_some_iff.1 ha
  have hi' : i < l'.length := h.length_eq ▸ hi
  exact ⟨_, List.getElem?_eq_getElem hi', (List.forall₂_iff_get.1 h).2 i hi hi'⟩

theorem split_concat {α : Type} {l before after : List α} {x y : α} (h : l ++ [x] = before ++ y :: after) :
    (before = l ∧ y = x ∧ after = []) ∨ ∃ after', after = after' ++ [x] ∧ l = before ++ y :: after' := by
  rcases List.eq_nil_or_concat after with rfl | ⟨after', z, rfl⟩
  · obtain ⟨hl, hx⟩ := List.append_inj' h rfl
    exact .inl ⟨hl.symm, (List.singleton_inj.1 hx).symm, rfl⟩
  · rw [List.concat_eq_append, ← List.cons_append, ← List.append_assoc] at h
    obtain ⟨hl, hx⟩ := List.append_inj' h rfl
    exact .inr ⟨after', by rw [List.singleton_inj.1 hx, List.concat_eq_append], hl⟩

namespace Audit.Log

theorem appendAll_append (l : Log) (xs ys : List (Value × Value)) :
    (l.appendAll (xs ++ ys)).1 = ((l.appendAll xs).1.appendAll ys).1 := by
  induction xs generalizing l with
  | nil => rfl
  | cons x rest ih => exact ih (l.append x.1 x.2).1

end Audit.Log

/-- How an evaluation ends whose decision the log takes. -/
def Decision.conclusion (d : Decision) : Conclusion :=
  if d.mode.enforces ∧ d.overall = .reject then .refused d else .delivered d

theorem Decision.decision?_conclusion (d : Decision) : d.conclusion.decision? = .ok d := by
  unfold conclusion
  split <;> rfl

namespace Registry

/-- A registry after evaluations have been concluded and time has gone by. -/
structure IsLater (reg later : Registry) : Prop where
  settings : later.settings = reg.settings
  clock : ∃ k, later.clock = ⟨reg.clock.start, reg.clock.readings + k⟩
  log : ∃ entries, later.log = (reg.log.appendAll entries).1
  delay : later.delay = reg.delay

theorem IsLater.refl (reg : Registry) : reg.IsLater reg := ⟨rfl, ⟨0, rfl⟩, ⟨[], rfl⟩, rfl⟩

theorem IsLater.trans {reg reg' reg'' : Registry} (h : reg.IsLater reg') (h' : reg'.IsLater reg'') :
    reg.IsLater reg'' := by
  obtain ⟨hs, ⟨k, hk⟩, ⟨xs, hx⟩, hd⟩ := h
  obtain ⟨hs', ⟨k', hk'⟩, ⟨ys, hy⟩, hd'⟩ := h'
  refine ⟨hs'.trans hs, ⟨k + k', ?_⟩, ⟨xs ++ ys, ?_⟩, hd'.trans hd⟩
  · rw [hk', hk, Nat.add_assoc]
  · rw [hy, hx, Audit.Log.appendAll_append]

theorem IsLater.of_eq {reg later : Registry} (hs : later.settings = reg.settings) (hc : later.clock = reg.clock)
    (hl : later.log = reg.log) (hd : later.delay = reg.delay) : reg.IsLater later :=
  ⟨hs, ⟨0, hc⟩, ⟨[], hl⟩, hd⟩

variable {reg : Registry} {p : Proposal} {mode : Mode} {r : Run} {spent : Float}

theorem announceCancellation_eq (reg : Registry) (p : Proposal) (r : Run) :
    ∃ console, reg.announceCancellation p r = { reg with console } := by
  unfold announceCancellation
  split
  · exact ⟨_, rfl⟩
  · exact ⟨_, rfl⟩

theorem foldl_write_eq (lines : List (Gate × Nat)) (reg : Registry) :
    ∃ console, lines.foldl (fun reg a => reg.write .warn (pressureAlert a.1 a.2)) reg = { reg with console } := by
  induction lines generalizing reg with
  | nil => exact ⟨_, rfl⟩
  | cons a rest ih =>
    obtain ⟨console, h⟩ := ih (reg.write .warn (pressureAlert a.1 a.2))
    exact ⟨console, h⟩

theorem instrument_eq (reg : Registry) (d : Decision) :
    ∃ console, reg.instrument d = { reg with metrics := (reg.metrics.count d).1, console := console } := by
  obtain ⟨console, h⟩ := foldl_write_eq (reg.metrics.count d).2 { reg with metrics := (reg.metrics.count d).1 }
  exact ⟨console, h⟩

theorem deliver_eq (reg : Registry) (d : Decision) : ∃ console, (reg.deliver d).1 = { reg with console } := by
  unfold deliver
  split <;> exact ⟨_, rfl⟩

theorem deliver_eq_conclusion (reg : Registry) (d : Decision) : (reg.deliver d).2 = d.conclusion := by
  unfold deliver Decision.conclusion
  split <;> rfl

theorem deliver_conclusion (reg reg' : Registry) (d : Decision) : (reg.deliver d).2 = (reg'.deliver d).2 := by
  rw [deliver_eq_conclusion, deliver_eq_conclusion]

/-- A decision that is counted and then delivered leaves its lines on the console and its counts in the metrics. -/
theorem deliver_instrument_eq (reg : Registry) (d : Decision) : ∃ console, (reg.instrument d).deliver d
    = ({ reg with metrics := (reg.metrics.count d).1, console := console }, (reg.deliver d).2) := by
  obtain ⟨console, hcounted⟩ := instrument_eq reg d
  obtain ⟨console', hdelivered⟩ := deliver_eq (reg.instrument d) d
  refine ⟨console', Prod.ext ?_ (deliver_conclusion _ _ d)⟩
  rw [hdelivered, hcounted]

theorem decision?_deliver (reg : Registry) (d : Decision) : (reg.deliver d).2.decision? = .ok d := by
  rw [deliver_eq_conclusion, d.decision?_conclusion]

/-- The decision that is drawn up on a run, at an instant. -/
def drawn (reg : Registry) (p : Proposal) (mode : Mode) (r : Run) (spent : Float) (time : Instant) : Decision :=
  .ofRun (decisionId (reg.issued + 1)) p.proposalId mode r spent time

theorem conclude_of_noInstant (h : reg.clock.now? = none) : ∃ console, reg.conclude p mode r spent
    = ({ reg with console := console, issued := reg.issued + 1, clock := reg.clock.tick }, .failed .noInstant) := by
  obtain ⟨console, ha⟩ := announceCancellation_eq reg p r
  refine ⟨console, ?_⟩
  unfold conclude
  rw [ha]
  simp only [drawUp, h]

theorem conclude_of_refused {time : Instant} {log : Audit.Log} {f : Failure} (h : reg.clock.now? = some time)
    (hlog : reg.log.append (.str (Audit.hashOf p.toValue)) (reg.drawn p mode r spent time).toValue = (log, .error f)) :
    ∃ console, reg.conclude p mode r spent
      = ({ reg with console := console, issued := reg.issued + 1, clock := reg.clock.tick, log := log },
        .failed f) := by
  obtain ⟨console, ha⟩ := announceCancellation_eq reg p r
  refine ⟨console, ?_⟩
  unfold drawn at hlog
  unfold conclude
  rw [ha]
  simp only [drawUp, h, hlog]

/-- **A decision that the log takes is counted and delivered**, or refused as such. -/
theorem conclude_of_taken {time : Instant} {log : Audit.Log} {x : Audit.Record} (h : reg.clock.now? = some time)
    (hlog : reg.log.append (.str (Audit.hashOf p.toValue)) (reg.drawn p mode r spent time).toValue = (log, .ok x)) :
    ∃ console, reg.conclude p mode r spent
        = ({ reg with
              console := console, metrics := (reg.metrics.count (reg.drawn p mode r spent time)).1,
              issued := reg.issued + 1, clock := reg.clock.tick, log := log },
          (reg.deliver (reg.drawn p mode r spent time)).2) := by
  obtain ⟨console, ha⟩ := announceCancellation_eq reg p r
  obtain ⟨console', hd⟩ := deliver_instrument_eq
    { reg with console := console, issued := reg.issued + 1, clock := reg.clock.tick, log := log }
      (reg.drawn p mode r spent time)
  refine ⟨console', ?_⟩
  rw [deliver_conclusion reg { reg with
    console := console, issued := reg.issued + 1, clock := reg.clock.tick, log := log }]
  unfold conclude
  rw [ha]
  unfold drawn at hlog hd ⊢
  simp only [drawUp, h, hlog]
  exact hd

/-- The three ways in which an evaluation is concluded, with the registry that is left behind. -/
theorem conclude_cases (reg : Registry) (p : Proposal) (mode : Mode) (r : Run) (spent : Float) :
    (reg.clock.now? = none ∧ ∃ console, reg.conclude p mode r spent
      = ({ reg with console := console, issued := reg.issued + 1, clock := reg.clock.tick }, .failed .noInstant))
    ∨ (∃ time log f, reg.clock.now? = some time
      ∧ reg.log.append (.str (Audit.hashOf p.toValue)) (reg.drawn p mode r spent time).toValue = (log, .error f)
      ∧ ∃ console, reg.conclude p mode r spent
        = ({ reg with console := console, issued := reg.issued + 1, clock := reg.clock.tick, log := log }, .failed f))
    ∨ ∃ time log x, reg.clock.now? = some time
      ∧ reg.log.append (.str (Audit.hashOf p.toValue)) (reg.drawn p mode r spent time).toValue = (log, .ok x)
      ∧ ∃ console metrics c, reg.conclude p mode r spent
        = ({ reg with
              console := console, metrics := metrics, issued := reg.issued + 1, clock := reg.clock.tick,
              log := log }, c)
        ∧ c.decision? = .ok (reg.drawn p mode r spent time) := by
  cases hnow : reg.clock.now? with
  | none => exact .inl ⟨rfl, conclude_of_noInstant hnow⟩
  | some time =>
    cases hlog : reg.log.append (.str (Audit.hashOf p.toValue)) (reg.drawn p mode r spent time).toValue with
    | mk log answer =>
      cases answer with
      | error f => exact .inr (.inl ⟨time, log, f, rfl, hlog, conclude_of_refused hnow hlog⟩)
      | ok x =>
        obtain ⟨console, hc⟩ := conclude_of_taken hnow hlog
        exact .inr (.inr ⟨time, log, x, rfl, hlog, console, _, _, hc, decision?_deliver _ _⟩)

/-- **An evaluation that is concluded with a decision has drawn it up**, and the log has taken it. -/
theorem taken_of_conclude {d : Decision} (h : (reg.conclude p mode r spent).2.decision? = .ok d) :
    ∃ time log x console, d = reg.drawn p mode r spent time
      ∧ reg.log.append (.str (Audit.hashOf p.toValue)) d.toValue = (log, .ok x)
      ∧ reg.conclude p mode r spent
        = ({ reg with
              console := console, metrics := (reg.metrics.count d).1, issued := reg.issued + 1, clock := reg.clock.tick,
              log := log }, d.conclusion) := by
  rcases conclude_cases reg p mode r spent with ⟨-, console, hc⟩ | ⟨_, _, f, -, -, console, hc⟩
    | ⟨time, log, x, hnow, hlog, -⟩
  · rw [hc] at h
    cases h
  · rw [hc] at h
    cases h
  · obtain ⟨console, hc⟩ := conclude_of_taken hnow hlog
    rw [deliver_eq_conclusion] at hc
    rw [hc, Decision.decision?_conclusion] at h
    cases h
    exact ⟨time, log, x, console, rfl, hlog, hc⟩

theorem exists_drawn_of_conclude {d : Decision} (h : (reg.conclude p mode r spent).2.decision? = .ok d) :
    (reg.conclude p mode r spent).2 = d.conclusion ∧ ∃ time, d = reg.drawn p mode r spent time := by
  obtain ⟨time, log, x, console, hdrawn, -, hc⟩ := taken_of_conclude h
  exact ⟨by rw [hc], time, hdrawn⟩

/-- **A conclusion leaves a later registry behind.** -/
theorem isLater_conclude (reg : Registry) (p : Proposal) (mode : Mode) (r : Run) (spent : Float) :
    reg.IsLater (reg.conclude p mode r spent).1 := by
  rcases conclude_cases reg p mode r spent with
    ⟨-, console, hc⟩ | ⟨time, log, f, -, hlog, console, hc⟩ | ⟨time, log, x, -, hlog, console, metrics, c, hc, -⟩
  · rw [hc]
    exact ⟨rfl, ⟨1, rfl⟩, ⟨[], rfl⟩, rfl⟩
  · rw [hc]
    exact ⟨rfl, ⟨1, rfl⟩, ⟨[(_, _)], (congrArg Prod.fst hlog).symm⟩, rfl⟩
  · rw [hc]
    exact ⟨rfl, ⟨1, rfl⟩, ⟨[(_, _)], (congrArg Prod.fst hlog).symm⟩, rfl⟩

end Registry

end PolicyGates
