import PolicyGates.Evaluation
/-!
# Sessions

Callers ask one registry for decisions whenever they like, one by one or in batches, and anything may happen between
two steps of an evaluation: other evaluations are asked for, go on or are cancelled, the store makes up its mind, and
people look after the log.  Once a run has ended, the decision on it is drawn up and handed to the log.  The log takes
what it is handed in the order in which it came and answers every time; and in the order of the answers the
evaluations go on: what was taken is counted and delivered, what was refused fails.

A batch adds nothing to this but an order of its own among the evaluations that it asks for, and a line on the
console.

`Registry.conclude` is what the end of an evaluation comes to that nothing happens in between: `run_conclude`.
-/
namespace PolicyGates

/-- An evaluation whose run has not ended. -/
structure Ongoing where
  proposal : Proposal
  mode : Mode
  progress : Progress
  cancellation : Option Text

/-- A decision that was handed to the log, with the proposal that it is on. -/
structure Filing where
  proposal : Proposal
  decision : Decision

/-- A decision that was handed to the log, with what the log made of it. -/
structure Answer where
  decision : Decision
  record : Except Failure Audit.Record

structure Session where
  registry : Registry
  /-- The evaluations whose runs have not ended, oldest first. -/
  underWay : List Ongoing
  /-- What the log has not answered yet, in the order in which it will. -/
  filed : List Filing
  /-- Answers that the evaluations have not gone on with yet, in the order in which they will. -/
  answered : List Answer
  /-- How evaluations ended, in the order in which they did. -/
  conclusions : List Conclusion

/-- What can happen in a session. -/
inductive Session.Occurrence where
  | asked (r : Request)
  /-- The evaluation in a place among those under way is cancelled, by an abort or because its time is up. -/
  | cancelled (place : Nat) (reason : Text)
  /-- The evaluation in a place among those under way makes a check. -/
  | checked (place : Nat)
  /-- The log answers. -/
  | answered
  /-- An evaluation goes on with its answer. -/
  | resumed
  /-- The store makes up its mind what it will say to the next appends. -/
  | decided (refusals : List Bool)
  | acknowledged (decisionId approver note : Value)
  | verified (first last : Value)
  | resolved (operator : Value)
  /-- It is so late for timers. -/
  | elapsed (now : Float)
  | wrote (level : Level) (text : Text)

/-- Cancels the evaluation, unless it was cancelled before. -/
def Ongoing.cancel (e : Ongoing) (reason : Text) : Ongoing :=
  { e with cancellation := some (e.cancellation.getD reason) }

namespace Registry

/-- Goes on with an answer of the log. -/
def resume (reg : Registry) (a : Answer) : Registry × Conclusion :=
  match a.record with
  | .error f => (reg, .failed f)
  | .ok _ => (reg.instrument a.decision).deliver a.decision

variable {reg reg' : Registry} {p : Proposal} {mode : Mode} {r : Run} {spent : Float}

theorem conclude_of_drawn_error {f : Failure}
    (h : (reg.announceCancellation p r).drawUp p mode r spent = (reg', .error f)) :
    reg.conclude p mode r spent = (reg', .failed f) := by
  simp only [conclude, h]

/-- A decision that was drawn up is handed to the log, and goes on with the answer. -/
theorem conclude_of_drawn_ok {d : Decision} (h : (reg.announceCancellation p r).drawUp p mode r spent = (reg', .ok d))
    {log : Audit.Log} {record : Except Failure Audit.Record}
    (hlog : reg'.log.append (.str (Audit.hashOf p.toValue)) d.toValue = (log, record)) :
    reg.conclude p mode r spent = { reg' with log }.resume ⟨d, record⟩ := by
  simp only [conclude, h, hlog]
  cases record <;> rfl

end Registry

namespace Session

open Registry

/-- Nobody has asked yet. -/
def opened (reg : Registry) : Session := ⟨reg, [], [], [], []⟩

/-- The decision on a run that has ended is drawn up and handed to the log. -/
def file (s : Session) (p : Proposal) (mode : Mode) (r : Run) (spent : Float) : Session :=
  match (s.registry.announceCancellation p r).drawUp p mode r spent with
  | (registry, .error f) => { s with registry, conclusions := s.conclusions ++ [.failed f] }
  | (registry, .ok d) => { s with registry, filed := s.filed ++ [⟨p, d⟩] }

/-- What happens; nothing if it cannot. -/
def step (s : Session) : Occurrence → Session
  | .asked r =>
    match s.registry.prepare r with
    | .error f => { s with conclusions := s.conclusions ++ [.failed f] }
    | .ok j => { s with underWay := s.underWay
      ++ [⟨j.proposal, j.mode, .fresh (.fresh j.proposal.energyBudgetTokens), none⟩] }
  | .cancelled place reason =>
    match s.underWay[place]? with
    | none => s
    | some e => { s with underWay := s.underWay.set place (e.cancel reason) }
  | .checked place =>
    match s.underWay[place]? with
    | none => s
    | some e =>
      match e.progress.check (s.registry.circumstances e.proposal e.mode) e.proposal.toValue e.cancellation with
      | .running q => { s with underWay := s.underWay.set place { e with progress := q } }
      | .ended r b => { s with underWay := s.underWay.eraseIdx place }.file e.proposal e.mode r b.spent
  | .answered =>
    match s.filed with
    | [] => s
    | f :: rest =>
      let (log, record) := s.registry.log.append (.str (Audit.hashOf f.proposal.toValue)) f.decision.toValue
      { s with registry := { s.registry with log }, filed := rest, answered := s.answered ++ [⟨f.decision, record⟩] }
  | .resumed =>
    match s.answered with
    | [] => s
    | a :: rest =>
      let (registry, c) := s.registry.resume a
      { s with registry, answered := rest, conclusions := s.conclusions ++ [c] }
  | .decided refusals =>
    let store := s.registry.log.store.map ({ · with refusals := refusals })
    { s with registry := { s.registry with log := { s.registry.log with store } } }
  | .acknowledged decisionId approver note => { s with registry := (s.registry.acknowledge decisionId approver note).1 }
  | .verified first last => { s with registry := (s.registry.verify first last).1 }
  | .resolved operator => { s with registry := (s.registry.resolveBreach operator).toOption.getD s.registry }
  | .elapsed now => { s with registry := { s.registry with elapsed := now } }
  | .wrote level text => { s with registry := s.registry.write level text }

/-- What several occurrences do, one after the other. -/
def run (s : Session) (occurrences : List Occurrence) : Session := occurrences.foldl step s

/-- **An evaluation that nothing happens in between the end of its run and its own is concluded.** -/
theorem run_conclude (reg : Registry) (e : Ongoing) (conclusions : List Conclusion) {r : Run} {b : Budget}
    (hcheck : e.progress.check (reg.circumstances e.proposal e.mode) e.proposal.toValue e.cancellation = .ended r b) :
    run ⟨reg, [e], [], [], conclusions⟩ [.checked 0, .answered, .resumed]
      = ⟨(reg.conclude e.proposal e.mode r b.spent).1, [], [], [],
        conclusions ++ [(reg.conclude e.proposal e.mode r b.spent).2]⟩ := by
  have hfile : step ⟨reg, [e], [], [], conclusions⟩ (.checked 0)
    = file ⟨reg, [], [], [], conclusions⟩ e.proposal e.mode r b.spent := by
    simp only [step, List.getElem?_cons_zero, hcheck, List.eraseIdx_cons_zero]
  rw [run, List.foldl_cons, hfile, List.foldl_cons, List.foldl_cons, List.foldl_nil]
  cases hdrawn : (reg.announceCancellation e.proposal r).drawUp e.proposal e.mode r b.spent with
  | mk reg' drawn =>
    cases drawn with
    | error f =>
      rw [conclude_of_drawn_error hdrawn]
      simp only [file, hdrawn]
      rfl
    | ok d =>
      cases hlog : reg'.log.append (.str (Audit.hashOf e.proposal.toValue)) d.toValue with
      | mk log answer =>
        rw [conclude_of_drawn_ok hdrawn hlog]
        simp only [file, hdrawn, step, List.nil_append, hlog]

end Session

end PolicyGates
