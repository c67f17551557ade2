import PolicyGates.Audit.Log
import PolicyGates.Metrics
import PolicyGates.Proposal.Schema
import PolicyGates.Signoff
import PolicyGates.Time.Clock
import PolicyGates.Time.Delay
/-!
# The registry

The registry owns everything that evaluations leave behind: the audit log, the ledger of
sign-offs, the metrics, the clock, the count of decision ids, and the lines it has written to
the console, and the time that has gone by.  An evaluation that has run to its end is concluded
in one step: the decision is built and audited, it is counted only if the log took it, and it is refused to the caller
if it is a rejection that is enforced.
-/
namespace PolicyGates

/-- How urgent a line on the console is. -/
inductive Level where
  | log
  | warn
  | error
  deriving DecidableEq, Repr

structure Line where
  level : Level
  text : Text
  deriving DecidableEq, Repr

structure Registry where
  settings : Settings
  log : Audit.Log
  ledger : Ledger
  metrics : Metrics
  clock : Clock
  /-- How many decision ids were given out. -/
  issued : Nat
  /-- What was written since somebody last looked, oldest first. -/
  console : List Line
  /-- The milliseconds that have gone by for timers; the clock does not follow them. -/
  elapsed : Float
  /-- How many milliseconds it takes until a timer is due that is set for so many. -/
  delay : Float → Float

inductive Conclusion where
  | delivered (d : Decision)
  | refused (d : Decision)
  | failed (f : Failure)

namespace Conclusion

def decision? : Conclusion → Except Failure Decision
  | .delivered d => .ok d
  | .refused d => .ok d
  | .failed f => .error f

/-- What the caller is given: a refused decision comes as a violation. -/
def outcome : Conclusion → Except Failure Decision
  | .delivered d => .ok d
  | .refused d => .error (.policy (.constraintViolation d.toValue))
  | .failed f => .error f

end Conclusion

namespace Registry

def start (settings : Settings) (store : Option Audit.Store) (clock : Clock) : Registry :=
  ⟨settings, .opened store, .empty, .zero, clock, 0, [], 0.0, Delay.exact⟩

/-- A new registry over the same store, with the same settings and clock; ids are not given out
again and time goes on. -/
def reopen (reg : Registry) : Registry :=
  { reg with log := .opened reg.log.store, ledger := .empty, metrics := .zero }

def write (reg : Registry) (level : Level) (text : Text) : Registry :=
  { reg with console := reg.console ++ [⟨level, text⟩] }

/-! ## Concluding an evaluation -/

def decisionId (n : Nat) : String := "dec:00000000-0000-4000-8000-" ++ Instant.padded 12 n

def phaseOf (reg : Registry) (p : Proposal) : Phase :=
  match reg.settings.phaseSource with
  | .proposal => p.phaseContext
  | .entityCount n => .ofEntityCount n

def circumstances (reg : Registry) (p : Proposal) (mode : Mode) : Circumstances :=
  ⟨reg.settings.toValue, .str (reg.phaseOf p).name, mode⟩

def announceCancellation (reg : Registry) (p : Proposal) (r : Run) : Registry :=
  match r.isCancelled, r.note with
  | true, some note => reg.write .warn ("[Gatekeeper] Proposal " ++ p.proposalId ++ " " ++ note)
  | _, _ => reg

/-- Builds the decision on a run, which takes an id and a reading of the clock. -/
def drawUp (reg : Registry) (p : Proposal) (mode : Mode) (r : Run) (spent : Float) :
    Registry × Except Failure Decision :=
  let id := decisionId (reg.issued + 1)
  let after := { reg with issued := reg.issued + 1, clock := reg.clock.tick }
  match reg.clock.now? with
  | some time => (after, .ok (.ofRun id p.proposalId mode r spent time))
  | none => (after, .error .noInstant)

def pressureAlert (g : Gate) (failures : Nat) : String :=
  "[Gatekeeper] Pressure Alert: gate " ++ g.name ++ " has failed " ++ toString failures ++ " proposals"

/-- Counts an audited decision and remarks on gates that keep failing. -/
def instrument (reg : Registry) (d : Decision) : Registry :=
  let (metrics, alerts) := reg.metrics.count d
  alerts.foldl (fun reg a => reg.write .warn (pressureAlert a.1 a.2)) { reg with metrics }

def rejectionNotice (d : Decision) : Text :=
  "[Gatekeeper] Enforce: proposal " ++ d.proposalId ++ " rejected ("
    ++ String.intercalate ", " (d.gatesFailed.map Gate.name) ++ ")"

def deliver (reg : Registry) (d : Decision) : Registry × Conclusion :=
  if d.mode.enforces ∧ d.overall = .reject then (reg.write .warn (rejectionNotice d), .refused d)
  else (reg, .delivered d)

/-- Concludes the evaluation of a proposal whose run has ended. -/
def conclude (reg : Registry) (p : Proposal) (mode : Mode) (r : Run) (spent : Float) : Registry × Conclusion :=
  let reg := reg.announceCancellation p r
  match reg.drawUp p mode r spent with
  | (reg, .error f) => (reg, .failed f)
  | (reg, .ok d) =>
    match reg.log.append (.str (Audit.hashOf p.toValue)) d.toValue with
    | (log, .error f) => ({ reg with log }, .failed f)
    | (log, .ok _) => ({ reg with log }.instrument d).deliver d

/-! ## Sign-off -/

/-- The audited decision with an id, if it is one that waits for a sign-off. -/
def pending (reg : Registry) (decisionId : Value) : Except Failure Audit.Record := do
  match ← reg.log.find decisionId with
  | none =>
    let _ ← decisionId.quote
    .error (.policy (.decisionNotFound decisionId))
  | some r =>
    let overall ← r.decision.ask "overall"
    if overall.same (.str "ESCALATE_HUMAN") then return r
    else
      let _ ← decisionId.quote
      let _ ← overall.quote
      .error (.policy (.notEscalated decisionId overall))

def signOffNotice (decisionId approver : Value) : Except Failure Text := do
  return "[Gatekeeper] Escalation " ++ (← decisionId.quote) ++ " acknowledged by " ++ (← approver.quote)

/-- Signs an escalated decision. -/
def acknowledge (reg : Registry) (decisionId approver note : Value) : Registry × Except Failure Acknowledgment :=
  match (reg.pending decisionId).bind (fun _ => signOffNotice decisionId approver) with
  | .error f => (reg, .error f)
  | .ok notice =>
    let reg := reg.write .log notice
    let after := { reg with clock := reg.clock.tick }
    match reg.clock.now? with
    | none => (after, .error .noInstant)
    | some time =>
      let (ledger, a) := reg.ledger.record decisionId approver (.str time.text) note
      ({ after with ledger }, .ok a)

/-- What a decision permits may be done. -/
def isCleared (reg : Registry) (decision : Value) : Except Failure Bool := reg.ledger.isCleared decision

/-- As `isCleared`, with a failure where nothing may be done. -/
def assertCleared (reg : Registry) (decision : Value) : Except Failure Unit := do
  if ← reg.isCleared decision then return ()
  else
    let id := decision.entry "decisionId"
    let _ ← id.quote
    .error (.policy (.signOffRequired id))

/-! ## Looking after the log -/

def linkText (f : Audit.Finding) : Text := f.linkValue.shown

/-- Verifies the log and says so if it is broken. -/
def verify (reg : Registry) (first last : Value) : Registry × Except Failure Audit.Finding :=
  match reg.log.verify first last with
  | (log, .error e) => ({ reg with log }, .error e)
  | (log, .ok f) =>
    let reg := { reg with log }
    (if f.valid then reg
     else reg.write .warn ("[AuditLog] Chain broken at sequence " ++ linkText f ++ ": " ++ f.reason), .ok f)

/-- As `verify`, with a failure where the chain is broken. -/
def assertIntact (reg : Registry) (first last : Value) : Registry × Except Failure Unit :=
  let (reg, found) := reg.verify first last
  (reg, found.bind (fun f => if f.valid then .ok () else .error (.policy (.auditChainBroken f))))

/-- Lifts the suspicion that a broken chain put the log under. -/
def resolveBreach (reg : Registry) (operator : Value) : Except Failure Registry := do
  let resolved := { reg with log := reg.log.resolveBreach }
  match reg.log.breach with
  | some f =>
    let name ← operator.quote
    return resolved.write .log ("[AuditLog] Breach at sequence " ++ linkText f ++ " resolved by " ++ name)
  | none => return resolved

end Registry

end PolicyGates
