import PolicyGates.Run
import PolicyGates.Time.Instant
/-!
# Decisions

What the results of a run come to.  An escalation outweighs every failure, and a cancelled run is
always escalated, since nobody can say what its remaining gates would have found.
-/
namespace PolicyGates

structure Decision where
  decisionId : String
  proposalId : Text
  mode : Mode
  results : List GateResult
  gatesPassed : Nat
  gatesFailed : List Gate
  overall : Verdict
  energyConsumed : Float
  viabilityPowerDelta : Float
  requiresSignOff : Bool
  fatal : Bool
  cancelled : Bool
  note : Option Text
  timestamp : Instant

namespace Run

def failed (r : Run) : List Gate := (r.results.filter (fun x => x.outcome == .fail)).map GateResult.gate

def passedCount (r : Run) : Nat := (r.results.filter (fun x => x.outcome == .pass)).length

def isCancelled (r : Run) : Bool :=
  match r.ending with
  | .cancelled _ _ => true
  | _ => false

def verdict (r : Run) : Verdict :=
  if r.isCancelled || r.results.any (fun x => x.outcome == .escalate) then .escalateHuman
  else if r.failed.isEmpty then .approve
  else .reject

def lastGate (r : Run) : String := (r.results.getLast?.map (fun x => x.gate.name)).getD "unknown gate"

/-- A remark on a run that did not pass through every gate. -/
def note (r : Run) : Option Text :=
  match r.ending with
  | .completed => none
  | .cancelled gate reason => some ("cancelled before " ++ gate.name ++ ": " ++ reason)
  | .exhausted => some ("energy budget exhausted at " ++ r.lastGate)
  | .fatal => some ("fatal failure at " ++ r.lastGate ++ "; remaining gates not evaluated")

/-- The viability power that an approved proposal accrues: what the viability power gate said. -/
def powerDelta (r : Run) : Float :=
  if r.verdict = .approve then
    ((r.results.find? (fun x => x.gate == .viabilityPower)).bind (fun x => x.viabilityPowerDelta.asNumber?)).getD 0.0
  else 0.0

end Run

namespace Decision

/-- The decision on a proposal after a run that spent the given energy. -/
def ofRun (id : String) (proposalId : Text) (mode : Mode) (r : Run) (spent : Float) (time : Instant) : Decision where
  decisionId := id
  proposalId := proposalId
  mode := mode
  results := r.results
  gatesPassed := r.passedCount
  gatesFailed := r.failed
  overall := r.verdict
  energyConsumed := spent
  viabilityPowerDelta := r.powerDelta
  requiresSignOff := mode.enforces && r.verdict == .escalateHuman
  fatal := r.ending == .fatal
  cancelled := r.isCancelled
  note := r.note
  timestamp := time

def toValue (d : Decision) : Value :=
  .obj [
    ("decisionId", .str d.decisionId),
    ("proposalId", .str d.proposalId),
    ("mode", d.mode.toValue),
    ("results", .arr (d.results.map GateResult.toValue)),
    ("gatesPassed", .ofCount d.gatesPassed),
    ("gatesFailed", .strings (d.gatesFailed.map Gate.name)),
    ("overall", .str d.overall.name),
    ("energyConsumed", .num d.energyConsumed),
    ("viabilityPowerDelta", .num d.viabilityPowerDelta),
    ("requiresSignOff", .bool d.requiresSignOff),
    ("fatal", .bool d.fatal),
    ("cancelled", .bool d.cancelled),
    ("note", .ofOption .str d.note),
    ("timestamp", .str d.timestamp.text)]

end Decision

end PolicyGates
