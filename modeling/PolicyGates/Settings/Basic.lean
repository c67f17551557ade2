import PolicyGates.Gate.Basic
import PolicyGates.Value.Basic
/-!
# Settings

The thresholds, limits and prices that the gates work with, and how evaluations are run.  They
are fixed before the first evaluation.
-/
namespace PolicyGates

/-- Where the phase of an evaluation comes from. -/
inductive PhaseSource where
  | proposal
  | entityCount (n : Float)
  deriving DecidableEq

structure GateCosts where
  base : Gate → Float
  /-- Added at the evidence gate for every item. -/
  perEvidenceItem : Float

structure Settings where
  mode : Mode
  memoryLimitBytes : Float
  evidenceScoreThreshold : Float
  rAbsoluteThreshold : Float
  escalationThreshold : Float
  phaseSource : PhaseSource
  gateCosts : GateCosts
  /-- How many evaluations of a batch run at once. -/
  concurrency : Float
  timeoutMs : Option Float

def gibibyte : Float := 1073741824.0

namespace PhaseSource

def toValue : PhaseSource → Value
  | .proposal => .obj [("kind", .str "proposal")]
  | .entityCount n => .obj [("kind", .str "entityCount"), ("entityCount", .num n)]

def ofValue (v : Value) : PhaseSource :=
  if (v.member "kind").asString? = some "entityCount" then
    .entityCount ((v.member "entityCount").asNumber?.getD 0.0)
  else .proposal

end PhaseSource

/-- The key of a gate in the table of costs. -/
def Gate.key (g : Gate) : String := String.ofList [Nat.digitChar g.number]

namespace GateCosts

def toValue (c : GateCosts) : Value :=
  .obj [("base", .obj (Gate.all.map (fun g => (g.key, .num (c.base g))))),
    ("perEvidenceItem", .num c.perEvidenceItem)]

def ofValue (v : Value) : GateCosts where
  base g := (((v.member "base").member g.key).asNumber?).getD 0.0
  perEvidenceItem := (v.member "perEvidenceItem").asNumber?.getD 0.0

end GateCosts

namespace Settings

/-- The settings that hold where nothing else is asked for. -/
def standard : Settings where
  mode := .enforce
  memoryLimitBytes := 3.0 * gibibyte
  evidenceScoreThreshold := 0.7
  rAbsoluteThreshold := 0.5
  escalationThreshold := 0.8
  phaseSource := .proposal
  gateCosts := ⟨fun _ => 1.0, 1.0⟩
  concurrency := 4.0
  timeoutMs := none

def toValue (s : Settings) : Value :=
  .obj [
    ("mode", s.mode.toValue),
    ("memoryLimitBytes", .num s.memoryLimitBytes),
    ("evidenceScoreThreshold", .num s.evidenceScoreThreshold),
    ("rAbsoluteThreshold", .num s.rAbsoluteThreshold),
    ("escalationThreshold", .num s.escalationThreshold),
    ("phaseSource", s.phaseSource.toValue),
    ("gateCosts", s.gateCosts.toValue),
    ("concurrency", .num s.concurrency),
    ("timeoutMs", .ofOption .num s.timeoutMs)]

/-- The settings that a value describes.  Only values that passed the checks are described in
full; of any other value, what is out of place is read as some default. -/
def ofValue (v : Value) : Settings :=
  let number (key : String) : Float := (v.member key).asNumber?.getD 0.0
  { mode := .ofValue (v.member "mode")
    memoryLimitBytes := number "memoryLimitBytes"
    evidenceScoreThreshold := number "evidenceScoreThreshold"
    rAbsoluteThreshold := number "rAbsoluteThreshold"
    escalationThreshold := number "escalationThreshold"
    phaseSource := PhaseSource.ofValue (v.member "phaseSource")
    gateCosts := GateCosts.ofValue (v.member "gateCosts")
    concurrency := number "concurrency"
    timeoutMs := (v.member "timeoutMs").asNumber? }

end Settings

end PolicyGates
