import PolicyGates.Value.Basic
/-!
# Gates, modes and verdicts

The words that an evaluation is made of: the six gates in the order in which a proposal
passes them, what a gate says, the mode that decides what a failure leads to, and what is
said of the proposal in the end.
-/
namespace PolicyGates

/-- The gates, in evaluation order. -/
inductive Gate where
  | thermodynamicSolvency
  | cognitiveVariety
  | hardwareViability
  | evidenceSufficiency
  | viabilityPower
  | humanEscalation
  deriving DecidableEq, Repr, Inhabited

namespace Gate

def all : List Gate :=
  [.thermodynamicSolvency, .cognitiveVariety, .hardwareViability, .evidenceSufficiency,
   .viabilityPower, .humanEscalation]

/-- The place of the gate in the order, from one. -/
def number : Gate → Nat
  | .thermodynamicSolvency => 1
  | .cognitiveVariety => 2
  | .hardwareViability => 3
  | .evidenceSufficiency => 4
  | .viabilityPower => 5
  | .humanEscalation => 6

def name : Gate → String
  | .thermodynamicSolvency => "THERMODYNAMIC_SOLVENCY"
  | .cognitiveVariety => "COGNITIVE_VARIETY"
  | .hardwareViability => "HARDWARE_VIABILITY"
  | .evidenceSufficiency => "EVIDENCE_SUFFICIENCY"
  | .viabilityPower => "VIABILITY_POWER"
  | .humanEscalation => "HUMAN_ESCALATION"

/-- A failure of this gate ends an enforced run. -/
def isFatal (g : Gate) : Bool := g == .hardwareViability

def ofNumber? (n : Nat) : Option Gate := all.find? (fun g => g.number == n)

end Gate

inductive Outcome where
  | pass
  | fail
  | escalate
  deriving DecidableEq, Repr

def Outcome.name : Outcome → String
  | .pass => "PASS"
  | .fail => "FAIL"
  | .escalate => "ESCALATE"

/-- How far the verdict is carried out: only `enforce` refuses a rejected proposal. -/
inductive Mode where
  | observe
  | advise
  | enforce
  /-- Anything else that was asked for; it is carried along and enforces nothing. -/
  | unlisted (asked : Value)

namespace Mode

def listed : List (String × Mode) := [("observe", .observe), ("advise", .advise), ("enforce", .enforce)]

def names : List String := listed.map Prod.fst

def ofName? (s : String) : Option Mode := listed.lookup s

def toValue : Mode → Value
  | .observe => .str "observe"
  | .advise => .str "advise"
  | .enforce => .str "enforce"
  | .unlisted asked => asked

def ofValue (v : Value) : Mode := (v.asString?.bind ofName?).getD (.unlisted v)

def enforces : Mode → Bool
  | .enforce => true
  | _ => false

end Mode

inductive Verdict where
  | approve
  | reject
  | escalateHuman
  deriving DecidableEq, Repr

def Verdict.name : Verdict → String
  | .approve => "APPROVE"
  | .reject => "REJECT"
  | .escalateHuman => "ESCALATE_HUMAN"

/-- What one gate found, and what finding it cost. -/
structure GateResult where
  gate : Gate
  outcome : Outcome
  message : Text
  energySpent : Float
  /-- Said by the viability power gate only, and absent otherwise. -/
  viabilityPowerDelta : Value

namespace GateResult

def toValue (r : GateResult) : Value :=
  .obj [("gateId", .ofCount r.gate.number), ("gate", .str r.gate.name), ("outcome", .str r.outcome.name),
    ("message", .str r.message), ("energySpent", .num r.energySpent),
    ("viabilityPowerDelta", r.viabilityPowerDelta)]

end GateResult

end PolicyGates
