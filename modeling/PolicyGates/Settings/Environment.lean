import PolicyGates.Decimal.Numeral
import PolicyGates.Settings.Schema
/-!
# Settings from the environment

Seven variables override the standard settings.  A variable for a number that holds only blanks
counts as unset; the one for the mode does not.  The variables are read in a fixed order and
the first one that cannot be read decides the failure; what they say is checked like any other
overrides.  A variable that does not hold a text cannot be read.
-/
namespace PolicyGates.Settings

/-- The variables that are set, with what they hold, which ought to be texts. -/
abbrev Environment := Members

/-- The variables for numbers, in the order in which they are read, with the setting each one
overrides. -/
def numberVariables : List (String × String) :=
  [("KERNEL_MEMORY_LIMIT_BYTES", "memoryLimitBytes"),
   ("KERNEL_EVIDENCE_THRESHOLD", "evidenceScoreThreshold"),
   ("KERNEL_R_ABSOLUTE_THRESHOLD", "rAbsoluteThreshold"),
   ("KERNEL_ESCALATION_THRESHOLD", "escalationThreshold"),
   ("KERNEL_CONCURRENCY", "concurrency"),
   ("KERNEL_TIMEOUT_MS", "timeoutMs")]

/-- The number that a variable holds; none if it is unset or blank. -/
def readNumber (env : Environment) (key : String) : Except Failure (Option Float) :=
  match env.get key with
  | .absent => .ok none
  | .str raw =>
    if Text.allBlank raw.plain then .ok none
    else
      match Decimal.setting? raw.plain with
      | some x =>
        if x.isFinite then .ok (some x) else .error (.policy (.invalidConfig (.notANumber key raw)))
      | none => .error (.policy (.invalidConfig (.notANumber key raw)))
  | v => .error (v.lacks "raw" "trim")

/-- The overrides that the variables for numbers ask for. -/
def readNumbers (env : Environment) : List (String × String) → Except Failure Members
  | [] => .ok []
  | (key, setting) :: r => do
    let x ← readNumber env key
    let rest ← readNumbers env r
    return match x with
      | some x => (.whole setting, .num x) :: rest
      | none => rest

/-- The overrides that the variable for the mode asks for. -/
def readMode (env : Environment) : Except Failure Members :=
  match env.get "KERNEL_MODE" with
  | .absent => .ok []
  | v =>
    match v.asString?.bind Mode.ofName? with
    | some m => .ok [("mode", m.toValue)]
    | none => v.quote.bind (fun raw => .error (.policy (.invalidConfig (.unknownMode raw))))

def ofEnvironment (env : Environment) : Except Failure Settings := do
  let mode ← readMode env
  let numbers ← readNumbers env numberVariables
  (ofChecked (merged (.obj (mode ++ numbers)))).mapError .policy

end PolicyGates.Settings
