import PolicyGates.Audit.Finding
import PolicyGates.Value.Shown
/-!
# What can go wrong

Every way in which an operation can fail, as its cause.  The wording of a cause, its code
and the details that are told with it are functions of the cause, each in one place.

`PolicyError` holds the failures that the policy itself calls for; `Failure` adds those that come
from the values handed in and from outside.
-/
namespace PolicyGates

/-- The codes under which failures of the policy are known. -/
inductive ErrorCode where
  | invalidProposal
  | invalidConfig
  | budgetExceeded
  | budgetClosed
  | constraintViolation
  | signOffRequired
  | decisionNotFound
  | notEscalated
  | dependencyCycle
  | auditChainBroken
  deriving DecidableEq, Repr

namespace ErrorCode

def all : List ErrorCode :=
  [.invalidProposal, .invalidConfig, .budgetExceeded, .budgetClosed, .constraintViolation,
   .signOffRequired, .decisionNotFound, .notEscalated, .dependencyCycle, .auditChainBroken]

def name : ErrorCode → String
  | .invalidProposal => "INVALID_PROPOSAL"
  | .invalidConfig => "INVALID_CONFIG"
  | .budgetExceeded => "BUDGET_EXCEEDED"
  | .budgetClosed => "BUDGET_CLOSED"
  | .constraintViolation => "CONSTRAINT_VIOLATION"
  | .signOffRequired => "SIGN_OFF_REQUIRED"
  | .decisionNotFound => "DECISION_NOT_FOUND"
  | .notEscalated => "NOT_ESCALATED"
  | .dependencyCycle => "DEPENDENCY_CYCLE"
  | .auditChainBroken => "AUDIT_CHAIN_BROKEN"

end ErrorCode

/-- Why a proposal or a batch of them was refused before any gate saw it. -/
inductive ProposalFault where
  | malformed (issues : List Text)
  | unfundable (cap : Text)
  | duplicate (proposalId : Value)
  | unknownMode (shown : Text)
  | noBatch

inductive SettingsFault where
  | malformed (issues : List Text)
  /-- A variable of the environment that should hold a number does not. -/
  | notANumber (key : String) (raw : Text)
  /-- The variable for the mode names none. -/
  | unknownMode (raw : Text)
  deriving DecidableEq

inductive PolicyError where
  | invalidProposal (fault : ProposalFault)
  | invalidConfig (fault : SettingsFault)
  /-- A charge does not fit into what is left of a budget. -/
  | budgetExceeded (requested remaining : Float)
  /-- A charge that no budget takes. -/
  | unchargeable (amount : Text)
  | budgetClosed
  /-- An enforced rejection; it carries the whole decision. -/
  | constraintViolation (decision : Value)
  | signOffRequired (decisionId : Value)
  | decisionNotFound (decisionId : Value)
  | notEscalated (decisionId overall : Value)
  /-- Proposals that wait for each other in a ring; the first is named again at the end. -/
  | dependencyCycle (cycle : List Value)
  | auditChainBroken (finding : Audit.Finding)

/-- A value quoted in a message, as far as it has a text. -/
def Value.shown (v : Value) : Text := v.shown?.getD ""

namespace ProposalFault

def message : ProposalFault → Text
  | .malformed issues => "Malformed proposal: " ++ issues.headD "unknown issue"
  | .unfundable cap => "Energy budget must be a positive integer, got " ++ cap
  | .duplicate id => "Duplicate proposalId " ++ id.shown ++ " in batch"
  | .unknownMode _ => "mode must be one of observe, advise, enforce"
  | .noBatch => "Body must contain a proposals array"

def issues : ProposalFault → List Text
  | .malformed issues => issues
  | .unfundable _ => []
  | .duplicate id => ["proposalId: " ++ id.shown]
  | .unknownMode shown => ["mode: " ++ shown]
  | .noBatch => []

end ProposalFault

namespace SettingsFault

def message : SettingsFault → Text
  | .malformed _ => "Invalid kernel configuration"
  | .notANumber key _ => key ++ " must be a number"
  | .unknownMode _ => "KERNEL_MODE must be observe, advise or enforce"

def issues : SettingsFault → List Text
  | .malformed issues => issues
  | .notANumber key raw => [key ++ ": " ++ raw]
  | .unknownMode raw => ["KERNEL_MODE: " ++ raw]

end SettingsFault

namespace PolicyError

def code : PolicyError → ErrorCode
  | .invalidProposal _ => .invalidProposal
  | .invalidConfig _ => .invalidConfig
  | .budgetExceeded _ _ => .budgetExceeded
  | .unchargeable _ => .budgetExceeded
  | .budgetClosed => .budgetClosed
  | .constraintViolation _ => .constraintViolation
  | .signOffRequired _ => .signOffRequired
  | .decisionNotFound _ => .decisionNotFound
  | .notEscalated _ _ => .notEscalated
  | .dependencyCycle _ => .dependencyCycle
  | .auditChainBroken _ => .auditChainBroken

def failedGates (decision : Value) : List Text :=
  (Value.shownItems? (decision.member "gatesFailed").items).getD []

/-! The wordings that have blanks to fill in. -/

def wordExceeded (requested remaining : Text) : Text :=
  "Energy budget exceeded: requested " ++ requested ++ ", remaining " ++ remaining

/-- Without any names of gates there is said to be none. -/
def wordViolation (proposalId : Text) (gates : List Text) : Text :=
  let listed := Text.intercalate ", " gates
  let names : Text := if listed = .whole "" then "none" else listed
  "Proposal " ++ proposalId ++ " rejected by gates: " ++ names

def wordSignOff (decisionId : Text) : Text := "Decision " ++ decisionId ++ " requires external sign-off"

def wordCycle (ids : List Text) : Text := "Dependency cycle: " ++ Text.intercalate " -> " ids

def wordBroken (link reason : Text) : Text := "Audit chain broken at sequence " ++ link ++ ": " ++ reason

def detail : PolicyError → Text
  | .invalidProposal f => f.message
  | .invalidConfig f => f.message
  | .budgetExceeded requested remaining => wordExceeded (Decimal.text requested) (Decimal.text remaining)
  | .unchargeable amount => "Charge must be a non-negative finite amount, got " ++ amount
  | .budgetClosed => "Cannot charge a closed energy budget"
  | .constraintViolation decision => wordViolation (decision.member "proposalId").shown (failedGates decision)
  | .signOffRequired id => wordSignOff id.shown
  | .decisionNotFound id => "No audited decision " ++ id.shown
  | .notEscalated id overall => "Decision " ++ id.shown ++ " is " ++ overall.shown ++ ", not ESCALATE_HUMAN"
  | .dependencyCycle cycle => wordCycle ((Value.shownItems? cycle).getD [])
  | .auditChainBroken f => wordBroken ((f.firstBrokenLink.map Value.shown).getD "?") f.reason

/-- A wording with a code in front. -/
def coded (code wording : Text) : Text := "[Kernel:" ++ code ++ "] " ++ wording

/-- The wording, with the code in front. -/
def message (e : PolicyError) : Text := coded e.code.name e.detail

/-- The details that are told with the failure; absent if there are none. -/
def metadata : PolicyError → Value
  | .invalidProposal f => .obj [("issues", .texts f.issues)]
  | .invalidConfig f => .obj [("issues", .texts f.issues)]
  | .budgetExceeded requested remaining =>
    .obj [("requested", .num requested), ("remaining", .num remaining)]
  | .unchargeable _ => .absent
  | .budgetClosed => .absent
  | .constraintViolation decision =>
    .obj [("decisionId", decision.member "decisionId"), ("gatesFailed", decision.member "gatesFailed")]
  | .signOffRequired id => .obj [("decisionId", id)]
  | .decisionNotFound id => .obj [("decisionId", id)]
  | .notEscalated id _ => .obj [("decisionId", id)]
  | .dependencyCycle cycle => .obj [("cycle", .arr cycle)]
  | .auditChainBroken f => .obj [("firstBrokenLink", f.linkValue)]

end PolicyError

inductive Failure where
  | policy (e : PolicyError)
  /-- Reported from outside, in the words given there. -/
  | reported (message : Text)
  /-- Something was asked of a value that holds nothing, of a null or of nothing at all. -/
  | noMembers (holder : Value) (key : String)
  /-- An operation was asked of a value that does not have it. -/
  | noOperation (name : String)
  /-- A value that has no text was to be quoted. -/
  | noText
  /-- Lists stand in one another deeper than can be gone through. -/
  | tooDeep
  | notJson
  /-- The clock stands outside the range of instants. -/
  | noInstant

theorem bind_eq_error {α β : Type} {r : Except Failure α} {g : α → Except Failure β} {f : Failure}
    (h : r >>= g = .error f) : r = .error f ∨ ∃ a, r = .ok a ∧ g a = .error f := by
  cases r with
  | error e =>
    cases h
    exact .inl rfl
  | ok a => exact .inr ⟨a, rfl, h⟩

theorem exists_of_bind_eq_ok {α β : Type} {r : Except Failure α} {g : α → Except Failure β} {b : β}
    (h : r >>= g = .ok b) : ∃ a, r = .ok a ∧ g a = .ok b := by
  cases r with
  | error e => cases h
  | ok a => exact ⟨a, rfl, h⟩

theorem exists_of_map_eq_ok {α β : Type} {r : Except Failure α} {g : α → β} {b : β} (h : r.map g = .ok b) :
    ∃ a, r = .ok a ∧ g a = b := by
  cases r with
  | error e => cases h
  | ok a => exact ⟨a, rfl, Except.ok.inj h⟩

theorem eq_error_of_map_eq_error {α β : Type} {r : Except Failure α} {g : α → β} {f : Failure}
    (h : r.map g = .error f) :
    r = .error f := by
  cases r with
  | error e => rw [Except.error.inj h]
  | ok a => cases h

def Failure.message : Failure → Text
  | .policy e => e.message
  | .reported m => m
  | .noMembers holder key =>
    "Cannot read properties of " ++ holder.kind ++ " (reading " ++ "'" ++ key ++ "')"
  | .noOperation name => name ++ " is not a function"
  | .noText => "Cannot convert object to primitive value"
  | .tooDeep => "Maximum call stack size exceeded"
  | .notJson => "Invalid JSON"
  | .noInstant => "Invalid time value"

namespace Value

/-- What a value holds under a key, for a value that can be asked. -/
def ask (key : String) (v : Value) : Except Failure Value :=
  if v.isNothing then .error (.noMembers v key) else .ok (v.entry key)

/-- The failure of an operation that a value, called `name`, does not have. -/
def lacks (v : Value) (name operation : String) : Failure :=
  if v.isNothing then .noMembers v operation else .noOperation (name ++ "." ++ operation)

/-- What there is to go through in a value called `name`: the items of a list, or the characters of a
text. -/
def each (v : Value) (name : String) : Except Failure (List Value) :=
  match v with
  | .arr vs => .ok vs
  | .str t => .ok (t.characters.map .str)
  | v => .error (v.lacks name "items")

def quote (v : Value) : Except Failure Text :=
  match v.shown? with
  | some s => .ok s
  | none => .error .noText

mutual

/-- Quotes a value that a client has sent, which may be a list of lists of lists: so deep, and no deeper, can they be
gone through. -/
def quoteWithin : Nat → Value → Except Failure Text
  | 0, .arr _ => .error .tooDeep
  | depth + 1, .arr vs => (quoteItemsWithin depth vs).map (Text.intercalate ",")
  | _, v => v.quote

/-- Quotes items from the front, up to the first that cannot be quoted; a missing item has the empty text. -/
def quoteItemsWithin : Nat → List Value → Except Failure (List Text)
  | _, [] => .ok []
  | depth, v :: r =>
    (if v.isNothing then .ok "" else quoteWithin depth v).bind (fun s => (quoteItemsWithin depth r).map (s :: ·))

end

end Value

end PolicyGates
