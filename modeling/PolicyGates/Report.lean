import PolicyGates.Failure
/-!
# Reports

What is told of a failure: its kind, its code, its wording and the details that go with it.  The
failures of the policy have their reports, and a caller may state one of its own, in the same
wordings but with particulars that nobody has checked.
-/
namespace PolicyGates

/-- The kinds of failures that are told apart without looking at their codes. -/
inductive ReportKind where
  | general
  | invalidProposal
  | invalidConfig
  | budgetExceeded
  | constraintViolation
  | signOffRequired
  | dependencyCycle
  | auditChainBroken
  deriving DecidableEq, Repr

structure Report where
  kind : ReportKind
  code : Value
  message : Text
  /-- The details that any failure may have; absent if there are none. -/
  metadata : Value
  /-- What only failures of this kind have. -/
  particulars : Members

namespace PolicyError

def kind : PolicyError → ReportKind
  | .invalidProposal _ => .invalidProposal
  | .invalidConfig _ => .invalidConfig
  | .budgetExceeded _ _ => .budgetExceeded
  | .constraintViolation _ => .constraintViolation
  | .signOffRequired _ => .signOffRequired
  | .dependencyCycle _ => .dependencyCycle
  | .auditChainBroken _ => .auditChainBroken
  | .unchargeable _ | .budgetClosed | .decisionNotFound _ | .notEscalated _ _ => .general

def particulars : PolicyError → Members
  | .invalidProposal f => [("issues", .texts f.issues)]
  | .invalidConfig f => [("issues", .texts f.issues)]
  | .budgetExceeded requested remaining => [("requested", .num requested), ("remaining", .num remaining)]
  | .constraintViolation decision => [("decision", decision)]
  | .signOffRequired id => [("decisionId", id)]
  | .dependencyCycle cycle => [("cycle", .arr cycle)]
  | .auditChainBroken f => [("verification", f.toValue)]
  | .unchargeable _ | .budgetClosed | .decisionNotFound _ | .notEscalated _ _ => []

def report (e : PolicyError) : Report := ⟨e.kind, .str e.code.name, e.message, e.metadata, e.particulars⟩

end PolicyError

namespace Report

/-- A report with a code of the policy. -/
def coded (kind : ReportKind) (code : ErrorCode) (wording : Text) (metadata : Value) (particulars : Members) :
    Report :=
  ⟨kind, .str code.name, PolicyError.coded code.name wording, metadata, particulars⟩

def parts (name : String) (v : Value) : Except Failure (List Text) :=
  match v with
  | .arr vs =>
    match Value.shownItems? vs with
    | some ss => .ok ss
    | none => .error .noText
  | v => .error (v.lacks name "join")

/-- A refusal with a message and issues; without issues there are none. -/
def refusal (kind : ReportKind) (code : ErrorCode) (particulars : Value) : Except Failure Report := do
  let message ← (← particulars.ask "message").quote
  let given ← particulars.ask "issues"
  let issues := if given.isAbsent then .arr [] else given
  return coded kind code message (.obj [("issues", issues)]) [("issues", issues)]

/-- A report of a kind in the caller's own particulars. -/
def stated (kind : ReportKind) (particulars : Value) : Except Failure Report := do
  match kind with
  | .general =>
    let code ← particulars.ask "code"
    let message ← (← particulars.ask "message").quote
    return ⟨kind, code, PolicyError.coded (← code.quote) message, particulars.entry "metadata", []⟩
  | .invalidProposal => refusal kind .invalidProposal particulars
  | .invalidConfig => refusal kind .invalidConfig particulars
  | .budgetExceeded =>
    let requested ← particulars.ask "requested"
    let remaining ← particulars.ask "remaining"
    let amounts : Members := [("requested", requested), ("remaining", remaining)]
    return coded kind .budgetExceeded (PolicyError.wordExceeded (← requested.quote) (← remaining.quote))
      (.obj amounts) amounts
  | .constraintViolation =>
    let decision ← particulars.ask "decision"
    let proposalId ← (← decision.ask "proposalId").quote
    let gates ← decision.ask "gatesFailed"
    let wording := PolicyError.wordViolation proposalId (← parts "decision.gatesFailed" gates)
    return coded kind .constraintViolation wording
      (.obj [("decisionId", decision.entry "decisionId"), ("gatesFailed", gates)]) [("decision", decision)]
  | .signOffRequired =>
    let id ← particulars.ask "decisionId"
    return coded kind .signOffRequired (PolicyError.wordSignOff (← id.quote))
      (.obj [("decisionId", id)]) [("decisionId", id)]
  | .dependencyCycle =>
    let cycle ← particulars.ask "cycle"
    return coded kind .dependencyCycle (PolicyError.wordCycle (← parts "cycle" cycle))
      (.obj [("cycle", cycle)]) [("cycle", cycle)]
  | .auditChainBroken =>
    let finding ← particulars.ask "verification"
    let link ← finding.ask "firstBrokenLink"
    let place ← if link.isNothing then pure (.whole "?") else link.quote
    let reason ← (← finding.ask "reason").quote
    return coded kind .auditChainBroken (PolicyError.wordBroken place reason)
      (.obj [("firstBrokenLink", link)]) [("verification", finding)]

end Report

end PolicyGates
