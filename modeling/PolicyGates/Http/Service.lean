import PolicyGates.Evaluation
import PolicyGates.Http.Message
import PolicyGates.Report
/-!
# The service

A registry behind six routes.  Every request is answered with a status and a value; a failure is
answered according to its cause, and one that the policy does not know is also noted on the console.

While the evaluations of a request take their turns, time goes by, which may be too much for the limit
that the settings have for each; nobody aborts them, since a request comes without a signal.
-/
namespace PolicyGates.Http

/-- What a request meets with while it is answered. -/
structure Conditions where
  /-- How deep lists may stand in one another in a value that is quoted. -/
  depth : Nat
  /-- The milliseconds that go by, with the moments after which they do. -/
  passing : List (Moment × Float)

/-- What goes on around the evaluations of a request. -/
def Conditions.events (k : Conditions) : List Event := k.passing.map (fun p => ⟨p.1, .advance p.2⟩)

structure Response where
  status : Nat
  body : Value

namespace Response

/-- A reply as it arrives: in normal form, since it travels as a text. -/
def of (status : Nat) (body : Value) : Response := ⟨status, body.normal⟩

def statusOf : PolicyError → Nat
  | .constraintViolation _ => 422
  | .invalidProposal _ => 400
  | .decisionNotFound _ => 404
  | _ => 409

/-- What is told of a failure besides its message and code. -/
def particulars (e : PolicyError) : Members :=
  match e with
  | .constraintViolation _ | .invalidProposal _ | .dependencyCycle _ => e.particulars
  | _ => []

def ofPolicy (e : PolicyError) : Response :=
  let told : Members := [("error", .str e.message), ("code", .str e.code.name)]
  .of (statusOf e) (.obj (told ++ particulars e))

/-- The start of what is told of a body that is not JSON. -/
def malformedBody : Response :=
  .of 400 (.obj [("error", .str "Malformed JSON body: "), ("code", .str ErrorCode.invalidProposal.name),
    ("issues", .arr [])])

end Response

/-- Answers a failure that the policy does not know. -/
def unhandled (reg : Registry) (message : Text) : Registry × Response :=
  (reg.write .error ("[GatekeeperServer] Unhandled error: " ++ message),
    .of 500 (.obj [("error", .str message)]))

def refuse (reg : Registry) : Failure → Registry × Response
  | .policy e => (reg, .ofPolicy e)
  | f => unhandled reg f.message

def refuseBody (reg : Registry) : BodyFault → Registry × Response
  | .malformed => (reg, .malformedBody)
  | .tooLarge => unhandled reg "request entity too large"
  | .unsupportedCharset name =>
    unhandled reg ("unsupported charset \"" ++ String.ofList (name.toList.map Char.toUpper) ++ "\"")

/-- The mode that a document asks for, if it asks for one. -/
def modeOf (depth : Nat) (document : Value) : Except Failure (Option Mode) :=
  match document.member "mode" with
  | .absent => .ok none
  | v =>
    match v.asString?.bind Mode.ofName? with
    | some m => .ok (some m)
    | none => (v.quoteWithin depth).bind (fun shown => .error (.policy (.invalidProposal (.unknownMode shown))))

def handleCheck (k : Conditions) (reg : Registry) (document : Value) : Registry × Response :=
  match modeOf k.depth document with
  | .error f => refuse reg f
  | .ok mode =>
    match reg.check ⟨document.member "proposal", mode, .absent⟩ k.events with
    | (reg, .ok d) => (reg, .of 200 d.toValue)
    | (reg, .error f) => refuse reg f

def handleCoordinate (k : Conditions) (reg : Registry) (document : Value) : Registry × Response :=
  match document.member "proposals" with
  | .arr proposals =>
    match modeOf k.depth document with
    | .error f => refuse reg f
    | .ok mode =>
      match reg.coordinate proposals mode .absent k.events with
      | (reg, .ok ds) => (reg, .of 200 (.arr (ds.map Decision.toValue)))
      | (reg, .error f) => refuse reg f
  | _ => refuse reg (.policy (.invalidProposal .noBatch))

/-- A remark has to be a text; anything else counts as none. -/
def noteOf (document : Value) : Value :=
  match document.member "note" with
  | .str note => .str note
  | _ => .absent

def handleAcknowledge (reg : Registry) (decisionId : String) (document : Value) : Registry × Response :=
  match document.member "approver" with
  | .str approver =>
    if approver = .whole "" then (reg, .of 400 (.obj [("error", .str "approver is required")]))
    else
      match reg.acknowledge (.str decisionId) (.str approver) (noteOf document) with
      | (reg, .ok a) => (reg, .of 200 a.toValue)
      | (reg, .error f) => refuse reg f
  | _ => (reg, .of 400 (.obj [("error", .str "approver is required")]))

def handleAudit (reg : Registry) (r : Request) : Registry × Response :=
  match reg.log.range (r.bound "from" Audit.firstSequence) (r.bound "to" Audit.lastSequence) with
  | .ok records => (reg, .of 200 (.arr (records.map (fun x => x.toWire.toValue))))
  | .error f => refuse reg f

def handleVerify (reg : Registry) : Registry × Response :=
  match reg.verify Audit.firstSequence Audit.lastSequence with
  | (reg, .ok f) => (reg, .of (if f.valid then 200 else 409) f.toValue)
  | (reg, .error f) => refuse reg f

def answerRoute (k : Conditions) (reg : Registry) (r : Request) (document : Value) : Route → Registry × Response
  | .check => handleCheck k reg document
  | .coordinate => handleCoordinate k reg document
  | .acknowledge id => handleAcknowledge reg id document
  | .audit => handleAudit reg r
  | .verify => handleVerify reg
  | .metrics => (reg, .of 200 reg.metrics.toValue)

/-- Answers a request that asks for more than options: the body is read before the path is looked
at. -/
def dispatch (k : Conditions) (reg : Registry) (r : Request) : Registry × Response :=
  match r.document with
  | .error f => refuseBody reg f
  | .ok document =>
    match r.routing with
    | .found route => answerRoute k reg r document route
    | .unreadable segment => unhandled reg ("Failed to decode param '" ++ segment ++ "'")
    | .unknown => (reg, ⟨404, .null⟩)

/-- Answers a request.  Asking for the options of a path is answered everywhere and says nothing;
asking for the head of an answer has the effects of asking for all of it. -/
def answer (k : Conditions) (reg : Registry) (r : Request) : Registry × Response :=
  if r.method = "OPTIONS" then (reg, ⟨204, .null⟩)
  else if r.method = "HEAD" then
    let (reg, x) := dispatch k reg { r with method := "GET" }
    (reg, { x with body := .null })
  else dispatch k reg r

end PolicyGates.Http
