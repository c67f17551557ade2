import PolicyGates.Batch.Order
import PolicyGates.Scheduler
/-!
# Evaluating proposals

What callers ask for: the decision on one proposal, the decisions on several that are started
together, or those on a batch whose members may depend on each other.
-/
namespace PolicyGates

/-- A document to be evaluated as a proposal, and how. -/
structure Request where
  document : Value
  /-- The mode of the settings, unless one is given. -/
  mode : Option Mode
  /-- The time limit of the settings, unless one is given. -/
  timeoutMs : Value

namespace Registry

/-- The job of evaluating a proposal on its own, if its time limit can be set. -/
def job (reg : Registry) (p : Proposal) (mode : Option Mode) (timeoutMs : Value) : Except Failure Job := do
  let limit ← TimeLimit.ofValue (timeoutMs.orElse (.ofOption .num reg.settings.timeoutMs))
  return ⟨p, mode.getD reg.settings.mode, limit, []⟩

/-- Lets happen what was to happen around evaluations that do not come about. -/
def passBy (reg : Registry) (events : List Event) : Registry := (Scheduler.run reg [] 0 events).registry

/-- The job that a request comes to: its document has to hold a proposal before its time limit
matters. -/
def prepare (reg : Registry) (r : Request) : Except Failure Job :=
  match Proposal.create r.document with
  | .ok p => reg.job p r.mode r.timeoutMs
  | .error e => .error (.policy e)

def outcomeOf (s : Scheduler) (job : Nat) : Except Failure Decision :=
  match s.conclusion? job with
  | some c => c.outcome
  | none => .error (.reported "not concluded")

/-- Outcomes in the order of the requests: a request that came to no job failed with its own error,
and the others have the jobs in turn, from the given number on. -/
def outcomes (s : Scheduler) : Nat → List (Except Failure Job) → List (Except Failure Decision)
  | _, [] => []
  | n, .error e :: r => .error e :: outcomes s n r
  | n, .ok _ :: r => outcomeOf s n :: outcomes s (n + 1) r

/-- Starts the evaluation of every request at once; none waits for another. -/
def checkAll (reg : Registry) (requests : List Request) (events : List Event) :
    Registry × List (Except Failure Decision) :=
  let prepared := requests.map reg.prepare
  let jobs := prepared.filterMap Except.toOption
  let s := Scheduler.run reg jobs jobs.length events
  (s.registry, outcomes s 0 prepared)

def check (reg : Registry) (r : Request) (events : List Event) : Registry × Except Failure Decision :=
  match reg.prepare r with
  | .error e => (reg.passBy events, .error e)
  | .ok j =>
    let s := Scheduler.run reg [j] 1 events
    (s.registry, outcomeOf s 0)

/-! ## Batches -/

/-- The jobs of a batch that is in order: each awaits those of its dependencies that are in the
batch. -/
def jobsOf (reg : Registry) (ordered : List Proposal) (mode : Option Mode) (timeoutMs : Value) :
    Except Failure (List Job) :=
  let ids := ordered.map Proposal.proposalId
  ordered.mapM (fun p => do
    let j ← reg.job p mode timeoutMs
    return { j with awaits := p.dependsOn.filterMap (ids.idxOf? ·) })

def firstFailure (s : Scheduler) : Option Failure :=
  s.conclusions.findSome? (fun c =>
    match c.2 with
    | .failed e => some e
    | _ => none)

/-- The decision on a proposal of a batch in order, once all have been concluded. -/
def decisionOn (s : Scheduler) (ordered : List Proposal) (p : Proposal) : Except Failure Decision :=
  match ((ordered.map Proposal.proposalId).idxOf? p.proposalId).bind s.conclusion? with
  | some c => c.decision?
  | none => .error (.reported ("Proposal " ++ p.proposalId ++ " was not scheduled"))

def summary (ds : List Decision) : String :=
  let count (v : Verdict) : String := toString (ds.countP (fun d => d.overall == v))
  "[Orchestrator] Coordinated " ++ toString ds.length ++ " proposals: " ++ count .approve ++ " approved, "
    ++ count .reject ++ " rejected, " ++ count .escalateHuman ++ " escalated"

/-- The proposals that documents hold, up to the first that holds none. -/
def readBatch : List Value → Except PolicyError (List Proposal)
  | [] => .ok []
  | v :: r => do
    let p ← Proposal.create v
    let ps ← readBatch r
    return p :: ps

/-- Evaluates a batch: all of it is checked and put in order before anything is evaluated, and
nothing is evaluated if the time limit cannot be set.  The
decisions come in the order of the documents; enforced rejections are decisions here.  If an
evaluation fails, the batch fails with the first failure, after all others have ended. -/
def coordinate (reg : Registry) (documents : List Value) (mode : Option Mode) (timeoutMs : Value)
    (events : List Event) : Registry × Except Failure (List Decision) :=
  match readBatch documents with
  | .error e => (reg.passBy events, .error (.policy e))
  | .ok proposals =>
    match Batch.order proposals with
    | .error e => (reg.passBy events, .error (.policy e))
    | .ok ordered =>
      match reg.jobsOf ordered mode timeoutMs with
      | .error e => (reg.passBy events, .error e)
      | .ok jobs =>
        let s := Scheduler.run reg jobs (Decimal.toCount reg.settings.concurrency) events
        match firstFailure s with
        | some e => (s.registry, .error e)
        | none =>
          match proposals.mapM (decisionOn s ordered) with
          | .ok ds => (s.registry.write .log (summary ds), .ok ds)
          | .error e => (s.registry, .error e)

end Registry

end PolicyGates
