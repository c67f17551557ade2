import PolicyGates.Gate.Verdicts
/-!
# Runs

A run takes a proposal through the gates in their order.  A gate that does not come to a result,
because its charge is refused or because it cannot make sense of the document, counts as
failed; nothing that happens at a gate keeps the run from ending in one of four ways.  Between
gates, and only there, a run can be cancelled.

`Progress` is a run that still has gates ahead of it and `Progress.check` takes it one gate
further: it looks for a cancellation and then lets the gate judge.
-/
namespace PolicyGates

inductive Ending where
  | completed
  /-- A gate that ends enforced runs failed. -/
  | fatal
  /-- The budget could not pay the gate that failed last. -/
  | exhausted
  /-- Cancelled before a gate, for a reason. -/
  | cancelled (before : Gate) (reason : Text)
  deriving DecidableEq

/-- A run that has ended, with the results in the order of the gates. -/
structure Run where
  results : List GateResult
  ending : Ending

namespace Run

/-- What a run tells: its results, two flags, and where and why it was cancelled. -/
def toValue (r : Run) : Value :=
  let cancellation : Members :=
    match r.ending with
    | .cancelled gate reason => [("cancelledAt", .str gate.name), ("cancelReason", .str reason)]
    | _ => []
  let told : Members :=
    [("results", .arr (r.results.map GateResult.toValue)),
     ("fatal", .bool (r.ending == .fatal)), ("budgetExhausted", .bool (r.ending == .exhausted))]
  .obj (told ++ cancellation)

end Run

structure Progress where
  budget : Budget
  results : List GateResult
  ahead : List Gate

namespace Progress

def fresh (b : Budget) : Progress := ⟨b, [], Gate.all⟩

/-- The budget cannot pay a gate, which ends the run. -/
def isExhaustion : Failure → Bool
  | .policy (.budgetExceeded _ _) => true
  | _ => false

/-- What is told of a gate that did not come to a result. -/
def refusal (g : Gate) (f : Failure) : GateResult :=
  let kind := if isExhaustion f then "energy budget exceeded: " else "gate error: "
  ⟨g, .fail, kind ++ f.message, 0.0, .absent⟩

/-- A state of a run after a step: it goes on, or it has ended and its budget stands where the
run left it. -/
inductive Step where
  | running (p : Progress)
  | ended (r : Run) (b : Budget)

/-- Goes on to the remaining gates, if there are any. -/
def Step.next (b : Budget) (results : List GateResult) (ahead : List Gate) : Step :=
  if ahead.isEmpty then .ended ⟨results, .completed⟩ b else .running ⟨b, results, ahead⟩

/-- One check: a cancellation ends the run here, otherwise the next gate judges. -/
def check (c : Circumstances) (proposal : Value) (cancellation : Option Text) (p : Progress) : Step :=
  match p.ahead with
  | [] => .ended ⟨p.results, .completed⟩ p.budget
  | gate :: ahead =>
    match cancellation with
    | some reason => .ended ⟨p.results, .cancelled gate reason⟩ p.budget
    | none =>
      match gate.evaluate c proposal p.budget with
      | (b, .error f) =>
        let results := p.results ++ [refusal gate f]
        if isExhaustion f then .ended ⟨results, .exhausted⟩ b else Step.next b results ahead
      | (b, .ok result) =>
        let results := p.results ++ [result]
        if result.outcome = .fail ∧ c.mode.enforces ∧ gate.isFatal then .ended ⟨results, .fatal⟩ b
        else Step.next b results ahead

/-- Takes a run to its end in at most the given number of checks.  `cancellation n` is what the
check after `n` others finds. -/
def finish (c : Circumstances) (proposal : Value) (cancellation : Nat → Option Text) :
    Nat → Nat → Progress → Run × Budget
  | 0, _, p => (⟨p.results, .completed⟩, p.budget)
  | checks + 1, n, p =>
    match p.check c proposal (cancellation n) with
    | .ended r b => (r, b)
    | .running p => finish c proposal cancellation checks (n + 1) p

end Progress

/-- Takes a proposal through all gates on a budget. -/
def Run.of (c : Circumstances) (proposal : Value) (b : Budget) (cancellation : Nat → Option Text) :
    Run × Budget :=
  Progress.finish c proposal cancellation Gate.all.length 0 (.fresh b)

/-- What a run finds at the check after `n` others, if it is aborted after the given numbers of
checks for the given reasons: the earliest abort, and of those after one check the first listed. -/
def Run.abortedBy (aborts : List (Nat × Text)) (n : Nat) : Option Text :=
  (List.range (n + 1)).findSome? (fun k => aborts.lookup k)

end PolicyGates
