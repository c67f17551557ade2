import PolicyGates.Registry
import PolicyGates.Pool
/-!
# The scheduler

Evaluations that run at once take turns.  In a turn every evaluation that was started before it
makes one check, in the order in which they were last touched.  Whatever follows from a check
happens before the next evaluation makes its own: an evaluation that ends is concluded, which the
log answers at once, its slot goes to the task that has waited longest, and then the tasks that
depended on it ask for a slot, if nothing else holds them back.

Between any two checks the surroundings may act: somebody aborts all evaluations, or time goes by
and brings timers to their end.  Either way an evaluation only learns of it at its next check, and
the first cancellation it meets with is the one that counts.

A task makes at most one check per gate, so six turns per task are enough for everything; turns
after the last evaluation has ended change nothing.  The time that goes by belongs to the
registry: it goes on where it stood, and also after the last evaluation has ended.
-/
namespace PolicyGates

/-- How long an evaluation may take. -/
structure TimeLimit where
  /-- The milliseconds for which its timer is set. -/
  ms : Float
  /-- The limit as it was given. -/
  given : Text

/-- The limit that a value sets; none if there is no value.  A value without a text sets no limit and
is a failure. -/
def TimeLimit.ofValue (v : Value) : Except Failure (Option TimeLimit) :=
  if v.isNothing then .ok none
  else do
    let ms ← v.number
    return some ⟨ms, ← v.quote⟩

structure Job where
  proposal : Proposal
  mode : Mode
  /-- None if it may take as long as it likes. -/
  limit : Option TimeLimit
  /-- The numbers of the jobs that have to be concluded before it starts. -/
  awaits : List Nat

structure Timer where
  due : Float
  /-- The limit as it was given. -/
  limit : Text

structure Evaluation where
  job : Nat
  progress : Progress
  cancellation : Option Text
  timer : Option Timer

namespace Evaluation

/-- Cancels the evaluation, unless it was cancelled before. -/
def cancel (e : Evaluation) (reason : Text) : Evaluation :=
  match e.cancellation with
  | some _ => e
  | none => { e with cancellation := some reason }

/-- The evaluation once the time is `now`: cancelled if its timer is due. -/
def atTime (e : Evaluation) (now : Float) : Evaluation :=
  match e.timer with
  | some t => if t.due ≤ now then e.cancel ("timed out after " ++ t.limit ++ "ms") else e
  | none => e

end Evaluation

/-- What an abort gives as its reason. -/
inductive AbortReason where
  | error (message : Text)
  | value (v : Value)
  | unstated

/-- The text of a reason: texts speak for themselves, other values say nothing. -/
def AbortReason.text : AbortReason → Text
  | .error m => m
  | .value (.str s) => s
  | .value _ => "evaluation cancelled"
  | .unstated => "This operation was aborted"

inductive Happening where
  /-- Aborts every evaluation, those not started yet included. -/
  | abort (reason : AbortReason)
  /-- Lets milliseconds go by. -/
  | advance (ms : Float)

/-- A place in a schedule: so many turns have been taken, and then so many checks of the next one.
After turn zero and no check is before everything. -/
structure Moment where
  turns : Nat
  checks : Nat
  deriving DecidableEq

namespace Moment

/-- The end of a turn. -/
instance : Coe Nat Moment := ⟨fun turns => ⟨turns, 0⟩⟩

instance (turns : Nat) : OfNat Moment turns := ⟨⟨turns, 0⟩⟩

/-- Not later than the other. -/
def le (a b : Moment) : Bool := a.turns < b.turns ∨ (a.turns = b.turns ∧ a.checks ≤ b.checks)

end Moment

/-- A happening and the moment after which it comes. -/
structure Event where
  after : Moment
  happening : Happening

structure Scheduler where
  registry : Registry
  pool : Pool
  /-- The started evaluations, the one that makes the next check in front. -/
  running : List Evaluation
  /-- How the concluded jobs ended, in the order in which they did. -/
  conclusions : List (Nat × Conclusion)
  abortReason : Option Text

namespace Scheduler

/-- How a job ended; none as long as it has not. -/
def conclusion? (s : Scheduler) (job : Nat) : Option Conclusion := s.conclusions.lookup job

/-- A timer set now. -/
def timer (s : Scheduler) (l : TimeLimit) : Timer := ⟨s.registry.elapsed + s.registry.delay l.ms, l.given⟩

/-- Starts the evaluation of a job, which has a slot.  Its first check comes in the next turn. -/
def start (jobs : List Job) (s : Scheduler) (job : Nat) : Scheduler :=
  match jobs[job]? with
  | none => s
  | some j =>
    let progress := Progress.fresh (.fresh j.proposal.energyBudgetTokens)
    { s with running := s.running ++ [⟨job, progress, s.abortReason, j.limit.map s.timer⟩] }

def ask (jobs : List Job) (s : Scheduler) (job : Nat) : Scheduler :=
  match s.pool.ask job with
  | (pool, true) => start jobs { s with pool } job
  | (pool, false) => { s with pool }

/-- A job gives up its slot, and the job that has it next starts. -/
def release (jobs : List Job) (s : Scheduler) : Scheduler :=
  match s.pool.release with
  | (pool, some next) => start jobs { s with pool } next
  | (pool, none) => { s with pool }

def setConclusion (s : Scheduler) (job : Nat) (c : Conclusion) : Scheduler :=
  { s with conclusions := s.conclusions ++ [(job, c)] }

/-- Why one of the given jobs failed, if one did. -/
def failureAmong (s : Scheduler) (jobs : List Nat) : Option Failure :=
  jobs.findSome? (fun n =>
    match s.conclusion? n with
    | some (.failed e) => some e
    | _ => none)

/-- What the end of the job `ended` means for another one: if that one awaited a job that has
failed, it fails too, without being evaluated; if `ended` was the last it awaited, it asks for
a slot. -/
def follow (jobs : List Job) (ended : Nat) (s : Scheduler) (job : Nat) : Scheduler :=
  match jobs[job]? with
  | none => s
  | some j =>
    if j.awaits.isEmpty || (s.conclusion? job).isSome then s
    else
      match s.failureAmong j.awaits with
      | some e => s.setConclusion job (.failed e)
      | none =>
        if ended ∈ j.awaits ∧ j.awaits.all (fun n => (s.conclusion? n).isSome) then ask jobs s job else s

/-- Concludes a job whose run has ended: audits it, passes its slot on, and goes through the jobs in
their order for what that means for them. -/
def conclude (jobs : List Job) (s : Scheduler) (job : Nat) (j : Job) (r : Run) (spent : Float) : Scheduler :=
  let (registry, c) := s.registry.conclude j.proposal j.mode r spent
  let s := release jobs ({ s with registry }.setConclusion job c)
  (List.range jobs.length).foldl (follow jobs job) s

def step (jobs : List Job) (s : Scheduler) : Scheduler :=
  match s.running with
  | [] => s
  | e :: rest =>
    let s := { s with running := rest }
    match jobs[e.job]? with
    | none => s
    | some j =>
      match e.progress.check (s.registry.circumstances j.proposal j.mode) j.proposal.toValue e.cancellation with
      | .running p => { s with running := s.running ++ [{ e with progress := p }] }
      | .ended r b => conclude jobs s e.job j r b.spent

def happen (s : Scheduler) : Happening → Scheduler
  | .abort reason =>
    match s.abortReason with
    | some _ => s
    | none =>
      { s with abortReason := some reason.text, running := s.running.map (·.cancel reason.text) }
  | .advance ms =>
    let now := s.registry.elapsed + ms
    { s with registry := { s.registry with elapsed := now }, running := s.running.map (·.atTime now) }

/-- All that happens at a moment, in the order in which it is listed. -/
def happenings (events : List Event) (moment : Moment) (s : Scheduler) : Scheduler :=
  (events.filter (fun e => e.after = moment)).foldl (fun s e => s.happen e.happening) s

/-- The events of some moments, in the order of these. -/
def during (events : List Event) (moments : Moment → Bool) : List Event :=
  (events.filter (fun e => moments e.after)).mergeSort (fun a b => a.after.le b.after)

/-- The next checks of a turn, of which `made` have been made, each with what happens after it; the
turn is the next one after `done`. -/
def checks (jobs : List Job) (events : List Event) (done : Nat) : Nat → Nat → Scheduler → Scheduler
  | 0, _, s => s
  | n + 1, made, s => checks jobs events done n (made + 1) (happenings events ⟨done, made + 1⟩ (step jobs s))

/-- The events of a turn that were to come after more checks than are made in it. -/
def overdue (events : List Event) (done made : Nat) : List Event :=
  during events (fun m => m.turns = done ∧ made < m.checks)

/-- The next turn after `done`: a check for everything that is running as it begins. -/
def turn (jobs : List Job) (events : List Event) (done : Nat) (s : Scheduler) : Scheduler :=
  let n := s.running.length
  (overdue events done n).foldl (fun s e => s.happen e.happening) (checks jobs events done n 0 s)

/-- The turns from the next one on, where `done` have been taken. -/
def turns (jobs : List Job) (events : List Event) : Nat → Nat → Scheduler → Scheduler
  | 0, _, s => s
  | n + 1, done, s => turns jobs events n (done + 1) (happenings events (done + 1 : Nat) (turn jobs events done s))

/-- All that happens after the end of a turn, in order. -/
def afterwards (events : List Event) (turns : Nat) (s : Scheduler) : Scheduler :=
  (during events (fun m => !m.le turns)).foldl (fun s e => s.happen e.happening) s

def opening (registry : Registry) (slots : Nat) : Scheduler := ⟨registry, .idle slots, [], [], none⟩

/-- The jobs that await nothing ask for their slots. -/
def enrol (jobs : List Job) (s : Scheduler) : Scheduler :=
  (List.range jobs.length).foldl (fun s n =>
    match jobs[n]? with
    | some j => if j.awaits.isEmpty then ask jobs s n else s
    | none => s) s

/-- How many turns are enough for a number of jobs. -/
def turnsFor (jobs : Nat) : Nat := Gate.all.length * jobs

/-- Evaluates all jobs, as many of them at once as there are slots. -/
def run (registry : Registry) (jobs : List Job) (slots : Nat) (events : List Event) : Scheduler :=
  let n := turnsFor jobs.length
  afterwards events n (turns jobs events n 0 (enrol jobs (happenings events 0 (opening registry slots))))

end Scheduler

end PolicyGates
