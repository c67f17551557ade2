import PolicyGates.Pool
import PolicyGates.Value.Arithmetic
/-!
# A shift at the pool

Tasks of known lengths are handed to a pool in order.  A task that has a slot starts, works for its
number of turns and ends, well or badly.

It all happens in rounds.  In a round tasks are handed in, tasks at work go on by a turn of their work,
and slots of those that have ended are passed on, so many of each and in whatever order it comes; then
the slots that are left are passed on, until there are none.  Whoever is handed a slot starts before
anybody else comes in: callers act in turns of their own, and whoever is called in a turn has started
when it is over.  (`SharedPool` is a pool where the two are apart.)

A shift begins with any rounds at all.  After them the tasks that are left are handed in, all at once,
and the work that is left is done in turns, where every task that was at work before goes on once, in
the order in which they last did.
-/
namespace PolicyGates.Pool

structure Task where
  /-- How many turns of work it takes. -/
  turns : Nat
  /-- What comes of it. -/
  outcome : Except Failure Value

inductive ShiftEvent where
  | started (task : Nat)
  | ended (task : Nat)
  deriving DecidableEq, Repr

def ShiftEvent.text : ShiftEvent → String
  | .started n => "start " ++ toString n
  | .ended n => "end " ++ toString n

/-- A task at work, with the turns that it still needs. -/
structure Work where
  task : Nat
  left : Nat
  deriving DecidableEq, Repr

/-- What may happen in a round. -/
inductive Act where
  /-- The next task is handed in, if there is one left. -/
  | handedIn
  /-- The task in a place among those at work goes on by one turn; nothing if there is none. -/
  | wentOn (place : Nat)
  /-- The slot of a task that has ended is passed on, if there is one. -/
  | passedOn

structure Shift where
  pool : Pool
  /-- How many tasks were handed in. -/
  asked : Nat
  /-- The tasks at work, the one that goes on next in front. -/
  working : List Work
  /-- Tasks that have ended but whose slots were not passed on yet. -/
  freed : Nat
  events : List ShiftEvent
  /-- The most tasks that were at work at once. -/
  peak : Nat
  /-- What came of the tasks that have ended. -/
  settled : List (Nat × Except Failure Value)

namespace Shift

def opening (size : Nat) : Shift := ⟨.idle size, 0, [], 0, [], 0, []⟩

def finish (s : Shift) (n : Nat) (outcome : Except Failure Value) : Shift :=
  { s with freed := s.freed + 1, events := s.events ++ [.ended n], settled := s.settled ++ [(n, outcome)] }

/-- A task that has a slot starts, and ends at once if it takes no turn. -/
def start (tasks : List Task) (s : Shift) (n : Nat) : Shift :=
  match tasks[n]? with
  | none => s
  | some t =>
    let s : Shift :=
      { s with events := s.events ++ [.started n], peak := max s.peak (s.working.length + 1) }
    if t.turns = 0 then s.finish n t.outcome else { s with working := s.working ++ [⟨n, t.turns⟩] }

/-- A task asks for a slot and starts if it gets one. -/
def ask (tasks : List Task) (s : Shift) (n : Nat) : Shift :=
  match s.pool.ask n with
  | (pool, true) => start tasks { s with pool } n
  | (pool, false) => { s with pool }

def passOn (tasks : List Task) (s : Shift) : Shift :=
  let s := { s with freed := s.freed - 1 }
  match s.pool.release with
  | (pool, some next) => start tasks { s with pool } next
  | (pool, none) => { s with pool }

/-- Passes slots on until none is left, at most the given number of times. -/
def passAllOn (tasks : List Task) : Nat → Shift → Shift
  | 0, s => s
  | n + 1, s => if s.freed = 0 then s else passAllOn tasks n (passOn tasks s)

/-- Passes on every slot that is free.  Each one passed on is one of those or takes a task out of the
line, so their number bounds how often that happens. -/
def settle (tasks : List Task) (s : Shift) : Shift := passAllOn tasks (s.freed + s.pool.waiting.length) s

/-- A task at work goes on, and ends with the last of its turns. -/
def goOn (tasks : List Task) (s : Shift) (w : Work) : Shift :=
  if w.left ≤ 1 then
    match tasks[w.task]? with
    | some t => s.finish w.task t.outcome
    | none => s
  else { s with working := s.working ++ [{ w with left := w.left - 1 }] }

def act (tasks : List Task) (s : Shift) : Act → Shift
  | .handedIn => if s.asked < tasks.length then ask tasks { s with asked := s.asked + 1 } s.asked else s
  | .wentOn place =>
    match s.working[place]? with
    | some w => goOn tasks { s with working := s.working.eraseIdx place } w
    | none => s
  | .passedOn => if s.freed = 0 then s else passOn tasks s

def round (tasks : List Task) (s : Shift) (acts : List Act) : Shift := settle tasks (acts.foldl (act tasks) s)

/-- So many rounds in which the task in front goes on. -/
def steps (tasks : List Task) : Nat → Shift → Shift
  | 0, s => s
  | n + 1, s => steps tasks n (round tasks s [.wentOn 0])

/-- One turn: everything at work as it begins goes on once. -/
def turn (tasks : List Task) (s : Shift) : Shift := steps tasks s.working.length s

def turns (tasks : List Task) : Nat → Shift → Shift
  | 0, s => s
  | n + 1, s => turns tasks n (turn tasks s)

/-- All the work there is; every turn with a task at work does some of it. -/
def workload (tasks : List Task) : Nat := tasks.foldl (fun turns t => turns + t.turns) 0

def run (size : Nat) (tasks : List Task) (rounds : List (List Act)) : Shift :=
  let s := rounds.foldl (round tasks) (opening size)
  turns tasks (workload tasks) (round tasks s (List.replicate tasks.length .handedIn))

/-- How many slots a size makes for a number of tasks: as many as there are natural numbers below it,
and one for every task if it is no number. -/
def slots (size : Float) (tasks : Nat) : Nat :=
  if size ≤ 0.0 then 0 else if size.isFinite then Decimal.countBelow size else tasks

/-- As `run`, for a size of any kind.  If it has no text to be read as a number, every task fails as it
asks for its slot. -/
def runAny (size : Value) (tasks : List Task) (rounds : List (List Act)) : Shift :=
  match size.number with
  | .ok x => run (slots x tasks.length) tasks rounds
  | .error f => { opening 0 with settled := (List.range tasks.length).map (fun n => (n, .error f)) }

end Shift

end PolicyGates.Pool
