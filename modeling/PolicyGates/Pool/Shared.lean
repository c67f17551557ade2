import PolicyGates.Failure
import PolicyGates.Pool
/-!
# A pool in use

Callers hand tasks to a pool whenever they like.  A task that gets a slot at once starts at once.  One that stands in
line is woken when a slot is handed over to it and starts a little later; other tasks may be handed in and come to
their ends in between.  A task that has come to its end, well or badly, still has its slot until the pool goes on with
it: then the slot is passed on and the caller is told what came of the task.
-/
namespace PolicyGates

/-- A pool with the tasks that were handed to it. -/
structure SharedPool where
  pool : Pool
  /-- How many tasks were handed in; they are numbered in that order. -/
  submitted : Nat
  /-- Tasks that have been handed a slot and have not started yet, the one that starts next in front. -/
  woken : List Nat
  running : List Nat
  /-- Tasks that have come to their end and whose slots have not been passed on, with what came of them. -/
  leaving : List (Nat × Except Failure Value)
  /-- What callers have been told, in the order in which they were. -/
  settled : List (Nat × Except Failure Value)
  /-- The tasks that have started, in the order in which they did. -/
  started : List Nat

namespace SharedPool

/-- What can happen to a pool in use. -/
inductive Occurrence where
  /-- One more task is handed in. -/
  | submitted
  /-- The task that was woken first starts. -/
  | woke
  /-- The task in a place among the running ones comes to its end. -/
  | ended (place : Nat) (outcome : Except Failure Value)
  /-- The pool goes on with the task in a place among those that have come to their ends. -/
  | left (place : Nat)

def opened (size : Nat) : SharedPool := ⟨.idle size, 0, [], [], [], [], []⟩

/-- The tasks that have a slot. -/
def holders (u : SharedPool) : List Nat := u.woken ++ u.running ++ u.leaving.map Prod.fst

def begin (u : SharedPool) (task : Nat) : SharedPool :=
  { u with running := u.running ++ [task], started := u.started ++ [task] }

/-- What happens; nothing if it cannot. -/
def step (u : SharedPool) : Occurrence → SharedPool
  | .submitted =>
    match u.pool.ask u.submitted with
    | (pool, true) => { u with pool, submitted := u.submitted + 1 }.begin u.submitted
    | (pool, false) => { u with pool, submitted := u.submitted + 1 }
  | .woke =>
    match u.woken with
    | [] => u
    | task :: rest => { u with woken := rest }.begin task
  | .ended place outcome =>
    match u.running[place]? with
    | none => u
    | some task => { u with running := u.running.eraseIdx place, leaving := u.leaving ++ [(task, outcome)] }
  | .left place =>
    match u.leaving[place]? with
    | none => u
    | some entry =>
      let u := { u with leaving := u.leaving.eraseIdx place, settled := u.settled ++ [entry] }
      match u.pool.release with
      | (pool, some next) => { u with pool, woken := u.woken ++ [next] }
      | (pool, none) => { u with pool }

def run (u : SharedPool) (occurrences : List Occurrence) : SharedPool := occurrences.foldl step u

theorem run_append (u : SharedPool) (os os' : List Occurrence) : u.run (os ++ os') = (u.run os).run os' :=
  List.foldl_append

end SharedPool

end PolicyGates
