import PolicyGates.Value.Basic
/-!
# The pool

A pool has a fixed number of slots.  A task that asks for one gets it at once while one is free
and otherwise waits in line; a task that ends hands its slot to the one that has waited
longest, and only gives it back if nobody waits.
-/
namespace PolicyGates

/-- Tasks are known by their numbers. -/
structure Pool where
  size : Nat
  active : Nat
  /-- The tasks in line, the first one in front. -/
  waiting : List Nat
  deriving DecidableEq, Repr

namespace Pool

def idle (size : Nat) : Pool := ⟨size, 0, []⟩

/-- A task asks for a slot; tells whether it has one now. -/
def ask (p : Pool) (task : Nat) : Pool × Bool :=
  if p.size ≤ p.active then ({ p with waiting := p.waiting ++ [task] }, false)
  else ({ p with active := p.active + 1 }, true)

/-- A task gives up its slot; tells which task has it now. -/
def release (p : Pool) : Pool × Option Nat :=
  match p.waiting with
  | next :: rest => ({ p with waiting := rest }, some next)
  | [] => ({ p with active := p.active - 1 }, none)

end Pool

end PolicyGates
