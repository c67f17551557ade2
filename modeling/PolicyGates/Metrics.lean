import PolicyGates.Decision
/-!
# Metrics

Counters over all audited decisions.
-/
namespace PolicyGates

structure Metrics where
  evaluated : Nat
  approved : Nat
  rejected : Nat
  escalated : Nat
  cancelled : Nat
  energyConsumed : Float
  /-- How many decisions each gate failed. -/
  gateFailures : Gate → Nat

namespace Metrics

def zero : Metrics := ⟨0, 0, 0, 0, 0, 0.0, fun _ => 0⟩

/-- The number of failures of a gate that is not remarked on yet. -/
def quietFailures : Nat := 5

def countFailure (m : Metrics) (g : Gate) : Metrics :=
  { m with gateFailures := fun h => if h = g then m.gateFailures h + 1 else m.gateFailures h }

/-- Counts the failed gates of a decision one after the other, and tells which of them have by
then failed how often, where that is remarkable. -/
def countFailures (m : Metrics) : List Gate → Metrics × List (Gate × Nat)
  | [] => (m, [])
  | g :: r =>
    let m := m.countFailure g
    let pressure := m.gateFailures g
    let (m', alerts) := countFailures m r
    (m', if quietFailures < pressure then (g, pressure) :: alerts else alerts)

/-- One more when the condition holds. -/
def tally (n : Nat) (b : Bool) : Nat := if b then n + 1 else n

def count (m : Metrics) (d : Decision) : Metrics × List (Gate × Nat) :=
  let counted : Metrics :=
    { m with
      evaluated := m.evaluated + 1
      approved := tally m.approved (d.overall == .approve)
      rejected := tally m.rejected (d.overall == .reject)
      escalated := tally m.escalated (d.overall == .escalateHuman)
      cancelled := tally m.cancelled d.cancelled
      energyConsumed := m.energyConsumed + d.energyConsumed }
  counted.countFailures d.gatesFailed

def toValue (m : Metrics) : Value :=
  .obj [("evaluated", .ofCount m.evaluated), ("approved", .ofCount m.approved),
    ("rejected", .ofCount m.rejected), ("escalated", .ofCount m.escalated),
    ("cancelled", .ofCount m.cancelled), ("energyConsumed", .num m.energyConsumed),
    ("gateFailures", .obj (Gate.all.map (fun g => (g.name, .ofCount (m.gateFailures g)))))]

end Metrics

end PolicyGates
