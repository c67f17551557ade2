import PolicyGates.Time.Instant
/-!
# The clock

Evaluations read the time from a clock that moves on by one millisecond with every reading
and by nothing else, so a run can be replayed.  A reading is used up also when it lies outside
the range of instants.
-/
namespace PolicyGates

structure Clock where
  start : Float
  readings : Nat
  deriving Repr

namespace Clock

def defaultStart : Float := 1767225600000.0

def startingAt (start : Float) : Clock := ⟨start, 0⟩

def now? (c : Clock) : Option Instant := Instant.ofFloat? (c.start + Float.ofNat c.readings)

def tick (c : Clock) : Clock := { c with readings := c.readings + 1 }

/-- The next readings, up to the first one outside the range. -/
def readings? : Nat → Clock → Option (List Instant)
  | 0, _ => some []
  | n + 1, c =>
    match c.now? with
    | none => none
    | some t => (readings? n c.tick).map (t :: ·)

end Clock

end PolicyGates
