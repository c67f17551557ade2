import PolicyGates.Decimal.Binary
/-!
# Delays

A timer is set for a number of milliseconds, and it depends on the platform how long that is.  No
timer is due at once; but some platforms keep whole milliseconds only, and no more of them than
fit into 31 bits.
-/
namespace PolicyGates.Delay

/-- What is less than a millisecond, or no number at all, takes one. -/
def exact (ms : Float) : Float := if 1.0 ≤ ms then ms else 1.0

/-- The longest delay that fits into 31 bits. -/
def longest : Float := 2147483647.0

/-- Whole milliseconds that fit into 31 bits; all else takes one. -/
def bounded (ms : Float) : Float :=
  if 1.0 ≤ ms ∧ ms ≤ longest then Float.ofNat (Decimal.toCount ms) else 1.0

end PolicyGates.Delay
