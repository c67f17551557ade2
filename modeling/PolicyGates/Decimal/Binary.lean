/-!
# What a double stands for

A finite double is a whole number of a power of two: `±m · 2^q` with `m < 2^53`.  Everything the
library asks of a double beyond arithmetic and comparison (is it whole, what is its whole
part, which decimals read back as it) is asked of `m` and `q`, in exact arithmetic.
-/
namespace PolicyGates.Decimal

/-- The value `(-1)^negative · mantissa · 2^exponent`. -/
structure Binary where
  negative : Bool
  mantissa : Nat
  exponent : Int
  deriving DecidableEq, Repr

/-- The parts of a finite double; none for an infinity and for a NaN. -/
def Binary.ofFloat? (x : Float) : Option Binary :=
  let bits : Nat := x.toBits.toNat
  let negative : Bool := decide (Nat.pow 2 63 ≤ bits)
  let biased : Nat := bits / Nat.pow 2 52 % 2048
  let fraction : Nat := bits % Nat.pow 2 52
  if biased = 2047 then none
  else if biased = 0 then some ⟨negative, fraction, -1074⟩
  else some ⟨negative, Nat.pow 2 52 + fraction, (biased : Int) - 1075⟩

/-- The distance from zero, cut to a whole number. -/
def Binary.wholePart (b : Binary) : Nat :=
  if 0 ≤ b.exponent then b.mantissa * Nat.pow 2 b.exponent.toNat
  else b.mantissa / Nat.pow 2 (-b.exponent).toNat

def Binary.isWhole (b : Binary) : Bool :=
  0 ≤ b.exponent || b.mantissa % Nat.pow 2 (-b.exponent).toNat == 0

def isWhole (x : Float) : Bool := (Binary.ofFloat? x).any Binary.isWhole

/-- A double cut toward zero; none for an infinity and for a NaN. -/
def truncate? (x : Float) : Option Int :=
  (Binary.ofFloat? x).map (fun b => if b.negative then -(b.wholePart : Int) else b.wholePart)

/-- The whole part of a non-negative double; anything else counts as zero. -/
def toCount (x : Float) : Nat := ((truncate? x).getD 0).toNat

/-- How many of the numbers 0, 1, 2, … lie below a finite double. -/
def countBelow (x : Float) : Nat :=
  let n := toCount x
  if Float.ofNat n < x then n + 1 else n

def posInfinity : Float := 1.0 / 0.0

def negInfinity : Float := -posInfinity

def nan : Float := 0.0 / 0.0

/-- The largest number up to which every whole number is a double of its own: `2^53 - 1`. -/
def maxSafe : Float := 9007199254740991.0

end PolicyGates.Decimal
