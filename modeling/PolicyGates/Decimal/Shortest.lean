import PolicyGates.Decimal.Binary
/-!
# The shortest decimal of a double

Of the decimals that read back as a given positive double, the one with the fewest digits,
and of those the one nearest to it.  A decimal reads back when it lies in the interval of
the reals that round to the double; the two ends belong to it when the mantissa is even.

The value is `m · 2^q`.  Its neighbours lie one unit of `m` away, except that below a power of
two they are twice as close; halves of the distances are whole in units of `2^(q-2)`.  For
one digit, two digits and so on up to seventeen the two points of that decimal grid next to
the value are tested: if any point of a grid lies in the interval, one of these two does.
-/
namespace PolicyGates.Decimal

/-- The value `digits · 10^exponent`. -/
structure Scientific where
  digits : Nat
  exponent : Int
  deriving DecidableEq, Repr

structure Ratio where
  num : Nat
  den : Nat

/-- The step `10^e` in units of `2^u`. -/
def gridStep (e u : Int) : Ratio :=
  ⟨Nat.pow 10 e.toNat * Nat.pow 2 (-u).toNat, Nat.pow 10 (-e).toNat * Nat.pow 2 u.toNat⟩

/-- Which power of ten is the largest one not above `m · 2^q`, for `m > 0`.  The binary length
gives it up to one. -/
def decade (m : Nat) (q : Int) : Int :=
  let near : Int := ((m.log2 : Int) + q) * 30103 / 100000
  let reaches (e : Int) : Bool :=
    let s := gridStep e q
    s.num ≤ m * s.den
  if reaches (near + 1) then near + 1 else if reaches near then near else near - 1

/-- The value, the interval of what rounds to it and whether its ends belong to it, all in
units of `2^(q-2)`. -/
structure Rounding where
  low : Nat
  value : Nat
  high : Nat
  closed : Bool

def Rounding.of (m : Nat) (q : Int) : Rounding where
  low := if m = Nat.pow 2 52 ∧ q ≠ -1074 then 4 * m - 1 else 4 * m - 2
  value := 4 * m
  high := 4 * m + 2
  closed := m % 2 == 0

/-- The point `s` of a grid reads back. -/
def Rounding.holds (r : Rounding) (g : Ratio) (s : Nat) : Bool :=
  if r.closed then r.low * g.den ≤ s * g.num && s * g.num ≤ r.high * g.den
  else r.low * g.den < s * g.num && s * g.num < r.high * g.den

/-- The point of a grid that reads back and is nearest to the value; of two equally near ones
the even one. -/
def Rounding.nearest? (r : Rounding) (g : Ratio) : Option Nat :=
  let s := r.value * g.den / g.num
  let below := r.value * g.den - s * g.num
  let above := (s + 1) * g.num - r.value * g.den
  match r.holds g s, r.holds g (s + 1) with
  | true, true => some (if below < above ∨ (below = above ∧ s % 2 = 0) then s else s + 1)
  | true, false => some s
  | false, true => some (s + 1)
  | false, false => none

/-- The shortest decimal of `m · 2^q`, for `0 < m < 2^53`. -/
def shortest (m : Nat) (q : Int) : Scientific :=
  let top := decade m q
  let r := Rounding.of m q
  ((List.range 17).findSome? (fun k : Nat =>
    let e : Int := top - (k : Int)
    (r.nearest? (gridStep e (q - 2))).map (fun s => ⟨s, e⟩))).getD ⟨0, 0⟩

end PolicyGates.Decimal
