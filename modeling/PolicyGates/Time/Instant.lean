import PolicyGates.Decimal.Binary
/-!
# Instants

A moment in whole milliseconds from the start of 1970, at most a hundred million days away
from it, and how it is written: the date in the Gregorian calendar and the time of day in
UTC.  Years from 0 to 9999 have four digits and the others a sign and six.
-/
namespace PolicyGates

/-- Milliseconds from the start of 1970. -/
structure Instant where
  milliseconds : Int
  deriving DecidableEq, Repr

namespace Instant

/-- The instant at a double's whole part; none outside the range. -/
def ofFloat? (x : Float) : Option Instant :=
  if -8640000000000000.0 ≤ x ∧ x ≤ 8640000000000000.0 then (Decimal.truncate? x).map Instant.mk
  else none

structure Date where
  year : Int
  month : Nat
  day : Nat
  deriving DecidableEq, Repr

/-- The date that lies a number of days after the start of 1970.  Years are counted from
March, so the leap day is the last one, in eras of 400 years, which have 146097 days. -/
def dateOfDay (days : Int) : Date :=
  let shifted := days + 719468
  let era := shifted / 146097
  let dayOfEra := (shifted % 146097).toNat
  let yearOfEra := (dayOfEra - dayOfEra / 1460 + dayOfEra / 36524 - dayOfEra / 146096) / 365
  let dayOfYear := dayOfEra - (365 * yearOfEra + yearOfEra / 4 - yearOfEra / 100)
  let fromMarch := (5 * dayOfYear + 2) / 153
  let month := if fromMarch < 10 then fromMarch + 3 else fromMarch - 9
  let year := era * 400 + yearOfEra
  ⟨if month ≤ 2 then year + 1 else year, month, dayOfYear - (153 * fromMarch + 2) / 5 + 1⟩

/-- A number with zeros in front up to a width. -/
def padded (width n : Nat) : String :=
  let ds := Nat.toDigits 10 n
  String.ofList (List.replicate (width - ds.length) '0' ++ ds)

def yearText (y : Int) : String :=
  if 0 ≤ y ∧ y ≤ 9999 then padded 4 y.toNat
  else (if y < 0 then "-" else "+") ++ padded 6 y.natAbs

/-- The written form, as in `2026-01-01T00:00:00.000Z`. -/
def text (t : Instant) : String :=
  let date := dateOfDay (t.milliseconds / 86400000)
  let time := (t.milliseconds % 86400000).toNat
  yearText date.year ++ "-" ++ padded 2 date.month ++ "-" ++ padded 2 date.day ++ "T"
    ++ padded 2 (time / 3600000) ++ ":" ++ padded 2 (time / 60000 % 60) ++ ":"
    ++ padded 2 (time / 1000 % 60) ++ "." ++ padded 3 (time % 1000) ++ "Z"

end Instant

end PolicyGates
