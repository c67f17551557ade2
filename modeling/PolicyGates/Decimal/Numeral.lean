import PolicyGates.Decimal.Binary
import PolicyGates.Text.Blank
/-!
# Reading numbers

Three grammars share one way of turning digits and a power of ten into the nearest double.

* `json`: the numbers of JSON, with no leading zero, no sign but a minus and no bare point.
* `setting?`: a whole text, blanks at its ends aside, as settings give a number: a
  decimal with an optional sign, the word for infinity, or digits to base 16, 8 or 2.
* `leadingCount?`: the whole number at the start of a text, whatever follows it.
-/
namespace PolicyGates.Decimal

def spanDigits (cs : List Char) : List Char × List Char := cs.span Char.isDigit

def valueOfDigits (ds : List Char) : Nat :=
  ds.foldl (fun n c => 10 * n + (c.toNat - 0x30)) 0

/-- The double nearest to `digits · 10^exponent`, where `ds` are the digits.  Values past either end
of the range are decided by their size alone, so no power of ten is formed for them. -/
def nearest (ds : List Char) (exponent : Int) : Float :=
  let ds := ds.dropWhile (· == '0')
  let size := exponent + ds.length
  if ds = [] ∨ size < -330 then 0.0
  else if 310 < size then posInfinity
  else OfScientific.ofScientific (valueOfDigits ds) (decide (exponent < 0)) exponent.natAbs

/-- A sign at the start, and the rest. -/
def splitSign : List Char → Bool × List Char
  | '-' :: r => (true, r)
  | '+' :: r => (false, r)
  | r => (false, r)

/-- An exponent part, if there is one: its value and what follows.  A mark without digits after
it is an error. -/
def exponentPart : List Char → Option (Int × List Char)
  | [] => some (0, [])
  | c :: r =>
    if c = 'e' ∨ c = 'E' then
      let (negative, r) := splitSign r
      let (ds, r) := spanDigits r
      if ds = [] then none
      else
        let n : Int := valueOfDigits ds
        some (if negative then -n else n, r)
    else some (0, c :: r)

/-- The double with the given digits before and after the point. -/
def assemble (negative : Bool) (whole fraction : List Char) (exponent : Int) : Float :=
  let x := nearest (whole ++ fraction) (exponent - fraction.length)
  if negative then -x else x

/-- A number of JSON at the start of the text, and what follows it. -/
def json (cs : List Char) : Option (Float × List Char) :=
  let (negative, cs) : Bool × List Char :=
    match cs with
    | '-' :: r => (true, r)
    | r => (false, r)
  let (whole, cs) := spanDigits cs
  if whole = [] ∨ (whole.head? = some '0' ∧ 1 < whole.length) then none
  else
    match cs with
    | '.' :: r =>
      let (fraction, r) := spanDigits r
      if fraction = [] then none
      else (exponentPart r).map (fun p => (assemble negative whole fraction p.1, p.2))
    | r => (exponentPart r).map (fun p => (assemble negative whole [] p.1, p.2))

/-- What a digit to a base of at most sixteen stands for. -/
def digitValue? (base : Nat) (c : Char) : Option Nat :=
  let v :=
    if '0' ≤ c ∧ c ≤ '9' then c.toNat - 0x30
    else if 'a' ≤ c ∧ c ≤ 'f' then c.toNat - 0x57
    else if 'A' ≤ c ∧ c ≤ 'F' then c.toNat - 0x37
    else 16
  if v < base then some v else none

/-- The double nearest to the number that digits to a base write; none without digits. -/
def radix? (base : Nat) (cs : List Char) : Option Float :=
  if cs = [] then none
  else (cs.foldlM (fun n c => (digitValue? base c).map (base * n + ·)) 0).map
    (fun n => if Nat.pow 2 1025 ≤ n then posInfinity else Float.ofNat n)

/-- A decimal that makes up the whole text. -/
def decimal? (cs : List Char) : Option Float :=
  let (negative, cs) := splitSign cs
  if cs = "Infinity".toList then some (if negative then negInfinity else posInfinity)
  else
    let (whole, cs) := spanDigits cs
    let (fraction, cs) :=
      match cs with
      | '.' :: r => spanDigits r
      | r => ([], r)
    if whole = [] ∧ fraction = [] then none
    else
      match exponentPart cs with
      | some (e, []) => some (assemble negative whole fraction e)
      | _ => none

/-- The number that a setting gives; a blank text gives zero. -/
def setting? (s : String) : Option Float :=
  match Text.trim s.toList with
  | [] => some 0.0
  | '0' :: 'x' :: r | '0' :: 'X' :: r => radix? 16 r
  | '0' :: 'o' :: r | '0' :: 'O' :: r => radix? 8 r
  | '0' :: 'b' :: r | '0' :: 'B' :: r => radix? 2 r
  | cs => decimal? cs

/-- The whole number at the start of a text, after blanks and a sign; none if no digit is there. -/
def leadingCount? (s : String) : Option Float :=
  let (negative, cs) := splitSign (s.toList.dropWhile Text.isBlank)
  let (ds, _) := spanDigits cs
  if ds = [] then none else some (assemble negative ds [] 0)

end PolicyGates.Decimal
