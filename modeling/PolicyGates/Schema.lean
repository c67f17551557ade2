import PolicyGates.Decimal.Layout
import PolicyGates.Value.Basic
/-!
# Checks on values

What a value has to look like is said by a check: a function from values to the list of all
that is out of place, each with the path to it.  A value is acceptable when the list is
empty.  Checks look at values only; they never change one.

The order of the issues is fixed: the members of an object in the order in which the check
names them, then the keys that it does not know; the items of a list in their order; the rules
on a number in the order in which they are stated.
-/
namespace PolicyGates

/-- Something out of place: where, and what is wrong there. -/
structure Issue where
  path : List String
  message : Text
  deriving DecidableEq, Repr

/-- The path with points between its parts, or `root` for the value itself, and the message. -/
def Issue.text (root : String) (i : Issue) : Text :=
  let path := String.intercalate "." i.path
  (if path = "" then root else path) ++ ": " ++ i.message

abbrev Check := Value → List Issue

namespace Schema

/-- One issue at the value itself. -/
def refuse (message : Text) : List Issue := [⟨[], message⟩]

/-- The issues of a member or item, seen from the value that holds it. -/
def under (key : String) (issues : List Issue) : List Issue :=
  issues.map (fun i => { i with path := key :: i.path })

def expected (what : Text) (v : Value) : List Issue :=
  refuse (if v.isAbsent then "Required" else "Expected " ++ what ++ ", received " ++ v.kind)

/-- A rule that a number has to keep. -/
inductive NumberRule where
  | whole
  | least (bound : Float)
  | greatest (bound : Float)
  | above (bound : Float)
  | finite

def NumberRule.admits : NumberRule → Float → Bool
  | .whole, x => Decimal.isWhole x
  | .least b, x => !(x < b)
  | .greatest b, x => !(b < x)
  | .above b, x => !(x ≤ b)
  | .finite, x => x.isFinite

def NumberRule.message : NumberRule → String
  | .whole => "Expected integer, received float"
  | .least b => "Number must be greater than or equal to " ++ Decimal.text b
  | .greatest b => "Number must be less than or equal to " ++ Decimal.text b
  | .above b => "Number must be greater than " ++ Decimal.text b
  | .finite => "Number must be finite"

/-- A number that keeps every rule; a NaN is none. -/
def number (rules : List NumberRule) : Check
  | .num x =>
    if x.isNaN then expected "number" (.num x)
    else (rules.filter (fun r => !r.admits x)).flatMap (fun r => refuse r.message)
  | v => expected "number" v

def text : Check
  | .str _ => []
  | v => expected "string" v

def filledText : Check
  | .str s => if s = .whole "" then refuse "String must contain at least 1 character(s)" else []
  | v => expected "string" v

def quoted (t : Text) : Text := "'" ++ t ++ "'"

def oneOf (names : List String) : Check := fun v =>
  let choice := Text.intercalate " | " (names.map (fun (s : String) => quoted s))
  match v with
  | .str s =>
    if s.plain ∈ names then []
    else refuse ("Invalid enum value. Expected " ++ choice ++ ", received " ++ quoted s)
  | v => expected choice v

/-- One of the given numbers, told without saying which. -/
def oneNumberOf (numbers : List Float) : Check
  | .num x => if numbers.any (· == x) then [] else refuse "Invalid input"
  | _ => refuse "Invalid input"

/-- The check, unless the value is absent. -/
def optional (c : Check) : Check := fun v => if v.isAbsent then [] else c v

/-- The issues of items from a given index on. -/
def itemIssues (c : Check) : Nat → List Value → List Issue
  | _, [] => []
  | n, v :: r => under (toString n) (c v) ++ itemIssues c (n + 1) r

def listOf (c : Check) : Check
  | .arr vs => itemIssues c 0 vs
  | v => expected "array" v

/-- The members that an object is checked for. -/
abbrev Fields := List (String × Check)

def Fields.issues (fs : Fields) (ms : Members) : List Issue :=
  fs.flatMap (fun f => under f.1 (f.2 (Members.get f.1 ms)))

/-- The keys of an object that are not among the fields, in the order of its listing. -/
def Fields.unknown (fs : Fields) (ms : Members) : List Text :=
  (Members.listing ms).filter (fun k => !(fs.any (fun f => .whole f.1 == k)))

/-- An object with the given fields; other members are let through. -/
def openObject (fs : Fields) : Check
  | .obj ms => fs.issues ms
  | v => expected "object" v

/-- An object with the given fields and no other members. -/
def closedObject (fs : Fields) : Check
  | .obj ms =>
    let unknown := fs.unknown ms
    fs.issues ms ++
      (if unknown = [] then []
       else
        refuse ("Unrecognized key(s) in object: " ++ Text.intercalate ", " (unknown.map quoted)))
  | v => expected "object" v

end Schema

end PolicyGates
