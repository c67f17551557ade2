import PolicyGates.Decimal.Layout
import PolicyGates.Text.Quoted
import PolicyGates.Value.Basic
/-!
# Canonical texts

Two values that mean the same have one canonical text, and everything that is hashed is
hashed through it.  The meaning of a value is its normal form: no member is absent, whatever
is absent elsewhere and whatever is no finite number is null, zero has no sign, and the
members of every object stand in the order of their keys.  The canonical text is the plain
text of the normal form, without blanks.
-/
namespace PolicyGates.Value

/-! ## The normal form -/

/-- A number is itself without the sign of zero, and null if it is not finite. -/
def normalNumber (x : Float) : Value :=
  if x.isFinite then .num (if x == 0.0 then 0.0 else x) else .null

def sortMembers (ms : Members) : Members := ms.mergeSort (fun a b => a.1.le b.1)

mutual

def normal : Value → Value
  | .absent => .null
  | .null => .null
  | .bool b => .bool b
  | .num x => normalNumber x
  | .str s => .str s
  | .arr vs => .arr (normalItems vs)
  | .obj ms => .obj (sortMembers (normalMembers ms))

def normalItems : List Value → List Value
  | [] => []
  | v :: r => normal v :: normalItems r

/-- The members that are there, each in normal form. -/
def normalMembers : List (Text × Value) → List (Text × Value)
  | [] => []
  | (_, .absent) :: r => normalMembers r
  | (k, v) :: r => (k, normal v) :: normalMembers r

end

/-! ## The plain text -/

mutual

/-- The text of a value without blanks, members in their order. -/
def render : Value → List Char
  | .absent => "null".toList
  | .null => "null".toList
  | .bool true => "true".toList
  | .bool false => "false".toList
  | .num x => Decimal.chars x
  | .str s => Text.Quoted.encode s
  | .arr vs => '[' :: renderItems vs
  | .obj ms => '{' :: renderMembers ms

def renderItems : List Value → List Char
  | [] => [']']
  | [v] => render v ++ [']']
  | v :: w :: r => render v ++ ',' :: renderItems (w :: r)

def renderMembers : List (Text × Value) → List Char
  | [] => ['}']
  | [(k, v)] => Text.Quoted.encode k ++ ':' :: render v ++ ['}']
  | (k, v) :: m :: r =>
    Text.Quoted.encode k ++ ':' :: render v ++ ',' :: renderMembers (m :: r)

end

def canonical (v : Value) : String := String.ofList (render (normal v))

end PolicyGates.Value
