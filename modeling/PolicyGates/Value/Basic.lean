import PolicyGates.Text.Basic
/-!
# Values

What is submitted, stored and answered, before anyone has checked it: a tree of nulls, booleans,
doubles, texts, lists and objects.  `absent` stands for a value that is not there at all, which
differs from a null; an object may carry a member whose value is absent, and looking up a
member that does not exist gives it too.

Objects keep their members in the order in which they were written.  `Members.put` keeps the
keys of an object distinct.
-/
namespace PolicyGates

inductive Value where
  | absent
  | null
  | bool (b : Bool)
  | num (x : Float)
  | str (s : Text)
  | arr (items : List Value)
  | obj (members : List (Text × Value))
  deriving Inhabited

abbrev Members := List (Text × Value)

namespace Members

def get (key : Text) : Members → Value
  | [] => .absent
  | (k, v) :: r => if k = key then v else get key r

/-- Sets the value under a key: in its place if the key is there, at the end otherwise. -/
def put (ms : Members) (key : Text) (value : Value) : Members :=
  match ms with
  | [] => [(key, value)]
  | (k, v) :: r => if k = key then (k, value) :: r else (k, v) :: put r key value

/-- The members of both, those of the second winning. -/
def override (ms changes : Members) : Members := changes.foldl (fun ms m => ms.put m.1 m.2) ms

def keys (ms : Members) : List Text := ms.map Prod.fst

theorem get_put_self (ms : Members) (k : Text) (v : Value) : get k (ms.put k v) = v := by
  induction ms with
  | nil => simp [put, get]
  | cons m r ih => by_cases h : m.1 = k <;> simp [put, get, h, ih]

theorem get_put_of_ne (ms : Members) {k k' : Text} (v : Value) (h : k' ≠ k) :
    get k' (ms.put k v) = get k' ms := by
  induction ms with
  | nil => simp [put, get, h.symm]
  | cons m r ih => by_cases hk : m.1 = k <;> simp_all [put, get, Ne.symm]

/-- An array index: a plain decimal without leading zeros, below `2^32 - 1`. -/
def index? (key : Text) : Option Nat :=
  let cs := key.plain.toList
  if cs = [] ∨ !cs.all Char.isDigit ∨ (1 < cs.length ∧ cs.head? = some '0') ∨ 10 < cs.length then none
  else
    let n := cs.foldl (fun n c => 10 * n + (c.toNat - 0x30)) 0
    if n < Nat.pow 2 32 - 1 then some n else none

/-- The keys in the order in which an object lists them: array indices first, ascending, and
then the others as written. -/
def listing (ms : Members) : List Text :=
  let indexed := ms.keys.filterMap (fun k => (index? k).map (fun n => (n, k)))
  (indexed.mergeSort (fun a b => a.1 ≤ b.1)).map Prod.snd ++ ms.keys.filter (fun k => (index? k).isNone)

end Members

namespace Value

/-- The member of an object under a key; absent for every other value. -/
def member (key : Text) : Value → Value
  | .obj ms => Members.get key ms
  | _ => .absent

def isAbsent : Value → Bool
  | .absent => true
  | _ => false

/-- Null or absent: a value that has no members to ask for. -/
def isNothing : Value → Bool
  | .absent => true
  | .null => true
  | _ => false

/-- A list or an object: a value that is a thing of its own. -/
def hasParts : Value → Bool
  | .arr _ => true
  | .obj _ => true
  | _ => false

/-- The value, unless it is null or absent. -/
def orElse (v fallback : Value) : Value := if v.isNothing then fallback else v

def asText? : Value → Option Text
  | .str s => some s
  | _ => none

/-- The text, where surrogates that stand alone do not matter. -/
def asString? (v : Value) : Option String := v.asText?.map Text.plain

def asNumber? : Value → Option Float
  | .num x => some x
  | _ => none

/-- The items of a list; none of them for every other value. -/
def items : Value → List Value
  | .arr vs => vs
  | _ => []

/-- The members of an object; none of them for every other value. -/
def members : Value → Members
  | .obj ms => ms
  | _ => []

/-- What kind of value this is, as messages name it. -/
def kind : Value → String
  | .absent => "undefined"
  | .null => "null"
  | .bool _ => "boolean"
  | .num x => if x.isNaN then "nan" else "number"
  | .str _ => "string"
  | .arr _ => "array"
  | .obj _ => "object"

/-- A member for an optional value. -/
def ofOption (f : α → Value) : Option α → Value
  | some a => f a
  | none => .absent

def ofCount (n : Nat) : Value := .num (Float.ofNat n)

def texts (ts : List Text) : Value := .arr (ts.map .str)

def strings (ss : List String) : Value := texts (ss.map .whole)

/-- What a value holds under a key: the member of an object, an item of a list or a unit of a text
under its index, and the number of these under `length`. -/
def entry (key : Text) : Value → Value
  | .obj ms => Members.get key ms
  | .arr vs =>
    if key = .whole "length" then ofCount vs.length else ((Members.index? key).bind (vs[·]?)).getD .absent
  | .str t =>
    if key = .whole "length" then ofCount t.units.length
    else ofOption .str ((Members.index? key).bind t.unitAt?)
  | _ => .absent

end Value

end PolicyGates
