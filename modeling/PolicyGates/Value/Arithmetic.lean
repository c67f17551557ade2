import PolicyGates.Decimal.Numeral
import PolicyGates.Failure
/-!
# Sums and comparisons of values

Documents are judged also when nobody has checked them, so sums, products and comparisons are
said for values of every kind.  On numbers they are those of the doubles.  Any other value
counts as the number that it stands for: nothing at all as no number, null as zero, a boolean as
zero or one, a text as the number that it writes; lists and objects stand for their texts.
Only where texts are added to anything, or compared with each other, they are taken as texts.
The one thing that can go wrong is a value that has no text.
-/
namespace PolicyGates.Value

/-- A text, or a value that stands for its text. -/
def isWordy : Value → Bool
  | .str _ => true
  | .arr _ => true
  | .obj _ => true
  | _ => false

def numberOfText (s : String) : Float := (Decimal.setting? s).getD Decimal.nan

def number : Value → Except Failure Float
  | .absent => .ok Decimal.nan
  | .null => .ok 0.0
  | .bool b => .ok (if b then 1.0 else 0.0)
  | .num x => .ok x
  | v => v.quote.map (fun t => numberOfText t.plain)

/-- The sum of two values; next to a text it is a longer text. -/
def plus (a b : Value) : Except Failure Value :=
  if a.isWordy || b.isWordy then do
    let s ← a.quote
    let t ← b.quote
    return .str (s ++ t)
  else do
    let x ← a.number
    let y ← b.number
    return .num (x + y)

def times (a b : Value) : Except Failure Value := do
  let x ← a.number
  let y ← b.number
  return .num (x * y)

/-- Compares two values: as texts if both are, and as numbers otherwise. -/
def compare (texts : Text → Text → Bool) (numbers : Float → Float → Bool) (a b : Value) : Except Failure Bool :=
  if a.isWordy && b.isWordy then do
    let s ← a.quote
    let t ← b.quote
    return texts s t
  else do
    let x ← a.number
    let y ← b.number
    return numbers x y

def less (a b : Value) : Except Failure Bool := compare (fun s t => !t.le s) (fun x y => x < y) a b

def atMost (a b : Value) : Except Failure Bool := compare Text.le (fun x y => x ≤ y) a b

/-- Two values are of one kind and equal.  As with doubles, the two zeros are equal and a NaN
equals nothing; every list and every object is a thing of its own. -/
def same : Value → Value → Bool
  | .absent, .absent => true
  | .null, .null => true
  | .bool a, .bool b => a == b
  | .num x, .num y => x == y
  | .str s, .str t => s == t
  | _, _ => false

instance : BEq Value := ⟨same⟩

theorem same_str {v : Value} {t : Text} : v.same (.str t) = true ↔ v = .str t := by
  cases v with
  | str s =>
    show (s == t) = true ↔ _
    rw [beq_iff_eq, Value.str.injEq]
  | _ => simp [same]

theorem str_same {v : Value} {t : Text} : (Value.str t).same v = true ↔ v = .str t := by
  cases v with
  | str s =>
    show (t == s) = true ↔ _
    rw [beq_iff_eq, Value.str.injEq, eq_comm]
  | _ => simp [same]

/-- A value that says something: neither nothing nor false nor zero nor an empty text. -/
def isTelling : Value → Bool
  | .absent => false
  | .null => false
  | .bool b => b
  | .num x => !(x.isNaN || x == 0.0)
  | .str s => s ≠ .whole ""
  | .arr _ => true
  | .obj _ => true

theorem number_of_isWordy {v : Value} (h : v.isWordy = true) :
    v.number = v.quote.map (fun t => numberOfText t.plain) := by
  cases v with
  | str s => rfl
  | arr vs => rfl
  | obj ms => rfl
  | _ => cases h

@[simp] theorem number_num (x : Float) : (Value.num x).number = .ok x := rfl

@[simp] theorem plus_num (x y : Float) : (Value.num x).plus (.num y) = .ok (.num (x + y)) := rfl

@[simp] theorem less_num (x y : Float) : (Value.num x).less (.num y) = .ok (decide (x < y)) := rfl

@[simp] theorem atMost_num (x y : Float) : (Value.num x).atMost (.num y) = .ok (decide (x ≤ y)) := rfl

end PolicyGates.Value
