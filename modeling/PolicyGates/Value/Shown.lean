import PolicyGates.Decimal.Layout
import PolicyGates.Value.Basic
/-!
# Values in messages

How a value is quoted in a message: texts as they are, lists as their items between commas with
nothing for an item that is missing, objects by one fixed text.  A member under the key
`toString` would have to say how its object is shown, and no value can, so such an object has
no text, and neither has a list that holds it.
-/
namespace PolicyGates.Value

mutual

/-- The text of a value inside a message; none if it has none. -/
def shown? : Value → Option Text
  | .absent => some "undefined"
  | .null => some "null"
  | .bool b => some (if b then "true" else "false")
  | .num x => some (Decimal.text x)
  | .str s => some s
  | .arr vs => (shownItems? vs).map (Text.intercalate ",")
  | .obj ms => if ms.any (fun m => m.1 == .whole "toString") then none else some "[object Object]"

/-- The texts of the items of a list; a missing item has the empty text. -/
def shownItems? : List Value → Option (List Text)
  | [] => some []
  | .absent :: r => (shownItems? r).map ("" :: ·)
  | .null :: r => (shownItems? r).map ("" :: ·)
  | v :: r =>
    match shown? v, shownItems? r with
    | some s, some ss => some (s :: ss)
    | _, _ => none

end

end PolicyGates.Value
