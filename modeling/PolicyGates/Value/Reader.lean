import PolicyGates.Decimal.Numeral
import PolicyGates.Text.Quoted
import PolicyGates.Value.Basic
/-!
# Reading texts

The strict grammar of JSON: one value, blanks around its tokens, nothing after it.  Of two
members with one key the later value stays, in the place of the earlier.

The reader spends one unit of fuel on every value and one on every step from an item or member
to the next.  Each of the two takes up a character of its own, so fuel for twice the
length of the text is never used up.
-/
namespace PolicyGates.Value.Reader

/-- Blanks between tokens: space, tab and the two line breaks. -/
def isSpace (c : Char) : Bool := c = ' ' || c = '\x09' || c = '\x0a' || c = '\x0d'

def skip (cs : List Char) : List Char := cs.dropWhile isSpace

/-- What is left after a word that the text starts with. -/
def after? (word cs : List Char) : Option (List Char) :=
  if word.isPrefixOf cs then some (cs.drop word.length) else none

mutual

/-- A value at the start of the text, after blanks. -/
def value : Nat → List Char → Option (Value × List Char)
  | 0, _ => none
  | fuel + 1, cs =>
    match skip cs with
    | [] => none
    | '"' :: r => (Text.Quoted.decode r).map (fun p => (.str p.1, p.2))
    | '[' :: r =>
      match skip r with
      | ']' :: r => some (.arr [], r)
      | r => items fuel [] r
    | '{' :: r =>
      match skip r with
      | '}' :: r => some (.obj [], r)
      | r => members fuel [] r
    | 'n' :: r => (after? "ull".toList r).map (fun r => (.null, r))
    | 't' :: r => (after? "rue".toList r).map (fun r => (.bool true, r))
    | 'f' :: r => (after? "alse".toList r).map (fun r => (.bool false, r))
    | c :: r => (Decimal.json (c :: r)).map (fun p => (.num p.1, p.2))

/-- The items from the next one on and the closing bracket; `seen` holds those before it, the
last one first. -/
def items : Nat → List Value → List Char → Option (Value × List Char)
  | 0, _, _ => none
  | fuel + 1, seen, cs =>
    match value fuel cs with
    | none => none
    | some (v, r) =>
      match skip r with
      | ',' :: r => items fuel (v :: seen) r
      | ']' :: r => some (.arr (v :: seen).reverse, r)
      | _ => none

/-- The members from the next one on and the closing brace, added to those before it. -/
def members : Nat → Members → List Char → Option (Value × List Char)
  | 0, _, _ => none
  | fuel + 1, seen, cs =>
    match skip cs with
    | '"' :: r =>
      match Text.Quoted.decode r with
      | none => none
      | some (k, r) =>
        match skip r with
        | ':' :: r =>
          match value fuel r with
          | none => none
          | some (v, r) =>
            let seen := Members.put seen k v
            match skip r with
            | ',' :: r => members fuel seen r
            | '}' :: r => some (.obj seen, r)
            | _ => none
        | _ => none
    | _ => none

end

end PolicyGates.Value.Reader

namespace PolicyGates.Value

/-- The value that a text writes; none if the text is not JSON. -/
def parse? (s : String) : Option Value :=
  let cs := s.toList
  match Reader.value (2 * cs.length + 1) cs with
  | some (v, r) => if (Reader.skip r).isEmpty then some v else none
  | none => none

/-- Units as characters, with an escape for every surrogate that stands alone.  Inside quotes the escape
reads as that surrogate, and elsewhere neither of them reads at all; nor does a surrogate as the
letter of an escape, which `escaping` tells to have been started. -/
def spelled? (escaping : Bool) : List Nat → Option (List Char)
  | [] => some []
  | u :: r =>
    if !Text.isSurrogate u then (spelled? (!escaping && u == 0x5C) r).map (Char.ofNat u :: ·)
    else
      match r with
      | [] => if escaping then none else some (Text.Quoted.encodeSurrogate u)
      | v :: r =>
        if Text.isPair u v then (spelled? false r).map (Text.charOfPair u v :: ·)
        else if escaping then none
        else (spelled? false (v :: r)).map (Text.Quoted.encodeSurrogate u ++ ·)

/-- The value that a text writes, also if surrogates stand alone in it. -/
def parseText? : Text → Option Value
  | .whole s => parse? s
  | .broken us _ => (spelled? false us).bind (fun cs => parse? (String.ofList cs))

end PolicyGates.Value
