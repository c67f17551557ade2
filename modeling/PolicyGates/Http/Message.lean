import PolicyGates.Failure
import PolicyGates.Text.Pieces
import PolicyGates.Text.Percent
import PolicyGates.Value.Reader
/-!
# Requests

What a client sends, and what the service reads in it: the route from the path, bounds from the
query and a value from the body.
-/
namespace PolicyGates.Http

structure Request where
  method : String
  /-- The path, and the query after a question mark. -/
  target : String
  contentType : String
  body : String

/-! ## The body -/

/-- Why a body cannot be read. -/
inductive BodyFault where
  | malformed
  | tooLarge
  | unsupportedCharset (name : String)
  deriving DecidableEq

def bodyLimit : Nat := 102400

/-- The parts of a content type, in lower case and without blanks around them. -/
def contentParts (s : String) : List String :=
  (Text.pieces ';' s.toList).map (fun cs => String.ofList ((Text.trim cs).map Char.toLower))

def isJson (contentType : String) : Bool := (contentParts contentType).head? == some "application/json"

/-- The character set that a content type names; without one it is UTF-8. -/
def charset (contentType : String) : String :=
  let named := (contentParts contentType).findSome? (fun part =>
    match Text.cutAt '=' part.toList with
    | (name, value) =>
      if Text.trim name = "charset".toList then
        some (String.ofList ((Text.trim value).filter (· ≠ '"')))
      else none)
  named.getD "utf-8"

/-- A text without the byte-order mark that it may start with. -/
def dropMark : List Char → List Char
  | '\uFEFF' :: r => r
  | r => r

/-- The value of a text, which has to be an object or a list; an empty text is an object without
members. -/
def parseBody (cs : List Char) : Except BodyFault Value :=
  if cs = [] then .ok (.obj [])
  else
    match Value.parse? (String.ofList cs) with
    | some (.obj ms) => .ok (.obj ms)
    | some (.arr vs) => .ok (.arr vs)
    | _ => .error .malformed

/-- The value of the body.  Without a body, and for a body that is not said to be JSON, it is an
object without members. -/
def Request.document (r : Request) : Except BodyFault Value :=
  if r.body = "" ∨ !isJson r.contentType then .ok (.obj [])
  else
    let set := charset r.contentType
    if !("utf-".toList.isPrefixOf set.toList) then .error (.unsupportedCharset set)
    else if bodyLimit < r.body.utf8ByteSize then .error .tooLarge
    else parseBody (dropMark r.body.toList)

/-! ## The path -/

def Request.path (r : Request) : List Char := (Text.cutAt '?' r.target.toList).1

/-- The segments of a path that starts with a slash; one slash at its end is not counted. -/
def segments? (path : List Char) : Option (List String) :=
  match Text.pieces '/' path with
  | [] :: p :: ps =>
    let all := p :: ps
    let kept := if 1 < all.length ∧ all.getLast? = some [] then all.dropLast else all
    some (kept.map String.ofList)
  | _ => none

inductive Route where
  | check
  | coordinate
  /-- Signs the decision with an id. -/
  | acknowledge (decisionId : String)
  | audit
  | verify
  | metrics
  deriving DecidableEq

inductive Routing where
  | found (route : Route)
  /-- An id in the path cannot be read. -/
  | unreadable (segment : String)
  | unknown
  deriving DecidableEq

/-- The segments of fixed words, in lower case; the words are told apart without regard to case. -/
def words (ss : List String) : List String := ss.map (fun s => String.ofList (s.toList.map Char.toLower))

def Request.routing (r : Request) : Routing :=
  match segments? r.path with
  | none => .unknown
  | some ss =>
    match words ss, ss with
    | ["decisions", _, "acknowledge"], [_, id, _] =>
      if id = "" then .unknown
      else
        match Text.Percent.decode? id.toList with
        | none => .unreadable id
        | some id => if r.method = "POST" then .found (.acknowledge id) else .unknown
    | ["proposals", "check"], _ => if r.method = "POST" then .found .check else .unknown
    | ["proposals", "coordinate"], _ => if r.method = "POST" then .found .coordinate else .unknown
    | ["audit"], _ => if r.method = "GET" then .found .audit else .unknown
    | ["audit", "verify"], _ => if r.method = "GET" then .found .verify else .unknown
    | ["metrics"], _ => if r.method = "GET" then .found .metrics else .unknown
    | _, _ => .unknown

/-! ## The query -/

/-- Escapes and plus signs resolved; what cannot be resolved stays as it is. -/
def decodeQuery (cs : List Char) : String :=
  let cs := cs.map (fun c => if c = '+' then ' ' else c)
  (Text.Percent.decode? cs).getD (String.ofList cs)

/-- The pairs of a query: keys with their values, which are empty where none is given. -/
def Request.pairs (r : Request) : List (String × String) :=
  let query := (Text.cutAt '?' r.target.toList).2
  ((Text.pieces '&' query).filter (· ≠ [])).map (fun part =>
    let (key, value) := Text.cutAt '=' part
    (decodeQuery key, decodeQuery value))

/-- What stands in front of the first pair of square brackets in a key; brackets make the
value part of a list or an object under that name. -/
def rootOf : List Char → List Char
  | [] => []
  | c :: r =>
    if c = '[' ∧ (r.dropWhile (fun d => d ≠ '[' ∧ d ≠ ']')).head? = some ']' then [] else c :: rootOf r

/-- The text under a name, if there is one and nothing else goes under that name. -/
def Request.query? (r : Request) (name : String) : Option String :=
  match r.pairs.filter (fun p => rootOf p.1.toList == name.toList) with
  | [(key, value)] => if key = name then some value else none
  | _ => none

/-- The sequence number under a name: a positive whole number at the start of its text, and
`fallback` in all other cases. -/
def Request.bound (r : Request) (name : String) (fallback : Value) : Value :=
  match (r.query? name).bind Decimal.leadingCount? with
  | some x => if x.isFinite ∧ 0.0 < x then .num x else fallback
  | none => fallback

end PolicyGates.Http
