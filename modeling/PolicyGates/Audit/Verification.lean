import PolicyGates.Audit.Record
import PolicyGates.Value.Arithmetic
/-!
# Verification

A history is walked from its first record to its last.  Every record within the range asked
for is held against the record before it and against its own fields; records before the
range are only walked over, and the walk ends at the first record past the range.  The first
flaw ends the walk too.

Nothing is taken for granted about what the fields hold.  A number that cannot be told, for want
of a text, ends the walk without a finding.
-/
namespace PolicyGates.Audit

/-- What the walk knows of the record before: the number that has to come next and the hash that
the next record has to link back to. -/
structure Link where
  next : Value
  prev : Hash

def Link.genesis : Link := ⟨.num 1.0, .ofText genesisHash⟩

/-- After a record, whatever it is like. -/
def Record.link (r : Record) : Except Failure Link := do
  let next ← r.sequenceNumber.plus (.num 1.0)
  return ⟨next, r.recordHash⟩

/-- What is wrong with a record that follows a link, and at which number the chain breaks there. -/
def Record.flaw? (r : Record) (l : Link) : Except Failure (Option (Value × Text)) := do
  if !r.sequenceNumber.same l.next then
    return some (l.next,
      "expected sequence " ++ (← l.next.quote) ++ ", found " ++ (← r.sequenceNumber.quote))
  else if !r.prevHash.same l.prev then
    return some (r.sequenceNumber, "previous hash does not match preceding record")
  else if !(Value.str r.properHash).same r.recordHash.value then
    return some (r.sequenceNumber, "record hash mismatch")
  else if !(Value.str r.decision.canonical).same r.decisionSummary then
    return some (r.sequenceNumber, "decision summary does not match decision")
  else return none

/-- The largest whole number up to which all are told apart, the default end of a range. -/
def lastSequence : Value := .num Decimal.maxSafe

def firstSequence : Value := .num 1.0

/-- Walks on from a link, with the given number of records found in order before. -/
def walk (first last : Value) : Link → Nat → List Record → Except Failure Finding
  | _, checked, [] => .ok (.intact checked)
  | l, checked, r :: rest => do
    if ← last.less r.sequenceNumber then return .intact checked
    else if ← first.atMost r.sequenceNumber then
      match ← r.flaw? l with
      | some (link, reason) => return .broken link reason checked
      | none => walk first last (← r.link) (checked + 1) rest
    else walk first last (← r.link) checked rest

/-- What a look through the records numbered from `first` to `last` comes to. -/
def verify (first last : Value) (history : List Record) : Except Failure Finding :=
  walk first last .genesis 0 history

def Record.isWithin (first last : Value) (r : Record) : Except Failure Bool := do
  if ← first.atMost r.sequenceNumber then r.sequenceNumber.atMost last else return false

def range (first last : Value) (history : List Record) : Except Failure (List Record) :=
  history.filterM (Record.isWithin first last)

/-- The first record whose decision has the given id.  A record before it whose decision is nothing
at all cannot be asked for its id. -/
def find (decisionId : Value) : List Record → Except Failure (Option Record)
  | [] => .ok none
  | r :: rest => do
    let id ← r.decision.ask "decisionId"
    if id.same decisionId then return some r
    else find decisionId rest

end PolicyGates.Audit
