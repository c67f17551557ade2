import PolicyGates.Audit.Hash
import PolicyGates.Digest
import PolicyGates.Failure
import PolicyGates.Value.Canonical
import PolicyGates.Value.Reader
/-!
# Audit records

A record holds a decision, its canonical text, the hash of the proposal decided on, and two
links: the hash of the record before it and its own, which covers all of these.

On the wire a record has no decision of its own, only its canonical text; reading it back
reads the decision from there.

A store is kept by others, so a record that comes from one may hold anything in any field.  The
fields are values for that reason; what they should hold is for verification to say.
-/
namespace PolicyGates.Audit

/-- The hash of a value: of its canonical text. -/
def hashOf (v : Value) : String := Digest.sha256 v.canonical

/-- What the first record links back to. -/
def genesisHash : String := String.ofList (List.replicate 64 '0')

def recordHash (sequenceNumber proposalHash prevHash decisionSummary : Value) : String :=
  hashOf (.arr [sequenceNumber, proposalHash, prevHash, decisionSummary])

structure Record where
  sequenceNumber : Value
  proposalHash : Value
  prevHash : Hash
  decisionSummary : Value
  recordHash : Hash
  decision : Value
  deriving Inhabited

namespace Record

def properHash (r : Record) : String :=
  Audit.recordHash r.sequenceNumber r.proposalHash r.prevHash.value r.decisionSummary

def rehashed (r : Record) : Record := { r with recordHash := .ofText r.properHash }

/-- The record of a decision at a place in the chain. -/
def make (sequenceNumber : Value) (prevHash : Hash) (proposalHash decision : Value) : Record :=
  rehashed ⟨sequenceNumber, proposalHash, prevHash, .str decision.canonical, .loose .absent, decision⟩

/-- The record after its arrival in a store, where `number` is the next one to be given. -/
def arrived (number : Nat) (r : Record) : Record := { r with recordHash := r.recordHash.arrived number }

def toValue (r : Record) : Value :=
  .obj [("sequenceNumber", r.sequenceNumber), ("proposalHash", r.proposalHash), ("prevHash", r.prevHash.value),
    ("decisionSummary", r.decisionSummary), ("recordHash", r.recordHash.value), ("decision", r.decision)]

/-- The record with some fields replaced: those that are among the given members. -/
def patched (r : Record) (changes : Members) : Record :=
  let field (key : String) (old : Value) : Value := if .whole key ∈ changes.keys then changes.get key else old
  let hash (key : String) (old : Hash) : Hash := if .whole key ∈ changes.keys then .loose (changes.get key) else old
  { sequenceNumber := field "sequenceNumber" r.sequenceNumber
    proposalHash := field "proposalHash" r.proposalHash
    prevHash := hash "prevHash" r.prevHash
    decisionSummary := field "decisionSummary" r.decisionSummary
    recordHash := hash "recordHash" r.recordHash
    decision := field "decision" r.decision }

end Record

/-- A record as it travels. -/
structure Wire where
  sequenceNumber : Value
  proposalHash : Value
  prevHash : Value
  decisionSummary : Value
  recordHash : Value

namespace Wire

def toValue (w : Wire) : Value :=
  .obj [("sequence_number", w.sequenceNumber), ("proposal_hash", w.proposalHash), ("prev_hash", w.prevHash),
    ("decision_summary", w.decisionSummary), ("record_hash", w.recordHash)]

/-- The record that a value describes; a member that it does not have is absent. -/
def ofValue (v : Value) : Except Failure Wire := do
  let summary ← v.ask "decision_summary"
  return ⟨v.entry "sequence_number", v.entry "proposal_hash", v.entry "prev_hash", summary, v.entry "record_hash"⟩

end Wire

namespace Record

def toWire (r : Record) : Wire :=
  ⟨r.sequenceNumber, r.proposalHash, r.prevHash.value, r.decisionSummary, r.recordHash.value⟩

/-- The record that arrived; its decision is what the text of its summary writes. -/
def ofWire (w : Wire) : Except Failure Record := do
  let summary ← w.decisionSummary.quote
  match Value.parseText? summary with
  | none => .error .notJson
  | some decision =>
    return ⟨w.sequenceNumber, w.proposalHash, .loose w.prevHash, w.decisionSummary, .loose w.recordHash, decision⟩

end Record

end PolicyGates.Audit
