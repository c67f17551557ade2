import PolicyGates.Audit.Verification
/-!
# The audit log

A log appends records to a store, or to a list of its own where there is no store.  It remembers the
last record once it has looked for it, so that what others do to the store later does not
change how the chain goes on from here.  A store may refuse a record; the log then stays as
it was and the next record takes the number.

A verification that finds the chain broken puts the log under suspicion, and only resolving
the breach lifts it.
-/
namespace PolicyGates.Audit

/-- Records kept outside the log. -/
structure Store where
  records : List Record
  /-- What the store will say to the next appends, `true` for a refusal; after these it accepts. -/
  refusals : List Bool
  /-- How many records have been put here or changed from outside. -/
  arrivals : Nat

namespace Store

def empty : Store := ⟨[], [], 0⟩

/-- Puts a record at the end, or refuses to. -/
def append (s : Store) (r : Record) : Store × Bool :=
  match s.refusals with
  | true :: rest => ({ s with refusals := rest }, false)
  | false :: rest => ({ s with records := s.records ++ [r], refusals := rest }, true)
  | [] => ({ s with records := s.records ++ [r] }, true)

def refuseNext (s : Store) (count : Nat) : Store := { s with refusals := List.replicate count true }

/-! ## Edits from outside

What comes from outside arrives: a list or an object in place of a hash is then told apart from all
that came before. -/

/-- Changes the record at an index; none if there is none. -/
def edit? (s : Store) (index : Nat) (f : Record → Record) : Option Store :=
  (s.records[index]?).map (fun r =>
    { s with records := s.records.set index ((f r).arrived s.arrivals), arrivals := s.arrivals + 1 })

def drop (s : Store) (index : Nat) : Store := { s with records := s.records.eraseIdx index }

/-- Exchanges two records; none unless both are there. -/
def swap? (s : Store) (i j : Nat) : Option Store := do
  let a ← s.records[i]?
  let b ← s.records[j]?
  return { s with records := (s.records.set i b).set j a }

/-- Puts a record at the end without asking. -/
def load (s : Store) (r : Record) : Store :=
  { s with records := s.records ++ [r.arrived s.arrivals], arrivals := s.arrivals + 1 }

/-- Puts records that arrived on the wire at the end, up to the first that cannot be read, each as
`prepare` leaves it; tells why one could not be read. -/
def loadAll (prepare : Record → Record) (s : Store) : List Value → Store × Option Failure
  | [] => (s, none)
  | v :: r =>
    match (Wire.ofValue v).bind Record.ofWire with
    | .ok x => loadAll prepare (s.load (prepare x)) r
    | .error e => (s, some e)

end Store

structure Log where
  store : Option Store
  /-- The records of a log without a store. -/
  held : List Record
  /-- The last record as the log remembers it: not looked for yet, or looked for and either found
  or not. -/
  tip : Option (Option Record)
  breach : Option Finding

namespace Log

def opened (store : Option Store) : Log := ⟨store, [], none, none⟩

def history (l : Log) : List Record :=
  match l.store with
  | some s => s.records
  | none => l.held

/-- The last record: as remembered, or else the last one that the store has. -/
def latest (l : Log) : Option Record :=
  match l.tip with
  | some t => t
  | none => l.store.bind (fun s => s.records.getLast?)

/-- The number that the next record comes after.  A last record without a number counts as none. -/
def lastNumber (l : Log) : Value := ((l.latest.map Record.sequenceNumber).getD .absent).orElse (.num 0.0)

/-- The hash that the next record links back to.  A last record without a hash counts as none. -/
def lastHash (l : Log) : Hash :=
  match l.latest with
  | some r => if r.recordHash.value.isNothing then .ofText genesisHash else r.recordHash
  | none => .ofText genesisHash

/-- The record of a decision that would come next. -/
def nextRecord (l : Log) (proposalHash decision : Value) : Except Failure Record := do
  return Record.make (← l.lastNumber.plus (.num 1.0)) l.lastHash proposalHash decision

/-- What a store reports that refuses a record. -/
def refusal : Failure := .reported "store offline"

/-- Appends the record of a decision.  Looking for the last record is remembered also if there is no
number to give or the store refuses. -/
def append (l : Log) (proposalHash decision : Value) : Log × Except Failure Record :=
  match l.nextRecord proposalHash decision with
  | .error f => ({ l with tip := some l.latest }, .error f)
  | .ok r =>
    match l.store with
    | some s =>
      match s.append r with
      | (s, true) => ({ l with store := some s, tip := some (some r) }, .ok r)
      | (s, false) => ({ l with store := some s, tip := some l.latest }, .error refusal)
    | none => ({ l with held := l.held ++ [r], tip := some (some r) }, .ok r)

/-- A record that was appended is the next one, stands at the end of the history and is remembered
as the last. -/
theorem append_eq_ok {l l' : Log} {proposalHash decision : Value} {r : Record}
    (h : l.append proposalHash decision = (l', .ok r)) :
    l.nextRecord proposalHash decision = .ok r ∧ l'.history = l.history ++ [r] ∧ l'.tip = some (some r) := by
  unfold append at h
  unfold history
  cases hn : l.nextRecord proposalHash decision with
  | error f => simp [hn] at h
  | ok x =>
    cases hs : l.store with
    | none =>
      simp only [hn, hs, Prod.mk.injEq, Except.ok.injEq] at h
      obtain ⟨rfl, rfl⟩ := h
      simp
    | some s =>
      simp only [hn, hs, Store.append] at h
      cases hr : s.refusals with
      | nil =>
        simp only [hr, Prod.mk.injEq, Except.ok.injEq] at h
        obtain ⟨rfl, rfl⟩ := h
        simp
      | cons b rest =>
        cases b with
        | true => simp [hr] at h
        | false =>
          simp only [hr, Prod.mk.injEq, Except.ok.injEq] at h
          obtain ⟨rfl, rfl⟩ := h
          simp

/-- An append that fails leaves the history and the last record as they were. -/
theorem append_eq_error {l l' : Log} {proposalHash decision : Value} {f : Failure}
    (h : l.append proposalHash decision = (l', .error f)) :
    (f = refusal ∨ l.nextRecord proposalHash decision = .error f)
      ∧ l'.history = l.history ∧ l'.latest = l.latest := by
  unfold append at h
  unfold history
  cases hn : l.nextRecord proposalHash decision with
  | error g =>
    simp only [hn, Prod.mk.injEq, Except.error.injEq] at h
    obtain ⟨rfl, rfl⟩ := h
    simp [latest]
  | ok x =>
    cases hs : l.store with
    | none => simp [hn, hs] at h
    | some s =>
      simp only [hn, hs, Store.append] at h
      cases hr : s.refusals with
      | nil => simp [hr] at h
      | cons b rest =>
        cases b with
        | false => simp [hr] at h
        | true =>
          simp only [hr, Prod.mk.injEq, Except.error.injEq] at h
          obtain ⟨rfl, rfl⟩ := h
          simp [latest]

/-- Appends the records of several decisions, each with the hash of its proposal, one after the
other; a refused one does not keep those after it from being appended. -/
def appendAll (l : Log) : List (Value × Value) → Log × List (Except Failure Record)
  | [] => (l, [])
  | (proposalHash, decision) :: rest =>
    let (l, r) := l.append proposalHash decision
    let (l, rs) := l.appendAll rest
    (l, r :: rs)

/-- What is found, and the log that remembers it if it is a breach. -/
def verify (l : Log) (first last : Value) : Log × Except Failure Finding :=
  match Audit.verify first last l.history with
  | .error e => (l, .error e)
  | .ok f => (if f.valid then l else { l with breach := some f }, .ok f)

def isTrusted (l : Log) : Bool := l.breach.isNone

def resolveBreach (l : Log) : Log := { l with breach := none }

def range (l : Log) (first last : Value) : Except Failure (List Record) := Audit.range first last l.history

def find (l : Log) (decisionId : Value) : Except Failure (Option Record) := Audit.find decisionId l.history

end Log

end PolicyGates.Audit
