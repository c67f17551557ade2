import PolicyGates.Audit.Log
/-!
# Appending under a lock

Many evaluations append to one log at a time.  Their calls wait for a lock and get it in the order in which they came.
The call that has it looks for the last record, if nobody has done so before, hands over the record that comes next
and waits for the answer; the lock is then free again, also if the record was refused.  More calls may come at any time.

`Log.append` is what a call comes to that is served from beginning to end: `run_serve`.
-/
namespace PolicyGates.Audit

/-- A decision to be recorded, with the hash of the proposal that it is about. -/
structure Call where
  proposalHash : Value
  decision : Value

/-- What the call that has the lock waits for. -/
inductive Serving where
  /-- The last record. -/
  | looking (call : Call)
  /-- An answer to the record that was handed over. -/
  | storing (record : Record)

/-- A log with the calls that wait for its lock. -/
structure SharedLog where
  log : Log
  waiting : List Call
  serving : Option Serving

/-- What can happen to a log that is shared. -/
inductive Event where
  | called (call : Call)
  /-- The lock is free and goes to the call that has waited longest. -/
  | taken
  /-- The last record is known. -/
  | found
  /-- The record handed over has been stored or refused. -/
  | answered
  /-- The store makes up its mind what it will say to the next appends. -/
  | decided (refusals : List Bool)
  | verified (first last : Value)
  | resolved
  /-- Another log takes over the same store, once nobody waits for this one. -/
  | reopened

namespace Log

/-- The log after a look for the last record. -/
def lookedUp (l : Log) : Log := { l with tip := some l.latest }

/-- The log after a record has been handed over, and stored or refused. -/
def put (l : Log) (r : Record) : Log :=
  match l.store with
  | some s =>
    match s.append r with
    | (s, true) => { l with store := some s, tip := some (some r) }
    | (s, false) => { l with store := some s }
  | none => { l with held := l.held ++ [r], tip := some (some r) }

/-- An append is a look for the last record, and then the next record put in its place. -/
theorem append_eq_put (l : Log) (proposalHash decision : Value) :
    (l.append proposalHash decision).1 = match l.nextRecord proposalHash decision with
      | .ok r => l.lookedUp.put r
      | .error _ => l.lookedUp := by
  obtain ⟨store, held, tip, breach⟩ := l
  unfold append
  cases nextRecord ⟨store, held, tip, breach⟩ proposalHash decision with
  | error e => rfl
  | ok r =>
    cases store with
    | none => rfl
    | some s =>
      simp only [put, lookedUp]
      rcases s.append r with ⟨s', _ | _⟩ <;> rfl

end Log

namespace SharedLog

/-- Nobody has called yet. -/
def opened (store : Option Store) : SharedLog := ⟨.opened store, [], none⟩

/-- The record of a call is made and handed over; a call that cannot be numbered gives the lock back. -/
def handOver (d : SharedLog) (c : Call) : SharedLog :=
  { d with
    log := d.log.lookedUp
    serving := match d.log.nextRecord c.proposalHash c.decision with
      | .ok r => some (.storing r)
      | .error _ => none }

/-- What an event does; nothing if it cannot happen. -/
def step (d : SharedLog) : Event → SharedLog
  | .called c => { d with waiting := d.waiting ++ [c] }
  | .taken =>
    match d.serving, d.waiting with
    | none, c :: rest =>
      if d.log.tip.isNone then { d with waiting := rest, serving := some (.looking c) }
      else handOver { d with waiting := rest } c
    | _, _ => d
  | .found =>
    match d.serving with
    | some (.looking c) => d.handOver c
    | _ => d
  | .answered =>
    match d.serving with
    | some (.storing r) => { d with log := d.log.put r, serving := none }
    | _ => d
  | .decided refusals => { d with log := { d.log with store := d.log.store.map ({ · with refusals := refusals }) } }
  | .verified first last => { d with log := (d.log.verify first last).1 }
  | .resolved => { d with log := d.log.resolveBreach }
  | .reopened => if d.waiting.isEmpty && d.serving.isNone then opened d.log.store else d

/-- What several events do, one after the other. -/
def run (d : SharedLog) (events : List Event) : SharedLog := events.foldl step d

/-- The events of one call from beginning to end. -/
def serve : List Event := [.taken, .found, .answered]

/-- **A call that is served from beginning to end is one append.** -/
theorem run_serve (l : Log) (c : Call) (rest : List Call) :
    run ⟨l, c :: rest, none⟩ serve = ⟨(l.append c.proposalHash c.decision).1, rest, none⟩ := by
  have hanswered : ∀ serving, step (handOver ⟨l, rest, serving⟩ c) .answered
      = ⟨(l.append c.proposalHash c.decision).1, rest, none⟩ := by
    intro serving
    rw [Log.append_eq_put]
    unfold handOver
    cases l.nextRecord c.proposalHash c.decision <;> rfl
  cases ht : l.tip with
  | none =>
    have htaken : step ⟨l, c :: rest, none⟩ .taken = ⟨l, rest, some (.looking c)⟩ := by simp only [step, ht]; rfl
    show step (step (step ⟨l, c :: rest, none⟩ .taken) .found) .answered = _
    rw [htaken]
    exact hanswered _
  | some t =>
    have htaken : step ⟨l, c :: rest, none⟩ .taken = handOver ⟨l, rest, none⟩ c := by simp only [step, ht]; rfl
    have hfound : step (handOver ⟨l, rest, none⟩ c) .found = handOver ⟨l, rest, none⟩ c := by
      unfold handOver
      cases l.nextRecord c.proposalHash c.decision <;> rfl
    show step (step (step ⟨l, c :: rest, none⟩ .taken) .found) .answered = _
    rw [htaken, hfound]
    exact hanswered _

end SharedLog

end PolicyGates.Audit
