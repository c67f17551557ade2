import PolicyGates.Proofs.Audit.Growth
/-!
# Restarts

A log that has looked at its store remembers the last record, and one that is opened anew over the store finds the
same (`IsOver`).  So what an append makes of the store depends on the store alone (`IsOver.append`), and it makes no
difference where one log leaves off and another takes over: `restart_invisible`.

Where calls are served under a lock, the store may make up its mind at any time what it will say.  What counts are its
answers to the records that were handed over, one after the other (`answers`).
-/
namespace PolicyGates.Audit

/-- What readers of two logs are told is the same. -/
structure Log.IsLike (l l' : Log) : Prop where
  history : l.history = l'.history
  latest : l.latest = l'.latest
  range (first last : Value) : l.range first last = l'.range first last
  verify (first last : Value) : (l.verify first last).2 = (l'.verify first last).2

/-- The log after several calls, served one after the other. -/
def Log.afterCalls (l : Log) (calls : List Call) : Log :=
  (l.appendAll (calls.map fun c => (c.proposalHash, c.decision))).1

/-! ## One log over a store -/

namespace Store

/-- What the store says to the next record, `true` for a refusal. -/
def answer (s : Store) : Bool := s.refusals.headD false

theorem append_eq (s : Store) (r : Record) : (s.append r).1
    = { s with records := if s.answer then s.records else s.records ++ [r], refusals := s.refusals.tail } := by
  obtain ⟨records, refusals, arrivals⟩ := s
  rcases refusals with _ | ⟨_ | _, rest⟩ <;> rfl

/-- What becomes of a store when a log is opened over it and serves a call. -/
def afterCall (s : Store) (c : Call) : Store :=
  match (Log.opened (some s)).nextRecord c.proposalHash c.decision with
  | .ok r => (s.append r).1
  | .error _ => s

end Store

namespace Log

/-- The log has this store and knows the last record in it. -/
structure IsOver (l : Log) (s : Store) : Prop where
  store : l.store = some s
  latest : l.latest = s.records.getLast?

variable {l l' : Log} {s s' : Store} {c : Call} {r : Record}

theorem isOver_opened (s : Store) : (opened (some s)).IsOver s := ⟨rfl, rfl⟩

theorem IsOver.reopened (h : l.IsOver s) : (opened l.store).IsOver s := by
  rw [h.store]
  exact isOver_opened s

theorem IsOver.lookedUp (h : l.IsOver s) : l.lookedUp.IsOver s := ⟨h.store, h.latest⟩

theorem IsOver.isLike (h : l.IsOver s) (h' : l'.IsOver s') (hrecords : s.records = s'.records) : l.IsLike l' := by
  have hhistory : l.history = l'.history := by
    unfold history
    rw [h.store, h'.store]
    exact hrecords
  refine ⟨hhistory, by rw [h.latest, h'.latest, hrecords], fun first last => ?_, fun first last => ?_⟩
  · rw [range, range, hhistory]
  · rw [(SharedLog.verify_eq l first last).2, (SharedLog.verify_eq l' first last).2, hhistory]

theorem nextRecord_congr (h : l.latest = l'.latest) (proposalHash decision : Value) :
    l.nextRecord proposalHash decision = l'.nextRecord proposalHash decision := by
  unfold nextRecord lastNumber lastHash
  rw [h]

theorem IsOver.nextRecord_eq (h : l.IsOver s) (h' : l'.IsOver s') (hrecords : s.records = s'.records)
    (proposalHash decision : Value) :
    l.nextRecord proposalHash decision = l'.nextRecord proposalHash decision := by
  apply nextRecord_congr
  rw [h.latest, h'.latest, hrecords]

/-- A log knows the last record also of a store that has only made up its mind about the next ones. -/
theorem IsOver.exchange (h : l.IsOver s) (hrecords : s'.records = s.records) :
    IsOver { l with store := some s' } s' := by
  refine ⟨rfl, ?_⟩
  rw [hrecords, ← h.latest]
  unfold Log.latest
  rw [h.store]
  cases l.tip with
  | none => exact congrArg List.getLast? hrecords
  | some t => rfl

/-- **A log knows the last record of its store after it has put one there**, or was refused. -/
theorem IsOver.put (h : l.IsOver s) (r : Record) : (l.put r).IsOver (s.append r).1 := by
  obtain ⟨records, refusals, arrivals⟩ := s
  unfold Log.put
  rw [h.store]
  rcases refusals with _ | ⟨_ | _, rest⟩
  · exact ⟨rfl, List.getLast?_concat.symm⟩
  · exact ⟨rfl, List.getLast?_concat.symm⟩
  · exact h.exchange rfl

/-- **An append makes of the store what it would if the log had just been opened.** -/
theorem IsOver.append (h : l.IsOver s) (c : Call) : (l.append c.proposalHash c.decision).1.IsOver (s.afterCall c) := by
  rw [append_eq_put, h.nextRecord_eq (isOver_opened s) rfl, Store.afterCall]
  cases (opened (some s)).nextRecord c.proposalHash c.decision with
  | error e => exact h.lookedUp
  | ok r => exact h.lookedUp.put r

theorem IsOver.afterCalls (h : l.IsOver s) (calls : List Call) :
    (l.afterCalls calls).IsOver (calls.foldl Store.afterCall s) := by
  induction calls generalizing l s with
  | nil => exact h
  | cons c calls ih => exact ih (h.append c)

/-- **Logs that take over from each other** make of the store what one of them would. -/
theorem IsOver.pieces (h : l.IsOver s) (pieces : List (List Call)) :
    (pieces.foldl (fun l calls => (opened l.store).afterCalls calls) l).IsOver
      (pieces.flatten.foldl Store.afterCall s) := by
  induction pieces generalizing l s with
  | nil => exact h
  | cons calls pieces ih =>
    rw [List.foldl_cons, List.flatten_cons, List.foldl_append]
    exact ih (h.reopened.afterCalls calls)

end Log

/-! ## Calls under a lock -/

/-- What becomes of a store that gives these answers, if a log serves the calls. -/
def Store.served (s : Store) (answers : List Bool) (calls : List Call) : Store :=
  calls.foldl afterCall { s with refusals := answers }

namespace Log.IsOver

variable {l : Log} {s : Store} {c : Call} {r : Record} (h : l.IsOver s)
include h

/-- What a call makes of the store, whatever the store is going to say. -/
theorem afterCall_eq (refusals : List Bool) (c : Call) : ({ s with refusals := refusals } : Store).afterCall c
    = match l.nextRecord c.proposalHash c.decision with
      | .ok r => (({ s with refusals := refusals } : Store).append r).1
      | .error _ => { s with refusals := refusals } := by
  have hover := isOver_opened { s with refusals := refusals }
  rw [Store.afterCall, hover.nextRecord_eq h rfl]

theorem served_of_error {e : Failure} (hr : l.nextRecord c.proposalHash c.decision = .error e) (answers : List Bool)
    (calls : List Call) : s.served answers (c :: calls) = s.served answers calls := by
  rw [Store.served, List.foldl_cons, h.afterCall_eq, hr]
  rfl

theorem served_of_ok (hr : l.nextRecord c.proposalHash c.decision = .ok r) (answers : List Bool) (calls : List Call) :
    s.served (s.answer :: answers) (c :: calls) = (s.append r).1.served answers calls := by
  rw [Store.served, List.foldl_cons, h.afterCall_eq, hr, Store.served]
  dsimp only
  rw [Store.append_eq, Store.append_eq]
  rfl

end Log.IsOver

def Event.call? : Event → Option Call
  | .called c => some c
  | _ => none

def callsOf (events : List Event) : List Call := events.filterMap Event.call?

namespace SharedLog

/-- What the store answers in an event, if it does. -/
def answer (d : SharedLog) : Event → List Bool
  | .answered =>
    match d.serving, d.log.store with
    | some (.storing _), some s => [s.answer]
    | _, _ => []
  | _ => []

/-- What the store answers, one record after the other. -/
def answers (d : SharedLog) : List Event → List Bool
  | [] => []
  | e :: es => d.answer e ++ (d.step e).answers es

/-- Every call has been answered. -/
def IsSettled (d : SharedLog) : Prop := d.waiting = [] ∧ d.serving = none

instance (d : SharedLog) : Decidable d.IsSettled :=
  decidable_of_iff (d.waiting.isEmpty ∧ d.serving.isNone) (by simp [IsSettled])

/-- These calls are still to be answered, in this order. -/
def Owes (d : SharedLog) (calls : List Call) : Prop :=
  match d.serving with
  | none => calls = d.waiting
  | some (.looking c) => calls = c :: d.waiting
  | some (.storing r) => ∃ c, calls = c :: d.waiting ∧ d.log.nextRecord c.proposalHash c.decision = .ok r

variable {d : SharedLog} {s : Store} {calls : List Call}

theorem IsSettled.eq_nil (hd : d.IsSettled) (h : d.Owes calls) : calls = [] := by
  rw [Owes, hd.2] at h
  exact h.trans hd.1

/-- What is owed depends on the log only through its last record. -/
theorem Owes.of_latest (h : d.Owes calls) {l : Log} (hl : l.latest = d.log.latest) :
    Owes { d with log := l } calls := by
  obtain ⟨log, waiting, _ | ⟨c⟩ | ⟨r⟩⟩ := d
  · exact h
  · exact h
  · obtain ⟨c, hcalls, hr⟩ := h
    exact ⟨c, hcalls, (Log.nextRecord_congr hl _ _).trans hr⟩

/-- A call that gets the lock has been served if no record can be made for it, and is otherwise still to be answered. -/
theorem exists_handOver (h : d.log.IsOver s) (c : Call) :
    ∃ calls, (d.handOver c).log.IsOver s ∧ (d.handOver c).Owes calls
      ∧ ∀ answers more, s.served answers (c :: (d.waiting ++ more)) = s.served answers (calls ++ more) := by
  unfold handOver
  cases hr : d.log.nextRecord c.proposalHash c.decision with
  | error e => exact ⟨d.waiting, h.lookedUp, rfl, fun answers more => h.served_of_error hr answers _⟩
  | ok r => exact ⟨c :: d.waiting, h.lookedUp, ⟨c, rfl, hr⟩, fun answers more => rfl⟩

/-- **Every event keeps what the calls will come to**, those that are still to be answered and all that may follow. -/
theorem exists_step (h : d.log.IsOver s) (hcalls : d.Owes calls) (e : Event) : ∃ s' calls', (d.step e).log.IsOver s'
    ∧ (d.step e).Owes calls' ∧ ∀ answers more,
      s.served (d.answer e ++ answers) (calls ++ (e.call?.toList ++ more)) = s'.served answers (calls' ++ more) := by
  have hunchanged : ∃ s' calls', d.log.IsOver s' ∧ d.Owes calls' ∧ ∀ answers more,
      s.served ([] ++ answers) (calls ++ ([] ++ more)) = s'.served answers (calls' ++ more) :=
    ⟨s, calls, h, hcalls, fun _ _ => rfl⟩
  obtain ⟨log, waiting, serving⟩ := d
  cases e with
  | called c =>
    refine ⟨s, calls ++ [c], h, ?_, fun answers more => by rw [List.append_assoc]; rfl⟩
    rcases serving with _ | ⟨c'⟩ | ⟨r⟩
    · exact congrArg (· ++ [c]) hcalls
    · exact congrArg (· ++ [c]) hcalls
    · obtain ⟨c', rfl, hr⟩ := hcalls
      exact ⟨c', rfl, hr⟩
  | taken =>
    rcases serving with _ | serving
    · cases waiting with
      | nil => exact hunchanged
      | cons c rest =>
        obtain rfl : calls = c :: rest := hcalls
        cases htip : log.tip with
        | none =>
          rw [step, htip]
          exact ⟨s, c :: rest, h, rfl, fun _ _ => rfl⟩
        | some t =>
          rw [step, htip]
          obtain ⟨calls, h', hcalls', hserved⟩ := exists_handOver (d := ⟨log, rest, none⟩) h c
          exact ⟨s, calls, h', hcalls', hserved⟩
    · exact hunchanged
  | found =>
    rcases serving with _ | ⟨c⟩ | ⟨r⟩
    · exact hunchanged
    · obtain rfl : calls = c :: waiting := hcalls
      obtain ⟨calls, h', hcalls', hserved⟩ := exists_handOver h c
      exact ⟨s, calls, h', hcalls', hserved⟩
    · exact hunchanged
  | answered =>
    rcases serving with _ | ⟨c⟩ | ⟨r⟩
    · exact hunchanged
    · exact hunchanged
    · obtain ⟨c, rfl, hr⟩ := hcalls
      have hanswer : answer ⟨log, waiting, some (.storing r)⟩ .answered = [s.answer] := by
        rw [answer, h.store]
      refine ⟨(s.append r).1, waiting, h.put r, rfl, fun answers more => ?_⟩
      rw [hanswer]
      exact h.served_of_ok hr answers _
  | decided refusals =>
    have hdecided : Log.IsOver { log with store := log.store.map ({ · with refusals := refusals }) }
        { s with refusals := refusals } := by
      rw [show log.store = some s from h.store]
      exact h.exchange rfl
    exact ⟨_, calls, hdecided, hcalls.of_latest (hdecided.latest.trans h.latest.symm), fun _ _ => rfl⟩
  | verified first last =>
    rw [step, (verify_eq log first last).1]
    exact ⟨s, calls, ⟨h.store, h.latest⟩, hcalls.of_latest rfl, fun _ _ => rfl⟩
  | resolved => exact ⟨s, calls, ⟨h.store, h.latest⟩, hcalls.of_latest rfl, fun _ _ => rfl⟩
  | reopened =>
    rw [step]
    split
    · next hsettled =>
      rw [Bool.and_eq_true, List.isEmpty_iff, Option.isNone_iff_eq_none] at hsettled
      obtain rfl := IsSettled.eq_nil hsettled hcalls
      exact ⟨s, [], h.reopened, rfl, fun _ _ => rfl⟩
    · exact hunchanged

/-- **What a whole run comes to** is what the calls come to one after the other, if the store gives the same answers. -/
theorem exists_run (h : d.log.IsOver s) (hcalls : d.Owes calls) (events : List Event) :
    ∃ s' calls', (d.run events).log.IsOver s'
      ∧ (d.run events).Owes calls' ∧ s.served (d.answers events) (calls ++ callsOf events) = s'.served [] calls' := by
  induction events generalizing d s calls with
  | nil =>
    refine ⟨s, calls, h, hcalls, ?_⟩
    rw [callsOf, List.filterMap_nil, List.append_nil]
    rfl
  | cons e events ih =>
    obtain ⟨s₁, calls₁, h₁, hcalls₁, hstep⟩ := exists_step h hcalls e
    obtain ⟨s', calls', h', hcalls', hrun⟩ := ih h₁ hcalls₁
    refine ⟨s', calls', h', hcalls', ?_⟩
    rw [← hrun, ← hstep, callsOf, callsOf, List.filterMap_cons]
    cases e.call? <;> rfl

/-- **A restart cannot be told from a log that goes on.**  However the calls are divided among logs that take over the
same store from each other, each once the calls to the one before it have been answered, the records are those that
one log stores for all of them, and the last record, every range and every verification are the same.  This is so if
the logs serve their calls one after the other, and it is so if calls come at any time and wait for a lock, whenever
the store refuses. -/
theorem restart_invisible (s : Store) :
    (∀ pieces : List (List Call),
      Log.IsLike (pieces.foldl (fun l calls => (Log.opened l.store).afterCalls calls) (.opened (some s)))
        ((Log.opened (some s)).afterCalls pieces.flatten))
    ∧ ∀ events : List Event, ((opened (some s)).run events).IsSettled →
      Log.IsLike ((opened (some s)).run events).log
        ((Log.opened (some { s with refusals := (opened (some s)).answers events })).afterCalls (callsOf events)) := by
  constructor
  · intro pieces
    exact ((Log.isOver_opened s).pieces pieces).isLike ((Log.isOver_opened s).afterCalls pieces.flatten) rfl
  · intro events hsettled
    obtain ⟨s', calls, hlog, hcalls, hserved⟩ := exists_run (d := opened (some s)) (Log.isOver_opened s) rfl events
    obtain rfl := hsettled.eq_nil hcalls
    refine hlog.isLike ((Log.isOver_opened _).afterCalls (callsOf events)) ?_
    exact (congrArg Store.records hserved).symm

/-- A log takes over from one that has done nothing since it took over itself, and its first record is refused. -/
theorem refused_after_restart :
    let p : Call := ⟨.str "p", .null⟩
    let q : Call := ⟨.str "q", .obj []⟩
    let r : Call := ⟨.str "r", .bool true⟩
    let d := (opened (some ⟨[], [false, true], 0⟩)).run
      ([.called p] ++ serve ++ [.reopened, .reopened, .called q, .called r] ++ serve ++ serve)
    d.IsSettled ∧ d.log.history.length = 2
      ∧ d.log.IsLike ((Log.opened (some ⟨[], [false, true, false], 0⟩)).afterCalls [p, q, r]) := by
  intro p q r d
  let events : List Event := [.called p] ++ serve ++ [.reopened, .reopened, .called q, .called r] ++ serve ++ serve
  have hsettled : ((opened (some ⟨[], [false, true], 0⟩)).run events).IsSettled := by decide +kernel
  have hanswers : (opened (some ⟨[], [false, true], 0⟩)).answers events = [false, true, false] := by decide +kernel
  have hlike := (restart_invisible ⟨[], [false, true], 0⟩).2 events hsettled
  rw [hanswers] at hlike
  exact ⟨hsettled, by decide +kernel, hlike⟩

end SharedLog
end PolicyGates.Audit
