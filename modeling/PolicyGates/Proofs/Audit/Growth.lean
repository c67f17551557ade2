import PolicyGates.Audit.Lock
import PolicyGates.Proofs.Audit.Walk
/-!
# How a log grows

A log whose history is a chain and that remembers the last record of it, or nothing, goes on with a record that
continues the chain (`exists_nextRecord`).  So every event keeps a shared log sound (`IsSound.step`), in whatever order
the calls come and whatever the store refuses, and every log that can be reached has one chain for its history
(`reachable_is_chain`).
-/
namespace PolicyGates.Audit

open Double (counted limit)

/-! ## Logs in order -/

/-- The history is a chain, and what the log remembers of it is its last record. -/
structure Log.IsSound (l : Log) : Prop where
  chain : IsChain l.history
  tip : ∀ t, l.tip = some t → t = l.history.getLast?
  /-- A log that has looked at nothing has not kept anything either. -/
  held : l.tip = none → l.store = none → l.held = []

namespace Log

variable {l : Log}

theorem IsSound.latest_eq (h : l.IsSound) : l.latest = l.history.getLast? := by
  cases ht : l.tip with
  | some t =>
    rw [latest, ht]
    exact h.tip t ht
  | none =>
    unfold latest history
    rw [ht]
    cases hs : l.store with
    | some s => rfl
    | none =>
      rw [h.held ht hs]
      rfl

theorem IsSound.lookedUp (h : l.IsSound) : l.lookedUp.IsSound := by
  refine ⟨h.chain, fun t ht => ?_, fun ht => by cases ht⟩
  obtain rfl := Option.some.inj ht
  exact h.latest_eq

theorem IsSound.lastNumber_eq (h : l.IsSound) : l.lastNumber = .num (counted l.history.length) := by
  unfold lastNumber
  rw [h.latest_eq]
  rcases h.chain.eq_nil_or_concat with hnil | ⟨records, r, hlast, -, hr⟩
  · rw [hnil]
    exact congrArg Value.num Double.counted_zero.symm
  · rw [hlast, List.getLast?_concat, List.length_append, List.length_singleton]
    exact congrArg (Value.orElse · _) hr.sequenceNumber

theorem IsSound.lastHash_eq (h : l.IsSound) : l.lastHash.value = lastHashOf (.str genesisHash) l.history := by
  unfold lastHash
  rw [h.latest_eq]
  rcases h.chain.eq_nil_or_concat with hnil | ⟨records, r, hlast, -, hr⟩
  · rw [hnil]
    rfl
  · rw [hlast, List.getLast?_concat, lastHashOf_concat]
    show (if r.recordHash.value.isNothing = true then _ else r.recordHash : Hash).value = _
    rw [hr.recordHash, if_neg (by simp [Value.isNothing])]
    exact hr.recordHash

theorem make_continues {n : Nat} {prev : Hash} (proposalHash decision : Value) :
    (Record.make (.num (counted n)) prev proposalHash decision).Continues n prev.value := ⟨rfl, rfl, rfl, rfl⟩

/-- **The next record goes on where the history ends**, whatever it is the record of. -/
theorem IsSound.exists_nextRecord (h : l.IsSound) (proposalHash decision : Value) :
    ∃ r, l.nextRecord proposalHash decision = .ok r
      ∧ r.Continues (l.history.length + 1) (lastHashOf (.str genesisHash) l.history) := by
  refine ⟨Record.make (.num (counted (l.history.length + 1))) l.lastHash proposalHash decision, ?_, ?_⟩
  · unfold nextRecord
    rw [h.lastNumber_eq, Value.plus_num, Double.counted_succ]
    rfl
  · rw [← h.lastHash_eq]
    exact make_continues proposalHash decision

/-- The store will refuse the next record. -/
def Refuses (l : Log) : Prop := ∃ s, l.store = some s ∧ s.refusals.head? = some true

theorem put_of_refuses (h : l.Refuses) (r : Record) :
    (l.put r).history = l.history ∧ (l.put r).tip = l.tip ∧ (l.put r).held = l.held
      ∧ ((l.put r).store = none → l.store = none) := by
  obtain ⟨⟨records, refusals, arrivals⟩, hs, hr⟩ := h
  obtain ⟨more, rfl⟩ := List.head?_eq_some_iff.1 hr
  unfold put history
  rw [hs]
  exact ⟨rfl, rfl, rfl, fun h => (by cases h)⟩

theorem put_of_not_refuses (h : ¬l.Refuses) (r : Record) :
    (l.put r).history = l.history ++ [r] ∧ (l.put r).tip = some (some r) := by
  unfold put history
  cases hs : l.store with
  | none => exact ⟨rfl, rfl⟩
  | some s =>
    obtain ⟨records, refusals, arrivals⟩ := s
    cases refusals with
    | nil => exact ⟨rfl, rfl⟩
    | cons b rest =>
      cases b with
      | false => exact ⟨rfl, rfl⟩
      | true => exact absurd ⟨_, hs, rfl⟩ h

/-- **A log stays in order when the next record is put.** -/
theorem IsSound.put (h : l.IsSound) {r : Record}
    (hr : r.Continues (l.history.length + 1) (lastHashOf (.str genesisHash) l.history)) :
    (l.put r).IsSound := by
  by_cases hrefuses : l.Refuses
  · obtain ⟨hhistory, htip, hheld, hstore⟩ := put_of_refuses hrefuses r
    refine ⟨by rw [hhistory]; exact h.chain, fun t ht => ?_, fun ht hs => ?_⟩
    · rw [hhistory]
      exact h.tip t (htip ▸ ht)
    · rw [hheld]
      exact h.held (htip ▸ ht) (hstore hs)
  · obtain ⟨hhistory, htip⟩ := put_of_not_refuses hrefuses r
    refine ⟨?_, fun t ht => ?_, fun ht => (by rw [htip] at ht; cases ht)⟩
    · rw [hhistory]
      refine chainFrom_concat.2 ⟨h.chain, ?_⟩
      rw [Nat.zero_add]
      exact hr
    · rw [htip] at ht
      obtain rfl := Option.some.inj ht
      rw [hhistory, List.getLast?_concat]

/-- The store, if there is one, takes everything. -/
def Accepts (l : Log) : Prop := ∀ s, l.store = some s → true ∉ s.refusals

theorem Accepts.not_refuses (h : l.Accepts) : ¬l.Refuses := by
  rintro ⟨s, hs, hr⟩
  exact h s hs (List.mem_of_mem_head? hr)

theorem append_of_notMem_refusals {s : Store} (h : true ∉ s.refusals) (r : Record) :
    ∃ refusals, s.append r = ({ s with records := s.records ++ [r], refusals := refusals }, true)
      ∧ true ∉ refusals := by
  obtain ⟨records, refusals, arrivals⟩ := s
  cases refusals with
  | nil => exact ⟨[], rfl, h⟩
  | cons b rest =>
    cases b with
    | false => exact ⟨rest, rfl, fun hc => h (List.mem_cons_of_mem _ hc)⟩
    | true => exact absurd List.mem_cons_self h

theorem Accepts.put (h : l.Accepts) (r : Record) : (l.put r).Accepts := by
  intro s' hs'
  unfold Log.put at hs'
  cases hs : l.store with
  | none =>
    rw [hs] at hs'
    cases hs'
  | some s =>
    obtain ⟨refusals, happend, hr⟩ := append_of_notMem_refusals (h s hs) r
    rw [hs] at hs'
    dsimp only at hs'
    rw [happend] at hs'
    cases hs'
    exact hr

theorem exists_make {proposalHash decision : Value} {r : Record} (h : l.nextRecord proposalHash decision = .ok r) :
    ∃ number, r = Record.make number l.lastHash proposalHash decision := by
  unfold nextRecord at h
  cases hn : l.lastNumber.plus (.num 1.0) with
  | error f =>
    rw [hn] at h
    cases h
  | ok n =>
    rw [hn] at h
    cases h
    exact ⟨n, rfl⟩

theorem eq_of_nextRecord {proposalHash decision : Value} {r : Record} (h : l.nextRecord proposalHash decision = .ok r) :
    r.proposalHash = proposalHash ∧ r.decision = decision := by
  obtain ⟨number, rfl⟩ := exists_make h
  exact ⟨rfl, rfl⟩

/-- **The history gains the record that the log takes**, of what it was handed, and nothing from a refusal. -/
theorem append_gains {l' : Log} {proposalHash decision : Value} {record : Except Failure Record}
    (h : l.append proposalHash decision = (l', record)) : l'.history = l.history ++ record.toOption.toList
      ∧ ∀ r, record = .ok r → r.proposalHash = proposalHash ∧ r.decision = decision := by
  cases record with
  | error f => exact ⟨(append_eq_error h).2.1.trans (List.append_nil _).symm, fun r hr => by cases hr⟩
  | ok x =>
    obtain ⟨hnext, hhistory, -⟩ := append_eq_ok h
    refine ⟨hhistory, fun r hr => ?_⟩
    obtain rfl := Except.ok.inj hr
    exact eq_of_nextRecord hnext

/-- **A log in order whose store takes everything gains the record of what is appended**, and stays so. -/
theorem IsSound.append (h : l.IsSound) (ha : l.Accepts) (proposalHash decision : Value) :
    ∃ l' r, l.append proposalHash decision = (l', .ok r) ∧ l'.IsSound ∧ l'.Accepts ∧ l'.history = l.history ++ [r]
      ∧ r.proposalHash = proposalHash ∧ r.decision = decision := by
  obtain ⟨r, hr, hcont⟩ := h.exists_nextRecord proposalHash decision
  have hput : (l.append proposalHash decision).1 = l.lookedUp.put r := by rw [append_eq_put, hr]
  have hanswer : (l.append proposalHash decision).2 = .ok r := by
    unfold Log.append
    rw [hr]
    dsimp only
    split
    · next s hs =>
      obtain ⟨refusals, happend, -⟩ := append_of_notMem_refusals (ha s hs) r
      rw [happend]
    · rfl
  have haccepts : l.lookedUp.Accepts := ha
  obtain ⟨hhistory, -⟩ := put_of_not_refuses haccepts.not_refuses r
  exact ⟨_, r, Prod.ext hput hanswer, h.lookedUp.put hcont, haccepts.put r, hhistory, eq_of_nextRecord hr⟩

theorem isSound_opened {store : Option Store} (h : ∀ s, store = some s → IsChain s.records) :
    (opened store).IsSound := by
  refine ⟨?_, fun t ht => (by cases ht), fun _ _ => rfl⟩
  cases store with
  | none => exact chainFrom_nil _ _
  | some s => exact h s rfl

/-! ### A new log, over no store or an empty one -/

theorem isSound_unstored : (opened none).IsSound := isSound_opened fun s hs => by cases hs

theorem accepts_unstored : (opened none).Accepts := fun s hs => by cases hs

theorem isSound_empty : (opened (some .empty)).IsSound := isSound_opened fun s hs => by
  cases hs
  exact chainFrom_nil _ _

theorem accepts_empty : (opened (some .empty)).Accepts := fun s hs => by
  cases hs
  exact List.not_mem_nil

end Log

/-! ## Shared logs -/

namespace SharedLog

/-- The log is in order, and a record that has been handed over is the next one. -/
structure IsSound (d : SharedLog) : Prop where
  log : d.log.IsSound
  storing : ∀ r, d.serving = some (.storing r) →
    r.Continues (d.log.history.length + 1) (lastHashOf (.str genesisHash) d.log.history)

variable {d : SharedLog}

/-- Anything that leaves the history and the record handed over as they are keeps the record the next one. -/
theorem IsSound.of_log (h : d.IsSound) {l : Log} (hl : l.IsSound) (hh : l.history = d.log.history) :
    IsSound { d with log := l } := by
  refine ⟨hl, fun r hr => ?_⟩
  show r.Continues (l.history.length + 1) (lastHashOf _ l.history)
  rw [hh]
  exact h.storing r hr

theorem isSound_handOver (d : SharedLog) (h : d.log.IsSound) (c : Call) : (d.handOver c).IsSound := by
  refine ⟨h.lookedUp, fun r hr => ?_⟩
  obtain ⟨x, hx, hcont⟩ := h.exists_nextRecord c.proposalHash c.decision
  unfold SharedLog.handOver at hr
  rw [hx] at hr
  cases hr
  exact hcont

theorem history_decided (d : SharedLog) (refusals : List Bool) :
    (d.step (.decided refusals)).log.history = d.log.history := by
  show Log.history { d.log with store := d.log.store.map _ } = _
  unfold Log.history
  cases d.log.store <;> rfl

theorem verify_eq (l : Log) (first last : Value) :
    (l.verify first last).1 = { l with breach := (l.verify first last).1.breach }
      ∧ (l.verify first last).2 = Audit.verify first last l.history := by
  unfold Log.verify
  cases Audit.verify first last l.history with
  | error e => exact ⟨rfl, rfl⟩
  | ok f =>
    obtain ⟨valid, link, reason, checked⟩ := f
    cases valid <;> exact ⟨rfl, rfl⟩

/-- **Every event keeps a shared log in order.** -/
theorem IsSound.step (h : d.IsSound) (e : Event) : (d.step e).IsSound := by
  cases e with
  | called c => exact ⟨h.log, h.storing⟩
  | taken =>
    rw [SharedLog.step]
    split
    · next c rest _ _ =>
      split
      · exact ⟨h.log, fun r hr => by cases hr⟩
      · exact isSound_handOver ⟨d.log, rest, d.serving⟩ h.log c
    · exact h
  | found =>
    rw [SharedLog.step]
    split
    · exact isSound_handOver _ h.log _
    · exact h
  | answered =>
    rw [SharedLog.step]
    split
    · next r hr => exact ⟨h.log.put (h.storing r hr), fun r hr => by cases hr⟩
    · exact h
  | decided refusals =>
    have hh := history_decided d refusals
    refine h.of_log ⟨?_, fun t ht => ?_, fun ht hs => h.log.held ht (Option.map_eq_none_iff.1 hs)⟩ hh
    · exact hh ▸ h.log.chain
    · exact (h.log.tip t ht).trans (congrArg _ hh.symm)
  | verified first last =>
    rw [SharedLog.step, (verify_eq d.log first last).1]
    exact h.of_log ⟨h.log.chain, h.log.tip, h.log.held⟩ rfl
  | resolved => exact h.of_log ⟨h.log.chain, h.log.tip, h.log.held⟩ rfl
  | reopened =>
    rw [SharedLog.step]
    split
    · refine ⟨Log.isSound_opened fun s hs => ?_, fun r hr => by cases hr⟩
      have := h.log.chain
      rwa [Log.history, hs] at this
    · exact h

/-- The logs that come about: opened over nothing, or over what such a log has built, and then whatever happens. -/
inductive IsReachable : SharedLog → Prop where
  | fresh {store : Option Store} (h : ∀ s, store = some s → s.records = []) : IsReachable (.opened store)
  | reopened {d : SharedLog} (hd : IsReachable d) (s : Store) (h : s.records = d.log.history) :
    IsReachable (.opened (some s))
  | step {d : SharedLog} (hd : IsReachable d) (e : Event) : IsReachable (d.step e)

theorem IsReachable.isSound (h : d.IsReachable) : d.IsSound := by
  induction h with
  | fresh h =>
    refine ⟨Log.isSound_opened fun s hs => ?_, fun r hr => by cases hr⟩
    rw [h s hs]
    exact chainFrom_nil _ _
  | reopened hd s h ih =>
    refine ⟨Log.isSound_opened fun s' hs => ?_, fun r hr => by cases hr⟩
    obtain rfl := Option.some.inj hs
    rw [h]
    exact ih.log.chain
  | step hd e ih => exact ih.step e

theorem IsReachable.run (h : d.IsReachable) (es : List Event) : (d.run es).IsReachable := by
  induction es generalizing d with
  | nil => exact h
  | cons e es ih => exact ih (h.step e)

/-- An append by itself, with nobody else about, is one of the things that can happen. -/
theorem IsReachable.append {l : Log} (h : IsReachable ⟨l, [], none⟩) (proposalHash decision : Value) :
    IsReachable ⟨(l.append proposalHash decision).1, [], none⟩ := by
  have hserved := (h.step (.called ⟨proposalHash, decision⟩)).run serve
  rwa [SharedLog.step, List.nil_append, run_serve] at hserved

end SharedLog

end PolicyGates.Audit
