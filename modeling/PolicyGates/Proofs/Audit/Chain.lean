import PolicyGates.Audit.Verification
import PolicyGates.Proofs.Double.Whole
/-!
# Well-formed chains

A history is a chain if its records count up from one, each links back to the one before it and each is in order in
itself (`IsChain`).  Here is what a record has to be like to be walked over without a finding, and how a chain grows
at either end.
-/
namespace PolicyGates.Audit

open Double (counted limit)

/-- A record that comes at a place of the count, links back to a hash and is in order in itself. -/
structure Record.Continues (r : Record) (number : Nat) (prev : Value) : Prop where
  sequenceNumber : r.sequenceNumber = .num (counted number)
  prevHash : r.prevHash.value = prev
  recordHash : r.recordHash.value = .str r.properHash
  decisionSummary : r.decisionSummary = .str r.decision.canonical

/-- The hash that the record at an index has to link back to, where the first record has to link back to `prev`. -/
def hashBefore (prev : Value) (history : List Record) : Nat → Value
  | 0 => prev
  | i + 1 => (history[i]?.map (fun r => r.recordHash.value)).getD .absent

/-- The records go on from a number and a hash. -/
def ChainFrom (number : Nat) (prev : Value) (history : List Record) : Prop :=
  ∀ (i : Nat) (r : Record), history[i]? = some r → r.Continues (number + i + 1) (hashBefore prev history i)

/-- The whole history is one chain, from the first record on. -/
def IsChain (history : List Record) : Prop := ChainFrom 0 (.str genesisHash) history

theorem chainFrom_nil (number : Nat) (prev : Value) : ChainFrom number prev [] := by
  intro i r h
  cases h

theorem hashBefore_cons (prev : Value) (r : Record) (rest : List Record) (i : Nat) :
    hashBefore prev (r :: rest) (i + 1) = hashBefore r.recordHash.value rest i := by
  cases i <;> rfl

theorem chainFrom_cons {number : Nat} {prev : Value} {r : Record} {rest : List Record} :
    ChainFrom number prev (r :: rest)
      ↔ r.Continues (number + 1) prev ∧ ChainFrom (number + 1) r.recordHash.value rest := by
  constructor
  · intro h
    refine ⟨h 0 r rfl, fun i x hx => ?_⟩
    have hi := h (i + 1) x hx
    rw [hashBefore_cons, show number + (i + 1) = number + 1 + i by omega] at hi
    exact hi
  · rintro ⟨h0, h⟩ i x hx
    cases i with
    | zero =>
      obtain rfl := Option.some.inj hx
      exact h0
    | succ i =>
      rw [hashBefore_cons, show number + (i + 1) = number + 1 + i by omega]
      exact h i x hx

/-- The hash of the last record, or `prev` where there is none. -/
def lastHashOf (prev : Value) (history : List Record) : Value := hashBefore prev history history.length

theorem hashBefore_append (prev : Value) (history more : List Record) {i : Nat} (h : i ≤ history.length) :
    hashBefore prev (history ++ more) i = hashBefore prev history i := by
  cases i with
  | zero => rfl
  | succ i =>
    show ((history ++ more)[i]?.map _).getD _ = (history[i]?.map _).getD _
    rw [List.getElem?_append_left h]

theorem ChainFrom.of_append {number : Nat} {prev : Value} {history more : List Record}
    (h : ChainFrom number prev (history ++ more)) :
    ChainFrom number prev history := by
  intro i x hx
  obtain ⟨hi, -⟩ := List.getElem?_eq_some_iff.1 hx
  have := h i x (by rw [List.getElem?_append_left hi, hx])
  rwa [hashBefore_append _ _ _ (Nat.le_of_lt hi)] at this

/-- **A chain at its last record.** -/
theorem chainFrom_concat {number : Nat} {prev : Value} {history : List Record} {r : Record} :
    ChainFrom number prev (history ++ [r])
      ↔ ChainFrom number prev history ∧ r.Continues (number + history.length + 1) (lastHashOf prev history) := by
  constructor
  · intro h
    refine ⟨h.of_append, ?_⟩
    have := h history.length r (by simp)
    rwa [hashBefore_append _ _ _ (Nat.le_refl _)] at this
  · rintro ⟨h, hr⟩ i x hx
    rcases Nat.lt_or_ge i history.length with hi | hi
    · rw [List.getElem?_append_left hi] at hx
      rw [hashBefore_append _ _ _ (Nat.le_of_lt hi)]
      exact h i x hx
    · obtain rfl : i = history.length := by
        obtain ⟨hlt, -⟩ := List.getElem?_eq_some_iff.1 hx
        rw [List.length_append] at hlt
        exact Nat.le_antisymm (Nat.le_of_lt_succ hlt) hi
      rw [List.getElem?_concat_length] at hx
      obtain rfl := Option.some.inj hx
      rw [hashBefore_append _ _ _ (Nat.le_refl _)]
      exact hr

/-- **A chain up to one of its records**, and that record in its place. -/
theorem ChainFrom.split {number : Nat} {prev : Value} {history rest : List Record} {r : Record}
    (h : ChainFrom number prev (history ++ r :: rest)) :
    ChainFrom number prev history ∧ r.Continues (number + history.length + 1) (lastHashOf prev history) := by
  rw [List.append_cons] at h
  exact chainFrom_concat.1 h.of_append

theorem lastHashOf_concat (prev : Value) (history : List Record) (r : Record) :
    lastHashOf prev (history ++ [r]) = r.recordHash.value := by
  rw [lastHashOf, List.length_append, List.length_singleton, hashBefore, List.getElem?_concat_length]
  rfl

theorem IsChain.eq_nil_or_concat {history : List Record} (h : IsChain history) :
    history = [] ∨ ∃ records r, history = records ++ [r] ∧ IsChain records
      ∧ r.Continues (records.length + 1) (lastHashOf (.str genesisHash) records) := by
  rcases List.eq_nil_or_concat history with hnil | ⟨records, r, rfl⟩
  · exact .inl hnil
  · rw [List.concat_eq_append] at h ⊢
    obtain ⟨hrecords, hr⟩ := chainFrom_concat.1 h
    rw [Nat.zero_add] at hr
    exact .inr ⟨records, r, rfl, hrecords, hr⟩

theorem IsChain.exists_lastHash {history : List Record} (h : IsChain history) :
    ∃ t, lastHashOf (.str genesisHash) history = .str t := by
  rcases h.eq_nil_or_concat with rfl | ⟨records, r, rfl, -, hr⟩
  · exact ⟨_, rfl⟩
  · exact ⟨_, by rw [lastHashOf_concat, hr.recordHash]⟩

theorem IsChain.numbers {history : List Record} (h : IsChain history) (hlen : history.length ≤ limit) :
    history.map Record.sequenceNumber = (List.range' 1 history.length).map Value.ofCount := by
  apply List.ext_getElem
  · rw [List.length_map, List.length_map, List.length_range']
  · intro i hi hi'
    rw [List.length_map] at hi
    have hr := (h i history[i] (List.getElem?_eq_getElem hi)).sequenceNumber
    rw [List.getElem_map, List.getElem_map, List.getElem_range', hr, Double.counted_of_le (by omega), Value.ofCount]
    congr 2
    omega

end PolicyGates.Audit
