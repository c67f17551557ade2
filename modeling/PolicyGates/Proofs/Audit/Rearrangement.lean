import PolicyGates.Proofs.Audit.Break
import PolicyGates.Proofs.Audit.Growth
import Mathlib.Data.List.TakeWhile
/-!
# Dropped, repeated and rearranged records

A record says by its number which place of the chain it had.  So in a list of records of one chain, in whatever order
and however often, the first that is not where the chain has it does not go on from the records before it, and the
list is found broken there (`rearrangement_exact`).  All that goes unnoticed is a chain that was cut off.
-/
namespace PolicyGates.Audit

open Double (counted limit)

/-- A verification of a whole history looks at the record when it comes to it. -/
def Record.isRead (r : Record) : Bool := (lastSequence.less r.sequenceNumber).toOption != some true

/-- What a verification of a whole history looks at. -/
def readPart (history : List Record) : List Record := history.takeWhile Record.isRead

/-- The records that both lists start with, and no fewer. -/
structure IsCommonStart (start a b : List Record) : Prop where
  left : start <+: a
  right : start <+: b
  longest : ∀ more, more <+: a → more <+: b → more.length ≤ start.length

theorem isRead_eq_false_iff {r : Record} : r.isRead = false ↔ r.IsBeyond lastSequence := by
  unfold Record.isRead Record.IsBeyond
  cases lastSequence.less r.sequenceNumber with
  | error e => simp [Except.toOption]
  | ok b => cases b <;> simp [Except.toOption]

/-! ## Where two lists part -/

/-- Two lists have a common start, and then one of them ends or they go on differently. -/
theorem exists_parting (a b : List Record) :
    ∃ start, start <+: a ∧ start <+: b ∧ (start = a ∨ ∃ r rest, a = start ++ r :: rest ∧ ¬start ++ [r] <+: b) := by
  induction a generalizing b with
  | nil => exact ⟨[], List.nil_prefix, List.nil_prefix, .inl rfl⟩
  | cons x a ih =>
    by_cases hx : b.head? = some x
    · obtain ⟨b, rfl⟩ := List.head?_eq_some_iff.1 hx
      obtain ⟨start, ha, hb, hparts⟩ := ih b
      refine ⟨x :: start, (List.prefix_cons_inj x).2 ha, (List.prefix_cons_inj x).2 hb, hparts.imp (congrArg _) ?_⟩
      rintro ⟨r, rest, rfl, hr⟩
      exact ⟨r, rest, rfl, fun hc => hr ((List.prefix_cons_inj x).1 hc)⟩
    · refine ⟨[], List.nil_prefix, List.nil_prefix, .inr ⟨x, a, rfl, fun hc => hx ?_⟩⟩
      obtain ⟨b, rfl⟩ := hc
      rfl

theorem isCommonStart_of_parting {start rest a b : List Record} {r : Record} (ha : a = start ++ r :: rest)
    (hb : start <+: b) (hr : ¬start ++ [r] <+: b) :
    IsCommonStart start a b := by
  refine ⟨⟨r :: rest, ha.symm⟩, hb, fun more hmore hmore' => ?_⟩
  by_contra hlength
  have hlonger : start ++ [r] <+: more := List.prefix_of_prefix_length_le ⟨rest, by simp [ha]⟩ hmore (by simp; omega)
  exact hr (hlonger.trans hmore')

/-! ## Records of a chain -/

section Chain

variable {chain : List Record} (h : IsChain chain)
include h

theorem IsChain.of_prefix {records : List Record} (hp : records <+: chain) : IsChain records := by
  obtain ⟨rest, rfl⟩ := hp
  cases rest with
  | nil => rwa [List.append_nil] at h
  | cons r rest => exact (ChainFrom.split h).1

theorem IsChain.number_of_getElem? {r : Record} {i : Nat} (hr : chain[i]? = some r) :
    r.sequenceNumber = .num (counted (i + 1)) := by
  have hnumber := (h i r hr).sequenceNumber
  rwa [Nat.zero_add] at hnumber

theorem IsChain.isRead_iff {r : Record} {i : Nat} (hr : chain[i]? = some r) : r.isRead = true ↔ i + 1 < limit := by
  have hnumber := h.number_of_getElem? hr
  constructor
  · intro hread
    by_contra hi
    have hbeyond := isRead_eq_false_iff.2 (isBeyond_of_le hnumber (Nat.not_lt.1 hi))
    rw [hread] at hbeyond
    cases hbeyond
  · intro hi
    by_contra hread
    have hbeyond := isRead_eq_false_iff.1 (Bool.not_eq_true _ ▸ hread)
    rw [Record.IsBeyond, ((isCounted_iff hnumber).2 hi).1] at hbeyond
    cases hbeyond

theorem IsChain.length_lt_limit {start : List Record} (hp : start <+: chain) (hread : ∀ r ∈ start, r.isRead = true) :
    start.length < limit := by
  rcases Nat.eq_zero_or_pos start.length with hzero | hpos
  · rw [hzero]
    decide
  · have hlast : start.length - 1 < start.length := by omega
    have hget : chain[start.length - 1]? = some start[start.length - 1] := by
      rw [hp.getElem hlast]
      exact List.getElem?_eq_getElem _
    have := (h.isRead_iff hget).1 (hread _ (List.getElem_mem hlast))
    omega

/-- **A record of the chain goes on from a start of it only in its place.** -/
theorem IsChain.prefix_of_continues {start : List Record} {r : Record} (hp : start <+: chain)
    (hn : start.length < limit) (hr : r ∈ chain) (hread : r.isRead = true) {prev : Value}
    (hcont : r.Continues (start.length + 1) prev) :
    start ++ [r] <+: chain := by
  obtain ⟨i, hi⟩ := List.mem_iff_getElem?.1 hr
  have hlimit := (h.isRead_iff hi).1 hread
  have hnumber := hcont.sequenceNumber.symm.trans (h.number_of_getElem? hi)
  rw [Value.num.injEq, Double.counted_inj hn hlimit.le, Nat.succ_inj] at hnumber
  subst hnumber
  rw [List.prefix_iff_eq_take, List.length_append, List.length_singleton, List.take_add_one, hi,
    ← List.prefix_iff_eq_take.1 hp]
  rfl

/-- **The first record that is not where the chain has it breaks the list.** -/
theorem IsChain.verify_of_parting {start rest records : List Record} {r : Record} (hp : start <+: chain)
    (hrecords : ∀ x ∈ records, x ∈ chain) (hsplit : readPart records = start ++ r :: rest)
    (hparts : ¬start ++ [r] <+: chain) :
    ∃ reason, verify firstSequence lastSequence records
      = .ok (.broken (.ofCount (start.length + 1)) reason start.length) := by
  have hread : ∀ x ∈ start ++ r :: rest, x.isRead = true := fun x hx => List.mem_takeWhile_imp (hsplit ▸ hx)
  have hr : r.isRead = true := hread r (by simp)
  have hn := h.length_lt_limit hp fun x hx => hread x (List.mem_append_left _ hx)
  have hfirst : r ∈ readPart records := by simp [hsplit]
  have hmem : r ∈ chain := hrecords r (List.takeWhile_subset _ hfirst)
  obtain ⟨i, hi⟩ := List.mem_iff_getElem?.1 hmem
  have hnumber := h.number_of_getElem? hi
  have hbreak : ¬r.Continues (start.length + 1) (lastHashOf (.str genesisHash) start) := fun hcont =>
    hparts (h.prefix_of_continues hp hn hmem hr hcont)
  have hwhole : records = start ++ r :: (rest ++ records.dropWhile Record.isRead) := by
    calc records = readPart records ++ records.dropWhile Record.isRead := List.takeWhile_append_dropWhile.symm
      _ = _ := by rw [hsplit, List.append_assoc, List.cons_append]
  rw [hwhole]
  exact verify_of_break (h.of_prefix hp) hn hnumber ((isCounted_iff hnumber).2 ((h.isRead_iff hi).1 hr)) hbreak _

end Chain

theorem verify_of_read {start history : List Record} (h : IsChain start) (hn : start.length < limit)
    (hstart : readPart history = start) : verify firstSequence lastSequence history = .ok (.intact start.length) := by
  have hsplit : history = start
    ++ history.dropWhile Record.isRead := by rw [← hstart, readPart, List.takeWhile_append_dropWhile]
  have hunread := List.head?_dropWhile_not Record.isRead history
  cases hdrop : history.dropWhile Record.isRead with
  | nil =>
    rw [hdrop, List.append_nil] at hsplit
    rw [hsplit, isIntact_iff.1 (isIntact_of_isChain h), Nat.min_eq_left (by omega)]
  | cons r rest =>
    rw [hdrop] at hsplit hunread
    rw [hsplit]
    exact verify_of_isBeyond h hn (isRead_eq_false_iff.1 hunread) rest

namespace SharedLog

/-- **What becomes of a chain whose records were dropped, repeated or rearranged.**  Such a list is found valid if and
only if it is a start of the chain, and is otherwise found broken at the number after those that they have in common.
(The list ends here with the first record whose number cannot be told apart from others, and none of fewer than `2^53`
records is one.) -/
theorem rearrangement_exact {d : SharedLog} (hd : d.IsReachable) {records : List Record}
    (hrecords : ∀ r ∈ records, r ∈ d.log.history) :
    (d.log.history.length < limit → readPart records = records)
    ∧ ∃ start f, IsCommonStart start (readPart records) d.log.history
      ∧ verify firstSequence lastSequence records = .ok f
      ∧ (f.valid = true ↔ readPart records <+: d.log.history)
      ∧ (f.valid = false → f.firstBrokenLink = some (.ofCount (start.length + 1)))
      ∧ f.checked = start.length := by
  have hchain := hd.isSound.log.chain
  refine ⟨fun hlength => List.takeWhile_eq_self_iff.2 fun r hr => ?_, ?_⟩
  · obtain ⟨i, hi⟩ := List.mem_iff_getElem?.1 (hrecords r hr)
    have := (List.getElem?_eq_some_iff.1 hi).1
    exact (hchain.isRead_iff hi).2 (by omega)
  obtain ⟨start, hleft, hright, hends | ⟨r, rest, hsplit, hparts⟩⟩ := exists_parting (readPart records) d.log.history
  · have hn := hchain.length_lt_limit hright fun r hr => List.mem_takeWhile_imp (hends ▸ hr)
    have hcommon : IsCommonStart start (readPart records) d.log.history :=
      ⟨hleft, hright, fun more hmore _ => hends ▸ hmore.length_le⟩
    have hverify := verify_of_read (hchain.of_prefix hright) hn hends.symm
    refine ⟨start, .intact start.length, hcommon, hverify, ?_, fun hc => (by cases hc), rfl⟩
    exact iff_of_true rfl (hends ▸ hright)
  · obtain ⟨reason, hverify⟩ := hchain.verify_of_parting hright hrecords hsplit hparts
    refine ⟨start, _, isCommonStart_of_parting hsplit hright hparts, hverify, ?_, fun _ => rfl, rfl⟩
    refine iff_of_false (by simp [Finding.broken]) fun hprefix => hparts (List.IsPrefix.trans ?_ hprefix)
    rw [hsplit]
    exact ⟨rest, by simp⟩

/-- Of two records the first one stands twice. -/
theorem repeated_record_found :
    let d := (opened none).run ([.called ⟨.str "p", .null⟩, .called ⟨.str "q", .null⟩] ++ serve ++ serve)
    ∃ r s f, d.log.history = [r, s] ∧ verify firstSequence lastSequence [r, r, s] = .ok f ∧ f.valid = false
      ∧ f.firstBrokenLink = some (.ofCount 2) ∧ f.checked = 1 := by
  intro d
  have hd : d.IsReachable := IsReachable.run (.fresh fun s hs => by cases hs) _
  have hchain := hd.isSound.log.chain
  obtain ⟨r, s, hhistory⟩ : ∃ r s, d.log.history = [r, s] := ⟨_, _, rfl⟩
  have hne : r ≠ s := by
    rintro rfl
    have hfirst : d.log.history[0]? = some r := by rw [hhistory]; rfl
    have hsecond : d.log.history[1]? = some r := by rw [hhistory]; rfl
    have hnumbers := (hchain.number_of_getElem? hfirst).symm.trans (hchain.number_of_getElem? hsecond)
    rw [Value.num.injEq, Double.counted_inj (by decide) (by decide)] at hnumbers
    cases hnumbers
  have hmem : ∀ x ∈ [r, r, s], x ∈ d.log.history := by simp [hhistory]
  obtain ⟨hread, start, f, hstart, hf, hvalid, hlink, hchecked⟩ := rearrangement_exact hd hmem
  rw [hhistory] at hread hstart hvalid
  have htwo : 2 < limit := by decide
  rw [hread htwo] at hstart hvalid
  have hbroken : f.valid = false := by simpa [hne] using hvalid
  have hlength : start.length = 1 := by
    have hone : [r].length ≤ start.length := hstart.longest [r] (by simp) (by simp)
    by_contra hc
    have htwice : [r, r] <+: start := List.prefix_of_prefix_length_le (by simp) hstart.left (by simp at hone ⊢; omega)
    simpa [hne] using htwice.trans hstart.right
  rw [hlength] at hlink hchecked
  exact ⟨r, s, f, hhistory, hf, hbroken, hlink hbroken, hchecked⟩

end SharedLog
end PolicyGates.Audit
