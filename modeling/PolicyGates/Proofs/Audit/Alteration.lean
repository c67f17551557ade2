import PolicyGates.Proofs.Audit.Break
import PolicyGates.Proofs.Audit.Commitment
import PolicyGates.Proofs.Audit.Growth
import Mathlib.Order.Bounds.Basic
/-!
# Altered records

What a record says can be altered while its number and its hash stay as they were.  Its hash then belongs to another
text, or it links to another record than the one before it, or its decision to another summary: it no longer goes on
from its place (`not_continues_of_isAltered`).  So of any number of altered records a verification finds the first
(`alteration_found`).
-/
namespace PolicyGates

/-- Anything else in the place of a text; in the place of another value, something with another canonical text. -/
def Value.Differs (v : Value) : Value → Prop
  | .str t => v ≠ .str t
  | w => v.canonical ≠ w.canonical

theorem Value.Differs.canonical_ne {v w : Value} (h : v.Differs w) : v.canonical ≠ w.canonical := by
  cases w with
  | str t => exact fun hc => h (eq_of_canonical_str hc)
  | _ => exact h

namespace Audit

open Double (limit)

/-- The second record has the number and the hash of the first, and says something else. -/
structure Record.IsAltered (r r' : Record) : Prop where
  sequenceNumber : r'.sequenceNumber = r.sequenceNumber
  recordHash : r'.recordHash.value = r.recordHash.value
  altered : r'.proposalHash.Differs r.proposalHash ∨ r'.prevHash.value ≠ r.prevHash.value
    ∨ r'.decisionSummary ≠ r.decisionSummary ∨ r'.decision.canonical ≠ r.decision.canonical

/-- The second history is the first with the records of these numbers altered and no others. -/
structure IsAlteration (numbers : Set Nat) (history altered : List Record) : Prop where
  length : altered.length = history.length
  numbered : ∀ n ∈ numbers, 1 ≤ n ∧ n ≤ history.length
  isAltered : ∀ i r r', history[i]? = some r → altered[i]? = some r' → i + 1 ∈ numbers → r.IsAltered r'
  kept : ∀ i r r', history[i]? = some r → altered[i]? = some r' → i + 1 ∉ numbers → r' = r

/-- **An altered record does not go on from its place**, unless two of the texts hashed have one hash. -/
theorem not_continues_of_isAltered {r r' : Record} {n : Nat} {prev : Text} (hr : r.Continues n (.str prev))
    (hn : n < limit) (h : r.IsAltered r') (hcollision : NoCollision [r.hashedText, r'.hashedText]) :
    ¬r'.Continues n (.str prev) := by
  intro hr'
  obtain ⟨hagrees, -, -⟩ := agrees_of_recordHash hr hr' hn hn hcollision h.recordHash.symm
  rcases h.altered with hproposal | hprev | hsummary | hdecision
  · exact hproposal.canonical_ne hagrees.proposalHash.symm
  · exact hprev hagrees.prevHash.symm
  · exact hsummary hagrees.decisionSummary.symm
  · exact hdecision hagrees.decision.symm

namespace IsAlteration

variable {numbers : Set Nat} {history altered : List Record} (h : IsAlteration numbers history altered) {i : Nat}
  {r r' : Record}
include h

theorem sequenceNumber_eq (hr : history[i]? = some r) (hr' : altered[i]? = some r') :
    r'.sequenceNumber = r.sequenceNumber := by
  by_cases hn : i + 1 ∈ numbers
  · exact (h.isAltered i r r' hr hr' hn).sequenceNumber
  · rw [h.kept i r r' hr hr' hn]

/-- The two histories at a place before which nothing was altered. -/
theorem split (hi : i < history.length) (hfirst : ∀ n ∈ numbers, i < n) :
    ∃ records r r' rest rest', history = records ++ r :: rest ∧ altered = records ++ r' :: rest' ∧ records.length = i
      ∧ history[i]? = some r ∧ altered[i]? = some r' := by
  have hi' : i < altered.length := h.length ▸ hi
  have htake : altered.take i = history.take i := by
    apply List.ext_getElem
    · simp [h.length]
    · intro j hj hj'
      simp only [List.length_take, Nat.lt_min] at hj
      have hnot : j + 1 ∉ numbers := fun hc => absurd (hfirst _ hc) (by omega)
      rw [List.getElem_take, List.getElem_take]
      exact h.kept j _ _ (List.getElem?_eq_getElem (by omega)) (List.getElem?_eq_getElem hj.2) hnot
  have hsplit : history = history.take i ++ history[i] :: history.drop (i + 1) := by
    rw [← List.drop_eq_getElem_cons hi, List.take_append_drop]
  have hsplit' : altered = history.take i ++ altered[i] :: altered.drop (i + 1) := by
    rw [← htake, ← List.drop_eq_getElem_cons hi', List.take_append_drop]
  have hlength : (history.take i).length = i := by
    simp only [List.length_take]
    omega
  have hr := List.getElem?_eq_getElem hi
  have hr' := List.getElem?_eq_getElem hi'
  exact ⟨_, history[i], altered[i], _, _, hsplit, hsplit', hlength, hr, hr'⟩

end IsAlteration

namespace SharedLog

/-- **A verification finds the first of the records that were altered**, however many they are and whatever was done
to each of them: the history is found broken at its number, and all records before it are checked, unless what was
hashed in some place and what is there now are two texts with one hash.  (Numbers from `2^53` on cannot be told apart
and are not looked at, so a history that was altered only there is found valid up to them.) -/
theorem alteration_found {d : SharedLog} (hd : d.IsReachable) {numbers : Set Nat} {altered : List Record} {n : Nat}
    (h : IsAlteration numbers d.log.history altered) (hn : IsLeast numbers n)
    (hcollision : ∀ (i : Nat) (r r' : Record), d.log.history[i]? = some r → altered[i]? = some r' →
      NoCollision [r.hashedText, r'.hashedText]) :
    (n < limit → ∃ reason, verify firstSequence lastSequence altered = .ok (.broken (.ofCount n) reason (n - 1)))
    ∧ (limit ≤ n → verify firstSequence lastSequence altered = .ok (.intact (limit - 1))) := by
  have hchain := hd.isSound.log.chain
  obtain ⟨hpos, hle⟩ := h.numbered n hn.1
  have hbefore : ∀ i, i < n → ∀ m ∈ numbers, i < m := fun i hi m hm => Nat.lt_of_lt_of_le hi (hn.2 hm)
  constructor
  · intro hlimit
    obtain ⟨i, rfl⟩ : ∃ i, n = i + 1 := ⟨n - 1, by omega⟩
    obtain ⟨records, r, r', rest, rest', hhistory, rfl, rfl, hr, hr'⟩ := h.split hle (hbefore i (Nat.lt_succ_self i))
    rw [hhistory] at hchain
    obtain ⟨hrecords, hcont⟩ := hchain.split
    obtain ⟨t, ht⟩ := IsChain.exists_lastHash hrecords
    rw [Nat.zero_add, ht] at hcont
    have hbreak := not_continues_of_isAltered hcont hlimit (h.isAltered _ _ _ hr hr' hn.1) (hcollision _ _ _ hr hr')
    rw [← ht] at hbreak
    have hnumber := (h.sequenceNumber_eq hr hr').trans hcont.sequenceNumber
    exact verify_of_break hrecords (Nat.lt_of_succ_lt hlimit) hnumber ((isCounted_iff hnumber).2 hlimit) hbreak rest'
  · intro hlimit
    have hpositive : 0 < limit := by decide
    have hlast : limit - 1 < n := by omega
    obtain ⟨records, r, r', rest, rest', hhistory, rfl, hlength, hr, hr'⟩ := h.split (by omega) (hbefore _ hlast)
    rw [hhistory] at hchain
    obtain ⟨hrecords, hcont⟩ := hchain.split
    rw [Nat.zero_add] at hcont
    have hbeyond := isBeyond_of_le ((h.sequenceNumber_eq hr hr').trans hcont.sequenceNumber) (by omega)
    rw [← hlength]
    exact verify_of_isBeyond hrecords (by omega) hbeyond rest'

/-- Of three decisions that were recorded the last two are exchanged for another. -/
theorem exchanged_pair_found :
    let d := (opened none).run ([.called ⟨.str "p", .null⟩, .called ⟨.str "q", .null⟩, .called ⟨.str "r", .null⟩]
      ++ serve ++ serve ++ serve)
    let exchanged (r : Record) : Record := { r with decision := .bool true }
    ∃ r s t, d.log.history = [r, s, t] ∧ IsAlteration {2, 3} [r, s, t] [r, exchanged s, exchanged t]
      ∧ ∃ reason, verify firstSequence lastSequence [r, exchanged s, exchanged t]
        = .ok (.broken (.ofCount 2) reason 1) := by
  intro d exchanged
  have hd : d.IsReachable := IsReachable.run (.fresh fun s hs => by cases hs) _
  obtain ⟨r, s, t, hhistory, hs, ht⟩ : ∃ r s t, d.log.history = [r, s, t] ∧ s.decision = .null ∧ t.decision = .null :=
    ⟨_, _, _, rfl, rfl, rfl⟩
  have hcanonical : (Value.bool true).canonical ≠ Value.null.canonical := by decide
  have hexchanged : ∀ x : Record, x.decision = .null → x.IsAltered (exchanged x) := fun x hx =>
    ⟨rfl, rfl, .inr (.inr (.inr (hx ▸ hcanonical)))⟩
  have halteration : IsAlteration {2, 3} [r, s, t] [r, exchanged s, exchanged t] := by
    refine ⟨rfl, by simp, fun i x x' hx hx' hn => ?_, fun i x x' hx hx' hn => ?_⟩
    · rcases i with _ | _ | _ | i <;> cases hx <;> cases hx'
      · simp at hn
      · exact hexchanged s hs
      · exact hexchanged t ht
    · rcases i with _ | _ | _ | i <;> cases hx <;> cases hx'
      · rfl
      · simp at hn
      · simp at hn
  have htexts : ∀ (i : Nat) (x x' : Record), [r, s, t][i]? = some x → [r, exchanged s, exchanged t][i]? = some x' →
      NoCollision [x.hashedText, x'.hashedText] := by
    intro i x x' hx hx' a ha b hb _
    have htext : x'.hashedText = x.hashedText := by
      rcases i with _ | _ | _ | i <;> cases hx <;> cases hx' <;> rfl
    simp only [htext, List.mem_cons, List.not_mem_nil, or_false, or_self] at ha hb
    rw [ha, hb]
  have hleast : IsLeast ({2, 3} : Set Nat) 2 := ⟨by simp, by simp⟩
  rw [← hhistory] at halteration htexts
  exact ⟨r, s, t, hhistory, hhistory ▸ halteration, (alteration_found hd halteration hleast htexts).1 (by decide)⟩

end SharedLog
end Audit
end PolicyGates
