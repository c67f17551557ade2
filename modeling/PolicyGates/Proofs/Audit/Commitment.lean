import PolicyGates.Proofs.Audit.Walk
import PolicyGates.Proofs.Value.Rendering
import Mathlib.Data.List.Forall2
import Mathlib.Data.List.Induction
/-!
# What the last hash commits to

The hash of a record covers the hash of the record before it, so the last hash covers all of the history.  The text that
is hashed tells its four fields apart (`fields_of_hashedText`), and a chain is followed backward from its end; the
numbers say where it begins, so two histories with one last hash have one length.
-/
namespace PolicyGates.Audit

open Double (counted limit)

/-- The text under the hash of a record. -/
def Record.hashedText (r : Record) : String :=
  (Value.arr [r.sequenceNumber, r.proposalHash, r.prevHash.value, r.decisionSummary]).canonical

section Made

variable (number : Value) (prevHash : Hash) (proposalHash decision : Value)

theorem hashedText_make : (Record.make number prevHash proposalHash decision).hashedText
    = (Value.arr [number, proposalHash, prevHash.value, .str decision.canonical]).canonical := rfl

theorem recordHash_make : (Record.make number prevHash proposalHash decision).recordHash
    = .ofText (Digest.sha256 (Record.make number prevHash proposalHash decision).hashedText) := rfl

end Made

/-- No two of the texts have one hash. -/
def NoCollision (texts : List String) : Prop :=
  ∀ a ∈ texts, ∀ b ∈ texts, Digest.sha256 a = Digest.sha256 b → a = b

/-- Two records say the same.  What they hold for the proposal and for the decision need only have one canonical text;
where one holds a text for the proposal, the other holds that text. -/
structure Record.Agrees (r s : Record) : Prop where
  sequenceNumber : r.sequenceNumber = s.sequenceNumber
  proposalHash : r.proposalHash.canonical = s.proposalHash.canonical
  proposalHash_text : ∀ t, r.proposalHash = .str t ↔ s.proposalHash = .str t
  prevHash : r.prevHash.value = s.prevHash.value
  decisionSummary : r.decisionSummary = s.decisionSummary
  recordHash : r.recordHash.value = s.recordHash.value
  decision : r.decision.canonical = s.decision.canonical

theorem fields_of_hashedText {r s : Record} (h : r.hashedText = s.hashedText) :
    r.sequenceNumber.canonical = s.sequenceNumber.canonical ∧ r.proposalHash.canonical = s.proposalHash.canonical
      ∧ r.prevHash.value.canonical = s.prevHash.value.canonical
      ∧ r.decisionSummary.canonical = s.decisionSummary.canonical := by
  unfold Record.hashedText at h
  have hfields := Value.map_canonical_of_arr h
  simp only [List.map_cons, List.map_nil, List.cons.injEq, and_true] at hfields
  exact hfields

/-- Two records at their places in a chain with one hash agree, are at one place and link back to one hash. -/
theorem agrees_of_recordHash {r s : Record} {m n : Nat} {p q : Text} (hr : r.Continues m (.str p))
    (hs : s.Continues n (.str q)) (hm : m < limit) (hn : n < limit)
    (hcollision : NoCollision [r.hashedText, s.hashedText]) (h : r.recordHash.value = s.recordHash.value) :
    r.Agrees s ∧ m = n ∧ p = q := by
  have hhash : Digest.sha256 r.hashedText = Digest.sha256 s.hashedText := by
    have htext := hr.recordHash.symm.trans (h.trans hs.recordHash)
    rw [Value.str.injEq, Text.whole.injEq] at htext
    exact htext
  have htext := hcollision _ (by simp) _ (by simp) hhash
  obtain ⟨hnumber, hproposal, hprev, hsummary⟩ := fields_of_hashedText htext
  rw [hr.sequenceNumber, hs.sequenceNumber, Double.counted_of_le (Nat.le_of_lt hm),
    Double.counted_of_le (Nat.le_of_lt hn)] at hnumber
  obtain rfl := Value.canonical_ofCount_inj hm hn hnumber
  rw [hr.prevHash, hs.prevHash] at hprev
  have hpq := Value.eq_of_canonical_str hprev
  rw [hr.decisionSummary, hs.decisionSummary] at hsummary
  have hdecision := Value.eq_of_canonical_str hsummary
  refine ⟨⟨?_, hproposal, fun t => ⟨fun ht => ?_, fun ht => ?_⟩, ?_, ?_, h, ?_⟩, rfl, ?_⟩
  · rw [hr.sequenceNumber, hs.sequenceNumber]
  · rw [ht] at hproposal
    exact Value.eq_of_canonical_str hproposal.symm
  · rw [ht] at hproposal
    exact Value.eq_of_canonical_str hproposal
  · rw [hr.prevHash, hs.prevHash, hpq]
  · rw [hr.decisionSummary, hs.decisionSummary, hdecision]
  · rw [Value.str.injEq, Text.whole.injEq] at hdecision
    exact hdecision
  · exact Value.str.inj hpq

theorem NoCollision.mono {texts more : List String} (h : NoCollision more) (hs : ∀ t ∈ texts, t ∈ more) :
    NoCollision texts :=
  fun a ha b hb => h a (hs a ha) b (hs b hb)

/-- **Two chains with one last hash agree from the first record to the last.** -/
theorem forall₂_agrees_of_lastHash {h h' : List Record} (hc : IsChain h) (hc' : IsChain h') (hl : h.length < limit)
    (hl' : h'.length < limit) (hne : h ≠ []) (hne' : h' ≠ [])
    (hcollision : NoCollision ((h ++ h').map Record.hashedText))
    (hlast : lastHashOf (.str genesisHash) h = lastHashOf (.str genesisHash) h') :
    List.Forall₂ Record.Agrees h h' := by
  induction h using List.reverseRecOn generalizing h' with
  | nil => exact absurd rfl hne
  | append_singleton records r ih =>
    obtain ⟨hrecords, hr⟩ := chainFrom_concat.1 hc
    rcases hc'.eq_nil_or_concat with hnil | ⟨records', r', rfl, hrecords', hr'⟩
    · exact absurd hnil hne'
    · rw [Nat.zero_add] at hr
      rw [List.length_append, List.length_singleton] at hl hl'
      rw [lastHashOf_concat, lastHashOf_concat] at hlast
      obtain ⟨p, hp⟩ := IsChain.exists_lastHash hrecords
      obtain ⟨p', hp'⟩ := hrecords'.exists_lastHash
      rw [hp] at hr
      rw [hp'] at hr'
      have hpair : NoCollision [r.hashedText, r'.hashedText] := hcollision.mono (by simp)
      obtain ⟨hagrees, hnumber, rfl⟩ := agrees_of_recordHash hr hr' hl hl' hpair hlast
      have hlength : records.length = records'.length := Nat.succ.inj hnumber
      refine List.rel_append ?_ (.cons hagrees .nil)
      -- the records before the last ones have one last hash too, if there are any
      cases hrec : records with
      | nil =>
        rw [hrec] at hlength
        rw [List.length_eq_zero_iff.1 hlength.symm]
        exact .nil
      | cons x xs =>
        rw [← hrec]
        have hne1 : records ≠ [] := by rw [hrec]; exact List.cons_ne_nil _ _
        have hne2 : records' ≠ [] := by
          rintro rfl
          exact hne1 (List.length_eq_zero_iff.1 hlength)
        refine ih hrecords hrecords' (by omega) (by omega) hne1 hne2 (hcollision.mono ?_) (hp.trans hp'.symm)
        intro t ht
        simp only [List.map_append, List.mem_append] at ht ⊢
        tauto

/-- **The last hash commits to the whole history.**  Two histories that are found valid in all their records have one
last hash only if they have one length and agree record by record, unless two of the texts hashed have one hash. -/
theorem last_hash_commits {h h' : List Record} {r r' : Record} (hv : IsIntact h h.length) (hv' : IsIntact h' h'.length)
    (hr : h.getLast? = some r) (hr' : h'.getLast? = some r') (hlast : r.recordHash.value = r'.recordHash.value)
    (hcollision : NoCollision ((h ++ h').map Record.hashedText)) :
    h.length = h'.length ∧ List.Forall₂ Record.Agrees h h' := by
  obtain ⟨hc, hl⟩ := isIntact_length_iff.1 hv
  obtain ⟨hc', hl'⟩ := isIntact_length_iff.1 hv'
  have hends : ∀ {g : List Record} {x : Record}, g.getLast? = some x →
      g ≠ [] ∧ lastHashOf (.str genesisHash) g = x.recordHash.value := by
    intro g x hx
    obtain ⟨records, rfl⟩ := List.getLast?_eq_some_iff.1 hx
    exact ⟨by simp, lastHashOf_concat _ _ _⟩
  obtain ⟨hne, hend⟩ := hends hr
  obtain ⟨hne', hend'⟩ := hends hr'
  have hagrees := forall₂_agrees_of_lastHash hc hc' hl hl' hne hne' hcollision (by rw [hend, hend', hlast])
  exact ⟨hagrees.length_eq, hagrees⟩

theorem noCollision_twice {a b : String} (h : Digest.sha256 a ≠ Digest.sha256 b) : NoCollision [a, b, a, b] := by
  have hmem : ∀ t ∈ [a, b, a, b], t = a ∨ t = b := by simp
  intro x hx y hy hsame
  rcases hmem x hx with rfl | rfl <;> rcases hmem y hy with rfl | rfl
  · rfl
  · exact absurd hsame h
  · exact absurd hsame.symm h
  · rfl

/-- Two chains of two records with one last hash that are not the same: the first decision has a member that is not
there. -/
theorem absent_member_commits :
    let first (decision : Value) : Record := .make (.num (counted 1)) (.ofText genesisHash) (.str "p") decision
    let second (decision : Value) : Record := .make (.num (counted 2)) (first decision).recordHash (.str "q") (.obj [])
    let h := [first (.obj [("note", .absent)]), second (.obj [("note", .absent)])]
    let h' := [first (.obj []), second (.obj [])]
    h.map Record.decision ≠ h'.map Record.decision ∧ IsIntact h 2 ∧ IsIntact h' 2
      ∧ h.getLast?.map (·.recordHash.value) = h'.getLast?.map (·.recordHash.value)
      ∧ NoCollision ((h ++ h').map Record.hashedText) ∧ h.length = h'.length ∧ List.Forall₂ Record.Agrees h h' := by
  intro first second h h'
  have hfirst : (first (.obj [("note", .absent)])).hashedText = (first (.obj [])).hashedText := rfl
  have hlink : (first (.obj [("note", .absent)])).recordHash = (first (.obj [])).recordHash := by
    rw [recordHash_make, hfirst, ← recordHash_make]
  have hsecond : second (.obj [("note", .absent)]) = second (.obj []) := by
    show Record.make _ (first (.obj [("note", .absent)])).recordHash _ _
      = Record.make _ (first (.obj [])).recordHash _ _
    rw [hlink]
  have hintact : ∀ decision, IsIntact [first decision, second decision] 2 := by
    intro decision
    have htwo : 2 < limit := by decide
    exact isIntact_length_iff.2
      ⟨chainFrom_cons.2 ⟨⟨rfl, rfl, rfl, rfl⟩, chainFrom_cons.2 ⟨⟨rfl, rfl, rfl, rfl⟩, chainFrom_nil _ _⟩⟩, htwo⟩
  have hhash : Digest.sha256 (first (.obj [])).hashedText
    = "018ba0dd385e4ced0f277ccb1fead71c141e54a827278c48dc677d8b3536b5d5" := by
    decide +kernel
  have hapart : Digest.sha256 (first (.obj [])).hashedText ≠ Digest.sha256 (second (.obj [])).hashedText := by
    rw [hashedText_make (.num (counted 2)), recordHash_make, hhash]
    decide +kernel
  have hcollision : NoCollision ((h ++ h').map Record.hashedText) := by
    show NoCollision [(first (.obj [("note", .absent)])).hashedText, (second (.obj [("note", .absent)])).hashedText,
      (first (.obj [])).hashedText, (second (.obj [])).hashedText]
    rw [hfirst, hsecond]
    exact noCollision_twice hapart
  have hlast : (second (.obj [("note", .absent)])).recordHash.value
    = (second (.obj [])).recordHash.value := by rw [hsecond]
  obtain ⟨hlength, hagrees⟩ := last_hash_commits (hintact _) (hintact _) rfl rfl hlast hcollision
  have hdecisions : h.map Record.decision ≠ h'.map Record.decision := fun hsame => by
    have : Value.obj [("note", .absent)] = .obj [] := (List.cons.inj hsame).1
    cases this
  exact ⟨hdecisions, hintact _, hintact _, congrArg some hlast, hcollision, hlength, hagrees⟩

end PolicyGates.Audit
