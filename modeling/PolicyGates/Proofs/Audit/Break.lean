import PolicyGates.Proofs.Audit.Walk
/-!
# Where a chain breaks

A walk comes to the end of a chain with the link that its last record leaves, whatever stands behind it
(`exists_walk_append`).  So a history that is a chain up to a record in the range that does not go on from it is found
broken at the number that would have come next, with the records before it checked (`verify_of_break`); and one that
goes on with a record past the range is found valid (`verify_of_isBeyond`).
-/
namespace PolicyGates.Audit

open Double (counted limit)

variable {first last : Value} {l : Link} {number checked : Nat} {prev : Text} {r : Record} {x y : Float}

/-- A record with a number is looked through to the end, and a flaw is found at its number or, if that is not the one
that comes next, at the one that does. -/
theorem exists_flaw? (hx : r.sequenceNumber = .num x) (hy : l.next = .num y) :
    ∃ flaw, r.flaw? l = .ok flaw ∧ ∀ p, flaw = some p → p.1 = if x == y then .num x else .num y := by
  have hsame : r.sequenceNumber.same l.next = (x == y) := by rw [hx, hy]; rfl
  unfold Record.flaw?
  rw [hsame]
  by_cases hxy : (x == y) = true
  · simp only [hxy, hx, Bool.not_true, Bool.false_eq_true, if_false, if_true]
    split
    · exact ⟨_, rfl, by simp⟩
    · split
      · exact ⟨_, rfl, by simp⟩
      · split <;> exact ⟨_, rfl, by simp⟩
  · simp only [hxy, hx, hy]
    exact ⟨_, rfl, by simp⟩

/-- **A record with a number that does not go on from its place** breaks the chain there. -/
theorem exists_flaw_of_not_continues (hl : l.IsAt number prev) (hx : r.sequenceNumber = .num x)
    (hr : ¬r.Continues (number + 1) (.str prev)) :
    ∃ reason, r.flaw? l = .ok (some (.num (counted (number + 1)), reason)) := by
  obtain ⟨flaw, hflaw, hlink⟩ := exists_flaw? hx hl.next
  cases flaw with
  | none => exact absurd ((fits_iff hl).1 (flaw?_eq_none_iff.1 hflaw)) hr
  | some p =>
    obtain ⟨link, reason⟩ := p
    have hlink := hlink _ rfl
    refine ⟨reason, ?_⟩
    rw [hflaw]
    by_cases hxy : (x == counted (number + 1)) = true
    · rw [if_pos hxy, Double.eq_counted_of_beq (Nat.succ_pos _) hxy] at hlink
      rw [← hlink]
    · rw [if_neg hxy] at hlink
      rw [← hlink]

theorem walk_of_flaw {rest : List Record} {p : Value × Text} (h : r.IsCounted first last)
    (hp : r.flaw? l = .ok (some p)) :
    walk first last l checked (r :: rest) = .ok (.broken p.1 p.2 checked) := by
  rw [walk, h.1, h.2, hp]
  rfl

/-- **Along a chain a walk comes to its end**, and goes on from the hash of its last record. -/
theorem exists_walk_append {history : List Record} (hl : l.IsAt number prev) (h : ChainFrom number (.str prev) history)
    (hn : number + history.length < limit) (checked : Nat) (rest : List Record) :
    ∃ l' prev', l'.IsAt (number + history.length) prev' ∧ lastHashOf (.str prev) history = .str prev'
      ∧ walk firstSequence lastSequence l checked (history ++ rest)
        = walk firstSequence lastSequence l' (checked + history.length) rest := by
  induction history generalizing l checked number prev with
  | nil => exact ⟨l, prev, hl, rfl, rfl⟩
  | cons r history ih =>
    rw [List.length_cons] at hn
    obtain ⟨hr, hrest⟩ := chainFrom_cons.1 h
    rw [hr.recordHash] at hrest
    obtain ⟨l', hl', hat⟩ := link_of_continues hr
    obtain ⟨l'', prev'', hat', hlast, hwalk⟩ := ih hat hrest (by omega) (checked + 1)
    have hcounted := (isCounted_iff hr.sequenceNumber).2 (show number + 1 < limit by omega)
    refine ⟨l'', prev'', ?_, ?_, ?_⟩
    · rwa [List.length_cons, show number + (history.length + 1) = number + 1 + history.length by omega]
    · rw [lastHashOf, List.length_cons, hashBefore_cons, hr.recordHash]
      exact hlast
    · rw [List.cons_append, walk_of_isCounted hcounted ((fits_iff hl).2 hr) hl', hwalk, List.length_cons]
      congr 1
      omega

variable {history : List Record} (h : IsChain history) (hn : history.length < limit)
include h hn

/-- **A history breaks at the first record that does not go on from the chain before it.** -/
theorem verify_of_break (hx : r.sequenceNumber = .num x) (hcounted : r.IsCounted firstSequence lastSequence)
    (hr : ¬r.Continues (history.length + 1) (lastHashOf (.str genesisHash) history)) (rest : List Record) :
    ∃ reason, verify firstSequence lastSequence (history ++ r :: rest)
      = .ok (.broken (.ofCount (history.length + 1)) reason history.length) := by
  obtain ⟨l, prev, hl, hlast, hwalk⟩ := exists_walk_append genesis_isAt h (by omega) 0 (r :: rest)
  rw [Nat.zero_add] at hl hwalk
  rw [hlast] at hr
  obtain ⟨reason, hflaw⟩ := exists_flaw_of_not_continues hl hx hr
  refine ⟨reason, ?_⟩
  rw [verify, hwalk, walk_of_flaw hcounted hflaw, Double.counted_of_le hn]
  rfl

/-- **Nothing is looked at from the first record past the range on.** -/
theorem verify_of_isBeyond (hr : r.IsBeyond lastSequence) (rest : List Record) :
    verify firstSequence lastSequence (history ++ r :: rest) = .ok (.intact history.length) := by
  obtain ⟨l, prev, -, -, hwalk⟩ := exists_walk_append genesis_isAt h (by omega) 0 (r :: rest)
  rw [verify, hwalk, walk_of_isBeyond hr, Nat.zero_add]

end PolicyGates.Audit
