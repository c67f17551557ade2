import PolicyGates.Proofs.Batch.Order
/-!
# Batches that are in order already

A visit goes nowhere from a proposal whose dependencies have their places: it enters the proposal and leaves it again
(`visit_of_placed`).  In a batch that is in order every visit is of this kind, so the search has at every moment
placed exactly the proposals that it has visited (`exists_search_of_inOrder`), and the order of such a batch is the
batch itself: `order_stable`.
-/
namespace PolicyGates.Batch

variable {batch placed rest : List Proposal} {s : Search Proposal Text} {p : Proposal} {id : Text} {depth : Nat}

/-! ## Visits that go nowhere -/

theorem visit_of_done (h : s.mark? p.proposalId = some .done) : visit batch depth p s = .ok s := by
  cases depth with
  | zero => rfl
  | succ depth => rw [visit, show (Member.id p : Text) = p.proposalId from rfl, h]

theorem descend_of_done (h : Holds batch id → s.mark? id = some .done) : descend batch depth s id = .ok s := by
  unfold descend
  cases hfind : find? batch id with
  | none => rfl
  | some q =>
    have hq : q.proposalId = id := beq_iff_eq.1 (List.find?_some (p := fun q : Proposal => q.proposalId == id) hfind)
    exact visit_of_done (hq ▸ h ⟨q, List.mem_of_find?_eq_some hfind, hq⟩)

theorem foldlM_descend_of_done {ids : List Text} (h : ∀ id ∈ ids, Holds batch id → s.mark? id = some .done) :
    ids.foldlM (descend batch depth) s = .ok s := by
  induction ids with
  | nil => rfl
  | cons id rest ih =>
    obtain ⟨hid, hrest⟩ := List.forall_mem_cons.1 h
    rw [List.foldlM_cons, descend_of_done hid]
    exact ih hrest

/-! ## Searches of a batch that is in order -/

/-- The search has placed these proposals in this order, and is below nothing. -/
structure Search.HasPlaced (s : Search Proposal Text) (placed : List Proposal) : Prop where
  ordered : s.ordered = placed
  path : s.path = []
  done : ∀ id, Holds placed id → s.mark? id = some .done
  new : ∀ id, ¬Holds placed id → s.mark? id = none

theorem Search.hasPlaced_fresh : HasPlaced fresh [] where
  ordered := rfl
  path := rfl
  done _ hid := absurd hid.choose_spec.1 List.not_mem_nil
  new _ _ := rfl

theorem Search.HasPlaced.leave (h : s.HasPlaced placed) (p : Proposal) :
    ((s.enter p.proposalId).leave p).HasPlaced (placed ++ [p]) where
  ordered := congrArg (· ++ [p]) h.ordered
  path := List.dropLast_concat.trans h.path
  done id hid := by
    rw [mark?_leave]
    split
    · rfl
    · next hne =>
      rw [mark?_enter, if_neg hne]
      obtain ⟨q, hq, hqid⟩ := hid
      rcases List.mem_append.1 hq with hq | hq
      · exact h.done id ⟨q, hq, hqid⟩
      · exact absurd (List.mem_singleton.1 hq ▸ hqid.symm) hne
  new id hid := by
    have hne : id ≠ p.proposalId := fun hc => hid ⟨p, List.mem_append_right _ List.mem_cons_self, hc.symm⟩
    rw [mark?_leave, if_neg hne, mark?_enter, if_neg hne]
    exact h.new id fun hc => hid (hc.mono (List.subset_append_left _ _))

/-- **A proposal whose dependencies have their places is entered and left again.** -/
theorem visit_of_placed (h : s.HasPlaced placed) (hp : ¬Holds placed p.proposalId)
    (hbelow : ∀ id ∈ p.dependsOn, Holds batch id → Holds placed id) :
    visit batch (depth + 1) p s = .ok ((s.enter p.proposalId).leave p) := by
  have hdone : ∀ id ∈ p.dependsOn, Holds batch id → (s.enter p.proposalId).mark? id = some .done := by
    intro id hid hholds
    have hplaced := hbelow id hid hholds
    rw [Search.mark?_enter, if_neg fun hc : id = p.proposalId => hp (hc ▸ hplaced)]
    exact h.done id hplaced
  rw [visit_of_fresh (h.new _ hp), foldlM_descend_of_done hdone]
  rfl

/-- **The rest of a batch is placed as it comes**, once what stands before it is. -/
theorem exists_search_of_inOrder (hids : (batch.map Proposal.proposalId).Nodup) (h : InOrder batch batch)
    (hs : s.HasPlaced placed) (hsplit : batch = placed ++ rest) :
    ∃ t, rest.foldlM (fun s p => visit batch (batch.length + 1) p s) s = .ok t ∧ t.HasPlaced batch := by
  induction rest generalizing placed s with
  | nil => exact ⟨s, rfl, by rwa [hsplit, List.append_nil]⟩
  | cons p rest ih =>
    have hp : ¬Holds placed p.proposalId := by
      intro hc
      rw [hsplit, List.map_append, List.map_cons] at hids
      exact (List.nodup_append.1 hids).2.2 _ (holds_iff.1 hc) _ List.mem_cons_self rfl
    rw [List.foldlM_cons, visit_of_placed hs hp (h placed p rest hsplit)]
    exact ih (hs.leave p) (by rw [hsplit, List.append_assoc, List.singleton_append])

/-- **A batch that is in order is left as it is.** -/
theorem order_of_inOrder (hids : (batch.map Proposal.proposalId).Nodup) (h : InOrder batch batch) :
    order batch = .ok batch := by
  obtain ⟨t, hsearch, ht⟩ := exists_search_of_inOrder hids h Search.hasPlaced_fresh (List.nil_append batch).symm
  unfold order arrange
  rw [show batch.map Member.id = batch.map Proposal.proposalId from rfl,
    (duplicate?_eq_none_iff [] _).2 ⟨hids, fun _ _ => List.not_mem_nil⟩, search, hsearch]
  exact congrArg Except.ok ht.ordered

theorem InOrder.of_perm {ordered : List Proposal} (h : InOrder batch ordered) (hperm : ordered.Perm batch) :
    InOrder ordered ordered :=
  fun before p after hsplit id hid hholds => h before p after hsplit id hid (hholds.mono hperm.subset)

theorem order_of_order {ordered : List Proposal} (h : order batch = .ok ordered) : order ordered = .ok ordered := by
  obtain ⟨hids, hperm, horder⟩ := of_order_eq_ok h
  exact order_of_inOrder ((hperm.map _).nodup_iff.2 hids) (horder.of_perm hperm)

/-- **Orders are stable.**  A batch is left as it is exactly if no id comes twice in it and every proposal already
stands after those of the batch that it depends on.  So an order that was found is not changed by looking for it
again, and where nothing has to come before itself there is one. -/
theorem order_stable (batch : List Proposal) :
    (order batch = .ok batch ↔ (batch.map Proposal.proposalId).Nodup ∧ InOrder batch batch)
    ∧ (order batch).bind order = order batch
    ∧ ((batch.map Proposal.proposalId).Nodup → ¬HasCycle batch → ∃ ordered, order batch = .ok ordered
      ∧ order ordered = .ok ordered) := by
  refine ⟨⟨fun h => ?_, fun ⟨hids, h⟩ => order_of_inOrder hids h⟩, ?_, fun hids hacyclic => ?_⟩
  · obtain ⟨hids, -, horder⟩ := of_order_eq_ok h
    exact ⟨hids, horder⟩
  · cases h : order batch with
    | error e => rfl
    | ok ordered => exact order_of_order h
  · obtain ⟨ordered, h⟩ := exists_order hids hacyclic
    exact ⟨ordered, h, order_of_order h⟩

/-- Two proposals in the wrong order are exchanged, and in the right order they stay. -/
theorem pair_stable :
    let first : Proposal := .ofValue (.obj [("proposalId", .str "first"), ("dependsOn", .arr [])])
    let second : Proposal :=
      .ofValue (.obj [("proposalId", .str "second"), ("dependsOn", .arr [.str "elsewhere", .str "first"])])
    order [second, first] = .ok [first, second] ∧ order [first, second] = .ok [first, second] := by
  intro first second
  have hfirst : InOrder [first, second] ([] ++ [first]) := inOrder_nil.concat fun id hid => absurd hid List.not_mem_nil
  have hsecond : InOrder [first, second] (([] ++ [first]) ++ [second]) := by
    refine hfirst.concat fun id hid hholds => ?_
    change id ∈ [Text.whole "elsewhere", Text.whole "first"] at hid
    rcases List.mem_pair.1 hid with rfl | rfl
    · exact absurd (holds_iff.1 hholds) (by decide)
    · exact ⟨first, List.mem_cons_self, rfl⟩
  exact ⟨rfl, (order_stable [first, second]).1.2 ⟨by decide, hsecond⟩⟩

end PolicyGates.Batch
