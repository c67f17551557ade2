import PolicyGates.Batch.Order
import Mathlib.Data.List.Chain
import Mathlib.Data.List.Nodup
import Mathlib.Data.List.Perm.Subperm
import Mathlib.Logic.Relation
/-!
# When a batch can be put in order

The search in depth keeps three things in step: the ids that it is below are those on its path, each naming the next;
the ids that it is done with are those of the proposals in their places; and each of these stands after what it
depends on (`Search.IsSound`).  A visit keeps that, gives the visited proposal its place and comes back to the path it
started from, or it closes a ring (`advances_visit`).  No path is longer than the batch, so the visits never run out
of depth.

From this, what the order of a batch comes to (`order_exact`): refused for an id that comes twice, refused with a ring
exactly if there is one, and an order otherwise.
-/
namespace PolicyGates.Batch

/-! ## Rings and orders -/

section Batch

variable (batch : List Proposal)

def Holds (id : Text) : Prop := ∃ p ∈ batch, p.proposalId = id

/-- The proposal with the first id names the second, and both are in the batch. -/
def Depends (x y : Text) : Prop := (∃ p ∈ batch, p.proposalId = x ∧ y ∈ p.dependsOn) ∧ Holds batch y

/-- Some proposal has to come before itself. -/
def HasCycle : Prop := ∃ id, Relation.TransGen (Depends batch) id id

/-- Ids of the batch, each naming the next, where the last is the first and no other comes twice. -/
structure IsRing (ids : List Text) : Prop where
  two_le_length : 2 ≤ ids.length
  head_eq_last : ids.head? = ids.getLast?
  nodup : ids.dropLast.Nodup
  holds : ∀ id ∈ ids, Holds batch id
  chain : ids.IsChain (Depends batch)

/-- Every proposal stands after those of the batch that it depends on. -/
def InOrder (ordered : List Proposal) : Prop :=
  ∀ (before : List Proposal) (p : Proposal) (after : List Proposal), ordered = before ++ p :: after →
    ∀ id ∈ p.dependsOn, Holds batch id → Holds before id

end Batch

variable {batch : List Proposal}

theorem Holds.mono {more : List Proposal} {id : Text} (h : Holds batch id) (hs : batch ⊆ more) : Holds more id := by
  obtain ⟨p, hp, hid⟩ := h
  exact ⟨p, hs hp, hid⟩

theorem holds_iff {id : Text} : Holds batch id ↔ id ∈ batch.map Proposal.proposalId := List.mem_map.symm

theorem eq_of_proposalId (hids : (batch.map Proposal.proposalId).Nodup) {p q : Proposal} (hp : p ∈ batch)
    (hq : q ∈ batch) (h : p.proposalId = q.proposalId) :
    p = q :=
  List.inj_on_of_nodup_map hids hp hq h

theorem inOrder_nil : InOrder batch [] := by
  intro before p after hsplit
  simp at hsplit

theorem InOrder.concat {ordered : List Proposal} {p : Proposal} (h : InOrder batch ordered)
    (hp : ∀ id ∈ p.dependsOn, Holds batch id → Holds ordered id) : InOrder batch (ordered ++ [p]) := by
  intro before q after hsplit
  rcases List.eq_nil_or_concat after with rfl | ⟨after, x, rfl⟩
  · obtain ⟨rfl, hq⟩ := List.append_inj' hsplit rfl
    obtain rfl := List.singleton_inj.1 hq
    exact hp
  · rw [List.concat_eq_append, ← List.cons_append, ← List.append_assoc] at hsplit
    exact h before q after (List.append_inj' hsplit rfl).1

theorem InOrder.idxOf_lt {ordered : List Proposal} (h : InOrder batch ordered) (hperm : ordered.Perm batch)
    (hids : (batch.map Proposal.proposalId).Nodup) {x y : Text} (hd : Depends batch x y) :
    (ordered.map Proposal.proposalId).idxOf y < (ordered.map Proposal.proposalId).idxOf x := by
  obtain ⟨⟨p, hp, rfl, hy⟩, hholds⟩ := hd
  obtain ⟨before, after, hsplit⟩ := List.append_of_mem (hperm.mem_iff.2 hp)
  have hnodup : (ordered.map Proposal.proposalId).Nodup := (hperm.map _).nodup_iff.2 hids
  have hbefore := holds_iff.1 (h before p after hsplit y hy hholds)
  rw [hsplit, List.map_append, List.map_cons] at hnodup ⊢
  have hp' : p.proposalId ∉ before.map Proposal.proposalId := by
    intro hc
    exact (List.nodup_append.1 hnodup).2.2 _ hc _ List.mem_cons_self rfl
  rw [List.idxOf_append_of_mem hbefore, List.idxOf_append_of_notMem hp', List.idxOf_cons_self, Nat.add_zero]
  exact List.idxOf_lt_length_of_mem hbefore

theorem InOrder.not_hasCycle {ordered : List Proposal} (h : InOrder batch ordered) (hperm : ordered.Perm batch)
    (hids : (batch.map Proposal.proposalId).Nodup) : ¬HasCycle batch := by
  rintro ⟨id, hcycle⟩
  have hlt : ∀ {x y : Text}, Relation.TransGen (Depends batch) x y →
      (ordered.map Proposal.proposalId).idxOf y < (ordered.map Proposal.proposalId).idxOf x := by
    intro x y hxy
    induction hxy with
    | single hd => exact h.idxOf_lt hperm hids hd
    | tail _ hd ih => exact Nat.lt_trans (h.idxOf_lt hperm hids hd) ih
  exact Nat.lt_irrefl _ (hlt hcycle)

theorem IsRing.hasCycle {ids : List Text} (h : IsRing batch ids) : HasCycle batch := by
  obtain ⟨hlen, hends, -, -, hchain⟩ := h
  rcases ids with _ | ⟨x, _ | ⟨y, rest⟩⟩
  · simp at hlen
  · simp at hlen
  · obtain ⟨hxy, hchain⟩ := List.isChain_cons_cons.1 hchain
    rw [List.head?_cons, List.getLast?_cons_cons, List.getLast?_eq_some_getLast (List.cons_ne_nil y rest)] at hends
    exact ⟨x, .head' hxy (List.relationReflTransGen_of_exists_isChain_cons rest hchain (Option.some.inj hends).symm)⟩

/-! ## The search -/

namespace Search

variable {s t : Search Proposal Text} {p : Proposal}

/-- Marks, path and places are in step with each other. -/
structure IsSound (batch : List Proposal) (s : Search Proposal Text) : Prop where
  visiting : ∀ id, s.mark? id = some .visiting ↔ id ∈ s.path
  done : ∀ id, s.mark? id = some .done ↔ Holds s.ordered id
  path_nodup : s.path.Nodup
  path_holds : ∀ id ∈ s.path, Holds batch id
  path_chain : s.path.IsChain (Depends batch)
  ordered_nodup : (s.ordered.map Proposal.proposalId).Nodup
  ordered_subset : s.ordered ⊆ batch
  inOrder : InOrder batch s.ordered

theorem isSound_fresh : IsSound batch fresh where
  visiting id := by simp [fresh, mark?]
  done id := by simp [fresh, mark?, Holds]
  path_nodup := List.nodup_nil
  path_holds := by simp [fresh]
  path_chain := List.isChain_nil
  ordered_nodup := List.nodup_nil
  ordered_subset := List.nil_subset _
  inOrder := inOrder_nil

theorem IsSound.length_path_le (h : s.IsSound batch) : s.path.length ≤ batch.length := by
  have hsub : s.path ⊆ batch.map Proposal.proposalId := fun id hid => holds_iff.1 (h.path_holds id hid)
  have hle := (List.subperm_of_subset h.path_nodup hsub).length_le
  rwa [List.length_map] at hle

theorem mark?_enter (s : Search Proposal Text) (id id' : Text) :
    (s.enter id).mark? id' = if id' = id then some .visiting else s.mark? id' := by
  unfold mark? enter
  rw [List.lookup_cons]
  by_cases h : id' = id
  · simp [h]
  · rw [if_neg h, beq_eq_false_iff_ne.2 h]

theorem mark?_leave (s : Search Proposal Text) (p : Proposal) (id : Text) :
    (s.leave p).mark? id = if id = p.proposalId then some .done else s.mark? id := by
  unfold mark? leave
  rw [List.lookup_cons]
  change (match id == p.proposalId with | true => some Mark.done | false => s.marks.lookup id) = _
  by_cases h : id = p.proposalId
  · simp [h]
  · rw [if_neg h, beq_eq_false_iff_ne.2 h]

theorem IsSound.enter (h : s.IsSound batch) {id : Text} (hmark : s.mark? id = none) (hid : Holds batch id)
    (hchain : (s.path ++ [id]).IsChain (Depends batch)) : (s.enter id).IsSound batch := by
  have hpath : id ∉ s.path := by
    rw [← h.visiting, hmark]
    simp
  refine ⟨fun id' => ?_, fun id' => ?_, ?_, ?_, hchain, h.ordered_nodup, h.ordered_subset, h.inOrder⟩
  · rw [mark?_enter, show (s.enter id).path = s.path ++ [id] from rfl, List.mem_append,
      List.mem_singleton, ← h.visiting]
    by_cases hc : id' = id
    · simp [hc]
    · simp [hc]
  · rw [mark?_enter, show (s.enter id).ordered = s.ordered from rfl, ← h.done]
    by_cases hc : id' = id
    · simp [hc, hmark]
    · simp [hc]
  · exact List.nodup_append.2 ⟨h.path_nodup, List.nodup_singleton id, fun a ha b hb hab =>
      hpath (List.mem_singleton.1 hb ▸ hab ▸ ha)⟩
  · intro id' hid'
    rcases List.mem_append.1 hid' with hid' | hid'
    · exact h.path_holds id' hid'
    · rwa [List.mem_singleton.1 hid']

theorem IsSound.leave (h : t.IsSound batch) {path : List Text} (hpath : t.path = path ++ [p.proposalId])
    (hp : p ∈ batch) (hbelow : ∀ id ∈ p.dependsOn, Holds batch id → Holds t.ordered id) :
    (t.leave p).IsSound batch := by
  have hback : (t.leave p).path = path := by
    show t.path.dropLast = path
    rw [hpath, List.dropLast_concat]
  have hnodup := h.path_nodup
  have hchain := h.path_chain
  rw [hpath] at hnodup hchain
  have hnew : p.proposalId ∉ path := by
    intro hc
    exact (List.nodup_append.1 hnodup).2.2 _ hc _ List.mem_cons_self rfl
  have hfree : ¬Holds t.ordered p.proposalId := by
    rw [← h.done, (h.visiting p.proposalId).2 (by rw [hpath]; simp)]
    simp
  refine ⟨fun id => ?_, fun id => ?_, ?_, ?_, ?_, ?_, ?_, h.inOrder.concat hbelow⟩
  · rw [mark?_leave, hback]
    by_cases hc : id = p.proposalId
    · rw [if_pos hc, hc]
      simp [hnew]
    · rw [if_neg hc, h.visiting, hpath]
      simp [hc]
  · rw [mark?_leave, holds_iff, show (t.leave p).ordered = t.ordered ++ [p] from rfl, List.map_append, List.mem_append,
      ← holds_iff, ← h.done]
    by_cases hc : id = p.proposalId
    · simp [hc]
    · simp [hc]
  · rw [hback]
    exact (List.nodup_append.1 hnodup).1
  · rw [hback]
    exact fun id hid => h.path_holds id (by rw [hpath]; exact List.mem_append_left _ hid)
  · rw [hback]
    exact hchain.left_of_append
  · show ((t.ordered ++ [p]).map Proposal.proposalId).Nodup
    rw [List.map_append]
    exact List.nodup_append.2 ⟨h.ordered_nodup, List.nodup_singleton _, fun a ha b hb hab =>
      hfree (holds_iff.2 (List.mem_singleton.1 hb ▸ hab ▸ ha))⟩
  · exact List.append_subset.2 ⟨h.ordered_subset, List.cons_subset.2 ⟨hp, List.nil_subset _⟩⟩

theorem IsSound.isRing (h : s.IsSound batch) {id : Text} (hid : id ∈ s.path)
    (hchain : (s.path ++ [id]).IsChain (Depends batch)) : IsRing batch (s.ring id) := by
  obtain ⟨before, after, hsplit, hbefore⟩ := List.eq_append_cons_of_mem hid
  have hring : s.ring id = (id :: after) ++ [id] := by
    have hskip : ∀ i ∈ before, (!(i == id)) = true := by
      rintro i hi
      have hne : i ≠ id := fun hc => hbefore (hc ▸ hi)
      simp [hne]
    rw [ring, hsplit, List.dropWhile_append_of_pos hskip, List.dropWhile_cons_of_neg (by simp)]
  have hnodup := h.path_nodup
  rw [hsplit] at hnodup hchain
  rw [hring]
  refine ⟨by simp, ?_, ?_, fun i hi => h.path_holds i ?_, ?_⟩
  · rw [List.getLast?_concat]
    rfl
  · rw [List.dropLast_concat]
    exact (List.nodup_append.1 hnodup).2.1
  · rw [hsplit]
    rcases List.mem_append.1 hi with hi | hi
    · exact List.mem_append_right _ hi
    · simp [List.mem_singleton.1 hi]
  · rw [List.append_assoc] at hchain
    exact hchain.right_of_append

end Search

/-! ## Visits -/

/-- A search goes on from another one: it has given the ids their places and is back on the same path, or it has
found a ring. -/
def Advances (batch : List Proposal) (s : Search Proposal Text) (ids : List Text) :
    Except (Disorder Text Empty) (Search Proposal Text) → Prop
  | .ok s' => s'.IsSound batch ∧ s'.path = s.path ∧ s.ordered <+: s'.ordered
      ∧ ∀ id ∈ ids, Holds batch id → Holds s'.ordered id
  | .error (.ring ids) => IsRing batch ids
  | .error _ => False

variable {s : Search Proposal Text}

theorem Advances.error {t : Search Proposal Text} {ids ids' : List Text} {e : Disorder Text Empty}
    (h : Advances batch t ids' (.error e)) : Advances batch s ids (.error e) := by
  cases e <;> exact h

/-- **Searches that advance one after the other advance together.** -/
theorem advances_foldlM {β : Type} {key : β → Text}
    {visit : Search Proposal Text → β → Except (Disorder Text Empty) (Search Proposal Text)}
    (xs : List β) (hs : s.IsSound batch)
    (hvisit : ∀ x ∈ xs, ∀ t : Search Proposal Text, t.IsSound batch → t.path = s.path →
      Advances batch t [key x] (visit t x)) :
    Advances batch s (xs.map key) (xs.foldlM visit s) := by
  induction xs generalizing s with
  | nil => exact ⟨hs, rfl, List.prefix_rfl, by simp⟩
  | cons x rest ih =>
    have hx := hvisit x List.mem_cons_self s hs rfl
    rw [List.foldlM_cons]
    cases hv : visit s x with
    | error e =>
      rw [hv] at hx
      exact hx.error
    | ok t =>
      rw [hv] at hx
      obtain ⟨ht, hpath, hgrown, hplaced⟩ := hx
      have hrest := ih ht (fun y hy u hu hup => hvisit y (List.mem_cons_of_mem _ hy) u hu (hup.trans hpath))
      show Advances batch s _ (rest.foldlM visit t)
      cases hr : rest.foldlM visit t with
      | error e =>
        rw [hr] at hrest
        exact hrest.error
      | ok u =>
        rw [hr] at hrest
        obtain ⟨hu, hup, hug, huplaced⟩ := hrest
        refine ⟨hu, hup.trans hpath, hgrown.trans hug, fun id hid hholds => ?_⟩
        rw [List.map_cons] at hid
        rcases List.mem_cons.1 hid with rfl | hid
        · exact (hplaced _ List.mem_cons_self hholds).mono hug.subset
        · exact huplaced id hid hholds

/-- The search goes down to what a proposal names, if that is in the batch. -/
def descend (batch : List Proposal) (depth : Nat) (s : Search Proposal Text) (id : Text) :
    Except (Disorder Text Empty) (Search Proposal Text) :=
  match find? batch id with
  | some p => visit batch depth p s
  | none => .ok s

theorem visit_of_fresh {depth : Nat} {p : Proposal} (h : s.mark? p.proposalId = none) :
    visit batch (depth + 1) p s
      = (p.dependsOn.foldlM (descend batch depth) (s.enter p.proposalId)).map (fun t => t.leave p) := by
  have hbefore : (before p : Except (Disorder Text Empty) (List Text)) = .ok p.dependsOn := rfl
  have hfold : ∀ down, down = descend batch depth →
      Except.bind (p.dependsOn.foldlM down (s.enter p.proposalId)) (fun t => .ok (t.leave p))
        = (p.dependsOn.foldlM (descend batch depth) (s.enter p.proposalId)).map (fun t => t.leave p) := by
    rintro down rfl
    cases p.dependsOn.foldlM (descend batch depth) (s.enter p.proposalId) <;> rfl
  rw [visit, show (Member.id p : Text) = p.proposalId from rfl, h, hbefore]
  refine hfold _ ?_
  funext t id
  unfold descend
  cases find? batch id <;> rfl

variable {p : Proposal}

theorem advances_descend {depth : Nat} {id : Text} (hs : s.IsSound batch)
    (hvisit : ∀ q ∈ batch, q.proposalId = id → Advances batch s [q.proposalId] (visit batch depth q s)) :
    Advances batch s [id] (descend batch depth s id) := by
  unfold descend
  cases hfind : find? batch id with
  | none =>
    refine ⟨hs, rfl, List.prefix_rfl, fun id' hid' hholds => ?_⟩
    obtain ⟨q, hq, hqid⟩ := hholds
    rw [List.mem_singleton.1 hid'] at hqid
    exact absurd (beq_iff_eq.2 hqid) (List.find?_eq_none.1 hfind q hq)
  | some q =>
    have hqid : q.proposalId = id := beq_iff_eq.1 (List.find?_some (p := fun q : Proposal => q.proposalId == id) hfind)
    have hq := hvisit q (List.mem_of_find?_eq_some hfind) hqid
    rw [hqid] at hq
    exact hq

theorem Advances.leave {r : Except (Disorder Text Empty) (Search Proposal Text)}
    (h : Advances batch (s.enter p.proposalId) p.dependsOn r) (hp : p ∈ batch) :
    Advances batch s [p.proposalId] (r.map (fun t => t.leave p)) := by
  cases r with
  | error e => exact h.error
  | ok t =>
    obtain ⟨ht, hpath, hgrown, hplaced⟩ := h
    refine ⟨ht.leave hpath hp hplaced, ?_, hgrown.trans (List.prefix_append _ _), fun id hid _ => ?_⟩
    · show t.path.dropLast = s.path
      rw [hpath]
      exact List.dropLast_concat
    · rw [List.mem_singleton.1 hid]
      exact ⟨p, List.mem_append_right _ List.mem_cons_self, rfl⟩

/-- **What a visit comes to**, as long as there is depth left for every proposal that is not on the path yet. -/
theorem advances_visit {depth : Nat} (hp : p ∈ batch) (hs : s.IsSound batch)
    (hdepth : batch.length < depth + s.path.length) (hchain : (s.path ++ [p.proposalId]).IsChain (Depends batch)) :
    Advances batch s [p.proposalId] (visit batch depth p s) := by
  induction depth generalizing p s with
  | zero =>
    have := hs.length_path_le
    omega
  | succ depth ih =>
    cases hmark : s.mark? p.proposalId with
    | some m =>
      cases m with
      | done =>
        rw [visit, show (Member.id p : Text) = p.proposalId from rfl, hmark]
        refine ⟨hs, rfl, List.prefix_rfl, fun id hid _ => ?_⟩
        rw [List.mem_singleton.1 hid]
        exact (hs.done _).1 hmark
      | visiting =>
        rw [visit, show (Member.id p : Text) = p.proposalId from rfl, hmark]
        exact hs.isRing ((hs.visiting _).1 hmark) hchain
    | none =>
      have henter : (s.enter p.proposalId).IsSound batch := hs.enter hmark ⟨p, hp, rfl⟩ hchain
      have hbelow := advances_foldlM p.dependsOn henter fun id hid t ht htp =>
        advances_descend ht fun q hq hqid => by
          have hpath : t.path = s.path ++ [p.proposalId] := htp
          have hdepends : Depends batch p.proposalId q.proposalId := ⟨⟨p, hp, rfl, hqid ▸ hid⟩, ⟨q, hq, rfl⟩⟩
          refine ih hq ht ?_ ?_
          · rw [hpath, List.length_append, List.length_singleton]
            omega
          · rw [hpath]
            refine List.isChain_append.2 ⟨hchain, List.isChain_singleton _, fun x hx y hy => ?_⟩
            rw [List.getLast?_concat] at hx
            obtain rfl := Option.some.inj hx
            obtain rfl := Option.some.inj hy
            exact hdepends
      rw [List.map_id'] at hbelow
      rw [visit_of_fresh hmark]
      exact hbelow.leave hp

theorem advances_search (batch : List Proposal) :
    Advances batch .fresh (batch.map Proposal.proposalId) (search batch) := by
  refine advances_foldlM batch Search.isSound_fresh fun p hp t ht htp => ?_
  refine advances_visit hp ht ?_ ?_
  · omega
  · rw [htp]
    exact List.isChain_singleton _

/-! ## Orders -/

theorem duplicate?_eq_none_iff (seen ids : List Text) :
    duplicate? seen ids = none ↔ ids.Nodup ∧ ∀ id ∈ ids, id ∉ seen := by
  induction ids generalizing seen with
  | nil => simp [duplicate?]
  | cons id rest ih =>
    rw [duplicate?]
    by_cases h : id ∈ seen
    · simp [h]
    · rw [if_neg (by simpa using h), ih, List.nodup_cons]
      constructor
      · rintro ⟨hnodup, hnew⟩
        have hid : id ∉ rest := fun hc => hnew id hc List.mem_cons_self
        exact ⟨⟨hid, hnodup⟩, List.forall_mem_cons.2 ⟨h, fun x hx hc => hnew x hx (List.mem_cons_of_mem _ hc)⟩⟩
      · rintro ⟨⟨hid, hnodup⟩, hnew⟩
        refine ⟨hnodup, fun x hx hc => ?_⟩
        rcases List.mem_cons.1 hc with rfl | hc
        · exact hid hx
        · exact hnew x (List.mem_cons_of_mem _ hx) hc

theorem Search.IsSound.perm {s : Search Proposal Text} (h : s.IsSound batch)
    (hids : (batch.map Proposal.proposalId).Nodup)
    (hplaced : ∀ id ∈ batch.map Proposal.proposalId, Holds batch id → Holds s.ordered id) :
    s.ordered.Perm batch := by
  refine (List.perm_ext_iff_of_nodup (h.ordered_nodup.of_map _) (hids.of_map _)).2 fun p =>
    ⟨fun hp => h.ordered_subset hp, fun hp => ?_⟩
  obtain ⟨q, hq, hid⟩ := hplaced p.proposalId (List.mem_map_of_mem hp) ⟨p, hp, rfl⟩
  obtain rfl := eq_of_proposalId hids (h.ordered_subset hq) hp hid
  exact hq

/-- The three ways in which the order of a batch can come out. -/
theorem order_cases (batch : List Proposal) :
    (¬(batch.map Proposal.proposalId).Nodup ∧ ∃ fault, order batch = .error (.invalidProposal fault))
    ∨ ((batch.map Proposal.proposalId).Nodup ∧ ∃ ids, order batch = .error (.dependencyCycle (ids.map .str))
      ∧ IsRing batch ids)
    ∨ ((batch.map Proposal.proposalId).Nodup ∧ ∃ ordered, order batch = .ok ordered ∧ ordered.Perm batch
      ∧ InOrder batch ordered) := by
  have hdup := duplicate?_eq_none_iff [] (batch.map Proposal.proposalId)
  unfold order arrange
  cases hd : duplicate? [] (batch.map Proposal.proposalId) with
  | some id =>
    refine .inl ⟨fun hnodup => ?_, .duplicate (.str id), ?_⟩
    · rw [hd] at hdup
      cases hdup.2 ⟨hnodup, by simp⟩
    · rfl
  | none =>
    have hids := (hdup.1 hd).1
    have hsearch := advances_search batch
    cases hs : search batch with
    | error e =>
      rw [hs] at hsearch
      cases e with
      | ring ids => exact .inr (.inl ⟨hids, ids, rfl, hsearch⟩)
      | duplicate id => exact hsearch.elim
      | untold f => exact hsearch.elim
    | ok s =>
      rw [hs] at hsearch
      obtain ⟨hsound, -, -, hplaced⟩ := hsearch
      exact .inr (.inr ⟨hids, s.ordered, rfl, hsound.perm hids hplaced, hsound.inOrder⟩)

theorem of_order_eq_ok {batch ordered : List Proposal} (h : order batch = .ok ordered) :
    (batch.map Proposal.proposalId).Nodup ∧ ordered.Perm batch ∧ InOrder batch ordered := by
  rcases order_cases batch with ⟨-, fault, ho⟩ | ⟨-, ids, ho, -⟩ | ⟨hids, ordered', ho, hrest⟩
  · cases h.symm.trans ho
  · cases h.symm.trans ho
  · cases h.symm.trans ho
    exact ⟨hids, hrest⟩

theorem exists_order {batch : List Proposal} (hids : (batch.map Proposal.proposalId).Nodup)
    (hacyclic : ¬HasCycle batch) :
    ∃ ordered, order batch = .ok ordered := by
  rcases order_cases batch with ⟨hdup, -⟩ | ⟨-, ids, -, hring⟩ | ⟨-, ordered, ho, -⟩
  · exact absurd hids hdup
  · exact absurd hring.hasCycle hacyclic
  · exact ⟨ordered, ho⟩

/-- **What the order of a batch comes to.**  A batch is refused as such exactly if an id comes twice in it.  Otherwise
it is refused for a ring exactly if some proposal has to come before itself, and then a ring is told; or it is put in
an order in which every proposal stands after those of the batch that it depends on, whatever else it names. -/
theorem order_exact (batch : List Proposal) :
    ((∃ fault, order batch = .error (.invalidProposal fault)) ↔ ¬(batch.map Proposal.proposalId).Nodup)
    ∧ ((∃ cycle, order batch = .error (.dependencyCycle cycle)) ↔ (batch.map Proposal.proposalId).Nodup
      ∧ HasCycle batch)
    ∧ (∀ cycle, order batch = .error (.dependencyCycle cycle) → ∃ ids : List Text, cycle = ids.map .str
      ∧ IsRing batch ids)
    ∧ ((∃ ordered, order batch = .ok ordered) ↔ (batch.map Proposal.proposalId).Nodup ∧ ¬HasCycle batch)
    ∧ ∀ ordered, order batch = .ok ordered → ordered.Perm batch ∧ InOrder batch ordered := by
  rcases order_cases batch with ⟨hids, fault, ho⟩ | ⟨hids, ids, ho, hring⟩ | ⟨hids, ordered, ho, hperm, horder⟩
  · simp [ho, hids]
  · have hcycle := hring.hasCycle
    refine ⟨by simp [ho, hids], by simp [ho, hids, hcycle], fun cycle hc => ⟨ids, ?_, hring⟩, by simp [ho, hcycle],
      fun ordered hc => ?_⟩
    · rw [ho] at hc
      cases hc
      rfl
    · rw [ho] at hc
      cases hc
  · have hcycle := horder.not_hasCycle hperm hids
    refine ⟨by simp [ho, hids], by simp [ho, hcycle], fun cycle hc => ?_, by simp [ho, hids, hcycle],
      fun ordered' hc => ?_⟩
    · rw [ho] at hc
      cases hc
    · rw [ho] at hc
      cases hc
      exact ⟨hperm, horder⟩

end PolicyGates.Batch
