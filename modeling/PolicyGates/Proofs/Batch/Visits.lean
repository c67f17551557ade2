import PolicyGates.Proofs.Batch.Stability
/-!
# What happens in a search

A search goes along what proposals depend on, which may lead it around in circles, so nothing about its input says
that it ends.  It does because a proposal is entered only while it has no mark, and never loses the mark it then gets.

Here the search is written out visit by visit, with all its moments and with no bound on how deep it goes (`Visits`).
At each of these moments marks, path and places are in step with each other and with the visits that are in progress
(`Visits.isInStep`), and what a proposal depends on is gone through for its first mark only (`Visits.tallies`).  That
the search of a batch can be written out in this way at all says that it ends (`exists_visits`): `search_account`.
-/
namespace PolicyGates.Batch

/-! ## Visits, one after the other -/

/-- A moment of a search.  A visit is called, and may come back, while the visits of its callers are in progress, the
outermost of which comes first. -/
inductive Moment where
  | called (callers : List Proposal) (p : Proposal) (s : Search Proposal Text)
  /-- The search starts to go through what a proposal depends on. -/
  | scanned (p : Proposal)
  | returned (callers : List Proposal) (p : Proposal) (s : Search Proposal Text)

/-- What a proposal depends on, as far as it is in the batch. -/
def dependencies (batch : List Proposal) (p : Proposal) : List Proposal := p.dependsOn.filterMap (find? batch)

/-- Several proposals are visited, one after the other, while the visits of `callers` are in progress: the moments of
that, and what it comes to.  A ring ends all visits that are in progress. -/
inductive Visits (batch : List Proposal) : (callers ps : List Proposal) → Search Proposal Text → List Moment →
    Except (Disorder Text Empty) (Search Proposal Text) → Prop
  | nil {callers : List Proposal} {s : Search Proposal Text} : Visits batch callers [] s [] (.ok s)
  | done {callers ps : List Proposal} {p : Proposal} {s : Search Proposal Text} {after : List Moment}
      {outcome : Except (Disorder Text Empty) (Search Proposal Text)} (mark : s.mark? p.proposalId = some .done)
      (rest : Visits batch callers ps s after outcome) :
      Visits batch callers (p :: ps) s (.called callers p s :: .returned callers p s :: after) outcome
  | ring {callers ps : List Proposal} {p : Proposal} {s : Search Proposal Text}
    (mark : s.mark? p.proposalId = some .visiting) :
      Visits batch callers (p :: ps) s [.called callers p s] (.error (.ring (s.ring p.proposalId)))
  | entered {callers ps : List Proposal} {p : Proposal} {s t : Search Proposal Text} {within after : List Moment}
      {outcome : Except (Disorder Text Empty) (Search Proposal Text)} (mark : s.mark? p.proposalId = none)
      (deeper : Visits batch (callers ++ [p]) (dependencies batch p) (s.enter p.proposalId) within (.ok t))
      (rest : Visits batch callers ps (t.leave p) after outcome) :
      Visits batch callers (p :: ps) s
        (.called callers p s :: .scanned p :: within ++ .returned callers p (t.leave p) :: after) outcome
  | stopped {callers ps : List Proposal} {p : Proposal} {s : Search Proposal Text} {within : List Moment}
      {e : Disorder Text Empty} (mark : s.mark? p.proposalId = none)
      (deeper : Visits batch (callers ++ [p]) (dependencies batch p) (s.enter p.proposalId) within (.error e)) :
      Visits batch callers (p :: ps) s (.called callers p s :: .scanned p :: within) (.error e)

/-- The visits to several proposals, each at most so many levels deep. -/
def visitAll (batch : List Proposal) (depth : Nat) (s : Search Proposal Text) (ps : List Proposal) :
    Except (Disorder Text Empty) (Search Proposal Text) :=
  ps.foldlM (fun s p => visit batch depth p s) s

variable {batch callers ps : List Proposal} {s t : Search Proposal Text} {p : Proposal} {depth : Nat} {ms : List Moment}
  {outcome : Except (Disorder Text Empty) (Search Proposal Text)}

theorem visitAll_cons (batch : List Proposal) (depth : Nat) (s : Search Proposal Text) (p : Proposal)
    (ps : List Proposal) :
    visitAll batch depth s (p :: ps) = (visit batch depth p s).bind (visitAll batch depth · ps) := List.foldlM_cons

theorem visit_of_visiting (h : s.mark? p.proposalId = some .visiting) :
    visit batch (depth + 1) p s = .error (.ring (s.ring p.proposalId)) := by
  rw [visit, show (Member.id p : Text) = p.proposalId from rfl, h]

/-- **A new proposal is entered, everything below it is visited, and it is left.** -/
theorem visit_of_new (h : s.mark? p.proposalId = none) :
    visit batch (depth + 1) p s = (visitAll batch depth (s.enter p.proposalId) (dependencies batch p)).map
      (fun t => t.leave p) := by
  rw [visit_of_fresh h, visitAll, dependencies, List.foldlM_filterMap]
  refine congrArg (Except.map _) (congrArg (List.foldlM · _ p.dependsOn) ?_)
  funext t id
  unfold descend
  cases find? batch id <;> rfl

/-- **Visits that were written out are those of the search**, as long as it may go deep enough. -/
theorem Visits.exists_depth (h : Visits batch callers ps s ms outcome) :
    ∃ d, ∀ depth, d ≤ depth → visitAll batch depth s ps = outcome := by
  induction h with
  | nil => exact ⟨0, fun _ _ => rfl⟩
  | done mark rest ih =>
    obtain ⟨d, hd⟩ := ih
    refine ⟨d, fun depth hdepth => ?_⟩
    rw [visitAll_cons, visit_of_done mark]
    exact hd depth hdepth
  | ring mark =>
    refine ⟨1, fun depth hdepth => ?_⟩
    obtain ⟨depth, rfl⟩ := Nat.exists_eq_add_of_le' hdepth
    rw [visitAll_cons, visit_of_visiting mark]
    rfl
  | entered mark deeper rest ihd ihr =>
    obtain ⟨d, hd⟩ := ihd
    obtain ⟨r, hr⟩ := ihr
    refine ⟨max d r + 1, fun depth hdepth => ?_⟩
    obtain ⟨depth, rfl⟩ := Nat.exists_eq_add_of_le' (Nat.le_trans (Nat.le_add_left 1 _) hdepth)
    rw [visitAll_cons, visit_of_new mark, hd depth (by omega)]
    exact hr (depth + 1) (by omega)
  | stopped mark deeper ih =>
    obtain ⟨d, hd⟩ := ih
    refine ⟨d + 1, fun depth hdepth => ?_⟩
    obtain ⟨depth, rfl⟩ := Nat.exists_eq_add_of_le' (Nat.le_trans (Nat.le_add_left 1 _) hdepth)
    rw [visitAll_cons, visit_of_new mark, hd depth (by omega)]
    rfl

/-! ## What is in step -/

namespace Search

/-- The proposals are in the batch, and the search can go down to each of them from where it is. -/
def LeadsTo (batch : List Proposal) (s : Search Proposal Text) (ps : List Proposal) : Prop :=
  ∀ p ∈ ps, p ∈ batch ∧ (s.path ++ [p.proposalId]).IsChain (Depends batch)

/-- Marks, path and places are in step, and the path is that of the visits in progress. -/
structure IsBelow (batch callers : List Proposal) (s : Search Proposal Text) : Prop extends s.IsSound batch where
  path_eq : s.path = callers.map Proposal.proposalId

theorem leadsTo_fresh (batch : List Proposal) : (fresh : Search Proposal Text).LeadsTo batch batch :=
  fun _ hp => ⟨hp, List.isChain_singleton _⟩

theorem isBelow_fresh (batch : List Proposal) : IsBelow batch [] fresh := ⟨isSound_fresh, rfl⟩

theorem LeadsTo.of_path (h : s.LeadsTo batch ps) (hpath : t.path = s.path) : t.LeadsTo batch ps :=
  fun p hp => hpath ▸ h p hp

theorem IsBelow.enter (h : s.IsBelow batch callers) (hmark : s.mark? p.proposalId = none) (hp : p ∈ batch)
    (hchain : (s.path ++ [p.proposalId]).IsChain (Depends batch)) :
    (s.enter p.proposalId).IsBelow batch (callers ++ [p]) := by
  refine ⟨h.toIsSound.enter hmark ⟨p, hp, rfl⟩ hchain, ?_⟩
  show s.path ++ [p.proposalId] = _
  rw [h.path_eq, List.map_append, List.map_singleton]

theorem leadsTo_dependencies (hp : p ∈ batch) (hchain : (s.path ++ [p.proposalId]).IsChain (Depends batch)) :
    (s.enter p.proposalId).LeadsTo batch (dependencies batch p) := by
  intro q hq
  obtain ⟨id, hid, hfind⟩ := List.mem_filterMap.1 hq
  have hqid : q.proposalId = id := beq_iff_eq.1 (List.find?_some (p := fun q : Proposal => q.proposalId == id) hfind)
  have hbatch : q ∈ batch := List.mem_of_find?_eq_some hfind
  refine ⟨hbatch, List.isChain_append.2 ⟨hchain, List.isChain_singleton _, fun x hx y hy => ?_⟩⟩
  change x ∈ (s.path ++ [p.proposalId]).getLast? at hx
  rw [List.getLast?_concat] at hx
  obtain rfl := Option.some.inj hx
  obtain rfl := Option.some.inj hy
  exact ⟨⟨p, hp, rfl, hqid ▸ hid⟩, ⟨q, hbatch, rfl⟩⟩

theorem IsBelow.length_le (h : s.IsBelow batch callers) : callers.length ≤ batch.length := by
  have hle := h.toIsSound.length_path_le
  rwa [h.path_eq, List.length_map] at hle

theorem IsSound.mem_ordered_iff (h : s.IsSound batch) (hids : (batch.map Proposal.proposalId).Nodup) (p : Proposal) :
    p ∈ s.ordered ↔ p ∈ batch ∧ s.mark? p.proposalId = some .done := by
  rw [h.done]
  refine ⟨fun hp => ⟨h.ordered_subset hp, p, hp, rfl⟩, fun ⟨hp, q, hq, hid⟩ => ?_⟩
  rwa [eq_of_proposalId hids hp (h.ordered_subset hq) hid.symm]

end Search

/-- Whenever a visit begins or comes back, the search is below its callers. -/
def Moment.IsInStep (batch : List Proposal) : Moment → Prop
  | .called callers _ s | .returned callers _ s => s.IsBelow batch callers
  | .scanned _ => True

/-- Once everything below a proposal is visited and it is left, the search is where it was before. -/
theorem Visits.isBelow_leave {within : List Moment} (mark : s.mark? p.proposalId = none)
    (deeper : Visits batch (callers ++ [p]) (dependencies batch p) (s.enter p.proposalId) within (.ok t))
    (hs : s.IsBelow batch callers) (hp : p ∈ batch) (hchain : (s.path ++ [p.proposalId]).IsChain (Depends batch)) :
    (t.leave p).IsBelow batch callers ∧ (t.leave p).path = s.path := by
  obtain ⟨d, hd⟩ := deeper.exists_depth
  have hdepth : batch.length < max d (batch.length + 1) + 1 + s.path.length := by omega
  have hvisit := advances_visit hp hs.toIsSound hdepth hchain
  rw [visit_of_new mark, hd _ (Nat.le_max_left _ _)] at hvisit
  obtain ⟨hsound, hpath, -, -⟩ := hvisit
  exact ⟨⟨hsound, hpath.trans hs.path_eq⟩, hpath⟩

/-- **At every moment of the visits everything is in step**, if it was when they began. -/
theorem Visits.isInStep (h : Visits batch callers ps s ms outcome) (hs : s.IsBelow batch callers)
    (hps : s.LeadsTo batch ps) :
    ∀ m ∈ ms, m.IsInStep batch := by
  induction h with
  | nil => exact List.forall_mem_nil _
  | done mark rest ih =>
    obtain ⟨-, hrest⟩ := List.forall_mem_cons.1 hps
    exact List.forall_mem_cons.2 ⟨hs, List.forall_mem_cons.2 ⟨hs, ih hs hrest⟩⟩
  | ring mark => exact List.forall_mem_singleton.2 hs
  | entered mark deeper rest ihd ihr =>
    obtain ⟨⟨hp, hchain⟩, hrest⟩ := List.forall_mem_cons.1 hps
    obtain ⟨hleft, hpath⟩ := deeper.isBelow_leave mark hs hp hchain
    refine List.forall_mem_append.2 ⟨List.forall_mem_cons.2 ⟨hs, List.forall_mem_cons.2 ⟨trivial, ?_⟩⟩,
      List.forall_mem_cons.2 ⟨hleft, ?_⟩⟩
    · exact ihd (hs.enter mark hp hchain) (Search.leadsTo_dependencies hp hchain)
    · exact ihr hleft (Search.LeadsTo.of_path hrest hpath)
  | stopped mark deeper ih =>
    obtain ⟨hp, hchain⟩ := (List.forall_mem_cons.1 hps).1
    refine List.forall_mem_cons.2 ⟨hs, List.forall_mem_cons.2 ⟨trivial, ?_⟩⟩
    exact ih (hs.enter mark hp hchain) (Search.leadsTo_dependencies hp hchain)

/-! ## What is gone through -/

/-- The ids of the proposals whose dependencies are gone through, in the order in which that happens. -/
def scans (ms : List Moment) : List Text :=
  ms.filterMap fun
    | .scanned p => some p.proposalId
    | _ => none

/-- One if the search has entered the proposal with an id. -/
def Search.entries (s : Search Proposal Text) (id : Text) : Nat := if s.mark? id = none then 0 else 1

namespace Search

theorem entries_le_one (s : Search Proposal Text) (id : Text) : s.entries id ≤ 1 := by
  unfold entries
  split <;> omega

theorem entries_of_new (h : s.mark? p.proposalId = none) : s.entries p.proposalId = 0 := if_pos h

theorem entries_enter (s : Search Proposal Text) (id id' : Text) :
    (s.enter id).entries id' = if id' = id then 1 else s.entries id' := by
  unfold entries
  rw [mark?_enter]
  by_cases h : id' = id <;> simp [h]

theorem entries_leave (s : Search Proposal Text) (p : Proposal) (id : Text) :
    (s.leave p).entries id = if id = p.proposalId then 1 else s.entries id := by
  unfold entries
  rw [mark?_leave]
  by_cases h : id = p.proposalId <;> simp [h]

end Search

/-- What is gone through for a proposal adds up with the marks: once for each that it has got. -/
def Tallies (s : Search Proposal Text) (ms : List Moment) (id : Text) :
    Except (Disorder Text Empty) (Search Proposal Text) → Prop
  | .ok t => (scans ms).count id + s.entries id = t.entries id
  | .error _ => (scans ms).count id + s.entries id ≤ 1

/-- **What a proposal depends on is gone through when it gets its first mark**, and at no other time. -/
theorem Visits.tallies (h : Visits batch callers ps s ms outcome) (id : Text) : Tallies s ms id outcome := by
  induction h with
  | nil => exact Nat.zero_add _
  | done mark rest ih => exact ih
  | @ring callers ps p s mark => exact (Nat.zero_add _).trans_le (s.entries_le_one id)
  | @entered callers ps p s t within after outcome mark deeper rest ihd ihr =>
    have hnew := Search.entries_of_new mark
    have hbound := t.entries_le_one id
    have hscans : scans (.called callers p s :: .scanned p :: within ++ .returned callers p (t.leave p) :: after)
        = p.proposalId :: (scans within ++ scans after) := by simp [scans]
    have hdeeper : (scans within).count id + (s.enter p.proposalId).entries id = t.entries id := ihd
    rw [Search.entries_enter] at hdeeper
    unfold Tallies at ihr ⊢
    simp only [hscans, List.count_cons, List.count_append, Search.entries_leave, beq_iff_eq] at ihr ⊢
    by_cases hid : id = p.proposalId
    · subst hid
      cases outcome <;> simp only [if_true] at hdeeper ihr ⊢ <;> omega
    · rw [if_neg hid] at hdeeper
      cases outcome <;> simp only [if_neg hid, if_neg (Ne.symm hid)] at ihr ⊢ <;> omega
  | @stopped callers ps p s within e mark deeper ih =>
    have hnew := Search.entries_of_new mark
    have hscans : scans (.called callers p s :: .scanned p :: within) = p.proposalId :: scans within := rfl
    have hdeeper : (scans within).count id + (s.enter p.proposalId).entries id ≤ 1 := ih
    rw [Search.entries_enter] at hdeeper
    show (scans _).count id + s.entries id ≤ 1
    rw [hscans, List.count_cons]
    by_cases hid : id = p.proposalId
    · subst hid
      simp only [if_true, beq_self_eq_true] at hdeeper ⊢
      omega
    · rw [if_neg hid] at hdeeper
      simpa [Ne.symm hid] using hdeeper

theorem Visits.nodup_scans (h : Visits batch callers ps .fresh ms outcome) : (scans ms).Nodup := by
  refine List.nodup_iff_count_le_one.2 fun id => ?_
  have htally := h.tallies id
  cases outcome with
  | ok t => exact (Nat.le_add_right _ _).trans (Nat.le_of_eq htally |>.trans (t.entries_le_one id))
  | error e => exact (Nat.le_add_right _ _).trans htally

/-! ## The search ends -/

/-- **The visits of the search can be written out**, as long as there is depth left for every proposal that is not on
the path yet. -/
theorem exists_visits (callers : List Proposal) (hs : s.IsSound batch) (hps : s.LeadsTo batch ps)
    (hdepth : batch.length < depth + s.path.length) :
    ∃ ms, Visits batch callers ps s ms (visitAll batch depth s ps) := by
  induction depth generalizing callers ps s with
  | zero =>
    have := hs.length_path_le
    omega
  | succ depth ih =>
    induction ps generalizing s with
    | nil => exact ⟨_, .nil⟩
    | cons p ps ihps =>
      obtain ⟨⟨hp, hchain⟩, hrest⟩ := List.forall_mem_cons.1 hps
      rw [visitAll_cons]
      cases hmark : s.mark? p.proposalId with
      | some m =>
        cases m with
        | done =>
          obtain ⟨after, hafter⟩ := ihps hs hrest hdepth
          rw [visit_of_done hmark]
          exact ⟨_, .done hmark hafter⟩
        | visiting =>
          rw [visit_of_visiting hmark]
          exact ⟨_, .ring hmark⟩
      | none =>
        have hbelow : batch.length < depth + (s.enter p.proposalId).path.length := by
          show _ < depth + (s.path ++ [p.proposalId]).length
          rw [List.length_append, List.length_singleton]
          omega
        have hvisit := advances_visit hp hs hdepth hchain
        obtain ⟨within, hwithin⟩ :=
          ih (callers ++ [p]) (hs.enter hmark ⟨p, hp, rfl⟩ hchain) (Search.leadsTo_dependencies hp hchain) hbelow
        rw [visit_of_new hmark] at hvisit ⊢
        cases hdeeper : visitAll batch depth (s.enter p.proposalId) (dependencies batch p) with
        | error e =>
          rw [hdeeper] at hwithin
          exact ⟨_, .stopped hmark hwithin⟩
        | ok t =>
          rw [hdeeper] at hvisit hwithin
          obtain ⟨hsound, hpath, -, -⟩ := hvisit
          obtain ⟨after, hafter⟩ := ihps hsound (Search.LeadsTo.of_path hrest hpath) (hpath ▸ hdepth)
          exact ⟨_, .entered hmark hwithin hafter⟩

theorem order_of_nodup (hids : (batch.map Proposal.proposalId).Nodup) :
    order batch = ((search batch).map Search.ordered).mapError Disorder.error := by
  unfold order arrange
  rw [show batch.map Member.id = batch.map Proposal.proposalId from rfl,
    (duplicate?_eq_none_iff [] _).2 ⟨hids, fun _ _ => List.not_mem_nil⟩]

/-- **The account of a search.**  The order of a batch in which no id comes twice is what its search comes to.  That
search ends, whatever the proposals depend on: it can be written out with no bound on how deep it goes, and comes to
the same whenever it is. At each moment when a visit begins or comes back, the path has exactly the ids that are
marked as being visited, which are those of the visits in progress in the order of their calls; none comes twice, and
each depends on the next.  The proposals that have their places are exactly those that are marked as done; none comes
twice, and each stands after what it depends on in the batch.  So the visits are never nested deeper than there are
proposals, and one more, and what a proposal depends on is gone through once at most. -/
theorem search_account (hids : (batch.map Proposal.proposalId).Nodup) :
    order batch = ((search batch).map Search.ordered).mapError Disorder.error
    ∧ (∃ ms, Visits batch [] batch .fresh ms (search batch))
    ∧ ∀ ms outcome, Visits batch [] batch .fresh ms outcome → outcome = search batch
      ∧ (∀ callers p s, .called callers p s ∈ ms ∨ .returned callers p s ∈ ms →
        (s.path = callers.map Proposal.proposalId ∧ (∀ id, id ∈ s.path ↔ s.mark? id = some .visiting) ∧ s.path.Nodup
          ∧ s.path.IsChain (Depends batch))
        ∧ (s.ordered.Nodup ∧ (∀ p, p ∈ s.ordered ↔ p ∈ batch ∧ s.mark? p.proposalId = some .done)
          ∧ InOrder batch s.ordered)
        ∧ callers.length + 1 ≤ batch.length + 1)
      ∧ (scans ms).Nodup := by
  have hfresh := Search.isBelow_fresh batch
  have hleads := Search.leadsTo_fresh batch
  have hdepth : batch.length < batch.length + 1 + (Search.fresh : Search Proposal Text).path.length := by omega
  obtain ⟨written, hwritten⟩ := exists_visits [] hfresh.toIsSound hleads hdepth
  refine ⟨order_of_nodup hids, ⟨written, hwritten⟩, fun ms outcome h => ⟨?_, fun callers p s hm => ?_, h.nodup_scans⟩⟩
  · obtain ⟨d, hd⟩ := h.exists_depth
    obtain ⟨d', hd'⟩ := hwritten.exists_depth
    exact (hd (max d d') (Nat.le_max_left _ _)).symm.trans (hd' _ (Nat.le_max_right _ _))
  · have hbelow : s.IsBelow batch callers := by
      rcases hm with hm | hm
      · exact h.isInStep hfresh hleads _ hm
      · exact h.isInStep hfresh hleads _ hm
    have hsound := hbelow.toIsSound
    refine ⟨⟨hbelow.path_eq, fun id => (hsound.visiting id).symm, hsound.path_nodup, hsound.path_chain⟩, ?_, ?_⟩
    · exact ⟨hsound.ordered_nodup.of_map _, hsound.mem_ordered_iff hids, hsound.inOrder⟩
    · exact Nat.succ_le_succ hbelow.length_le

/-- Two proposals that depend on each other, and one of them on something that is not in the batch: at the third call
the search is back at the first. -/
theorem ring_accounted :
    let first : Proposal := .ofValue
      (.obj [("proposalId", .str "first"), ("dependsOn", .arr [.str "elsewhere", .str "second"])])
    let second : Proposal := .ofValue (.obj [("proposalId", .str "second"), ("dependsOn", .arr [.str "first"])])
    let ring : List Text := ["first", "second", "first"]
    ([first, second].map Proposal.proposalId).Nodup
      ∧ ∃ ms s, Visits [first, second] [] [first, second] .fresh ms (.error (.ring ring))
        ∧ search [first, second] = .error (.ring ring)
        ∧ .called [first, second] first s ∈ ms ∧ s.path = ring.dropLast ∧ scans ms = ring.dropLast
        ∧ (scans ms).Nodup := by
  intro first second ring
  have hids : ([first, second].map Proposal.proposalId).Nodup := by decide
  have hfirst : dependencies [first, second] first = [second] := rfl
  have hsecond : dependencies [first, second] second = [first] := rfl
  let deepest : Search Proposal Text := (Search.fresh.enter first.proposalId).enter second.proposalId
  have hback : Visits [first, second] [first, second] [first] deepest [.called [first, second] first deepest]
      (.error (.ring (deepest.ring first.proposalId))) := .ring rfl
  rw [← hsecond] at hback
  have hdown : Visits [first, second] [first] [second] (Search.fresh.enter first.proposalId) _ _ := .stopped rfl hback
  rw [← hfirst] at hdown
  have hsearch : Visits [first, second] [] [first, second] .fresh _ _ := .stopped rfl hdown
  obtain ⟨-, -, haccount⟩ := search_account hids
  obtain ⟨hended, hstep, hscans⟩ := haccount _ _ hsearch
  refine ⟨hids, _, deepest, hsearch, hended.symm, ?_, ?_, rfl, hscans⟩
  · exact List.mem_of_getElem? (i := 4) rfl
  · exact (hstep _ first deepest (.inl (List.mem_of_getElem? (i := 4) rfl))).1.1

end PolicyGates.Batch
