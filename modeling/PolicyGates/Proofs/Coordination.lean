import PolicyGates.Evaluation
import PolicyGates.Proofs.Batch.Order
import PolicyGates.Proofs.Scheduler.Records
import Mathlib.Data.Fintype.EquivFin
/-!
# What a coordinated batch comes to

The jobs of a batch in order await only earlier ones (`awaitEarlier_jobs`), so the schedule concludes each of them
once, after all that it awaits, and leaves the record of each in the log.  From this, what a batch comes to that can
be put in order (`coordinate_exact`): a decision on every proposal, and the same decisions in the log, where what a
proposal depends on stands before it.
-/
namespace PolicyGates.Registry

open Scheduler

/-! ## Documents -/

/-- The documents hold these proposals. -/
def Hold (documents : List Value) (proposals : List Proposal) : Prop :=
  List.Forall₂ (fun v p => Proposal.create v = .ok p) documents proposals

theorem readBatch_eq_ok_iff {documents : List Value} {proposals : List Proposal} :
    readBatch documents = .ok proposals ↔ Hold documents proposals := by
  unfold Hold
  induction documents generalizing proposals with
  | nil =>
    rw [readBatch, List.forall₂_nil_left_iff]
    exact ⟨fun h => (Except.ok.inj h).symm, fun h => by rw [h]⟩
  | cons v rest ih =>
    rw [readBatch, List.forall₂_cons_left_iff]
    cases hp : Proposal.create v with
    | error e => exact ⟨fun h => (by cases h), fun ⟨p, ps, hcreate, _⟩ => (by cases hcreate)⟩
    | ok p =>
      cases hps : readBatch rest with
      | error e =>
        refine ⟨fun h => (by cases h), ?_⟩
        rintro ⟨q, ps, -, hrest, -⟩
        rw [← ih, hps] at hrest
        cases hrest
      | ok ps =>
        constructor
        · intro h
          cases h
          exact ⟨p, ps, rfl, ih.1 hps, rfl⟩
        · rintro ⟨q, qs, hcreate, hrest, rfl⟩
          cases hcreate
          rw [← ih, hps] at hrest
          cases hrest
          rfl

/-! ## Jobs -/

theorem idxOf?_of_mem {α : Type} [BEq α] [LawfulBEq α] {a : α} {l : List α} (h : a ∈ l) :
    l.idxOf? a = some (l.idxOf a) := by
  obtain ⟨i, hi⟩ := Option.isSome_iff_exists.1 (List.isSome_idxOf?.2 h)
  rw [List.idxOf_eq_getD_idxOf?, hi]
  rfl

/-- The job of a proposal in a batch. -/
def jobIn (reg : Registry) (ordered : List Proposal) (mode : Option Mode) (limit : Option TimeLimit) (p : Proposal) :
    Job :=
  ⟨p, mode.getD reg.settings.mode, limit, p.dependsOn.filterMap ((ordered.map Proposal.proposalId).idxOf? ·)⟩

/-- The number of the job of a proposal. -/
def numberOf (ordered : List Proposal) (p : Proposal) : Nat := (ordered.map Proposal.proposalId).idxOf p.proposalId

variable {reg : Registry} {proposals ordered : List Proposal} {mode : Option Mode} {limit : Option TimeLimit}
  {p q : Proposal}

theorem jobsOf_eq {timeoutMs : Value} (ordered : List Proposal) (mode : Option Mode)
    (hlimit : TimeLimit.ofValue (timeoutMs.orElse (.ofOption .num reg.settings.timeoutMs)) = .ok limit) :
    reg.jobsOf ordered mode timeoutMs = .ok (ordered.map (reg.jobIn ordered mode limit)) := by
  unfold jobsOf job
  rw [hlimit]
  exact List.mapM_pure

theorem numberOf_lt (hp : p ∈ ordered) : numberOf ordered p < ordered.length := by
  have := List.idxOf_lt_length_of_mem (List.mem_map_of_mem (f := Proposal.proposalId) hp)
  rwa [List.length_map] at this

theorem getElem?_numberOf (hids : (ordered.map Proposal.proposalId).Nodup) (hp : p ∈ ordered) :
    ordered[numberOf ordered p]? = some p := by
  have hlt := numberOf_lt hp
  have hid := List.getElem?_idxOf (List.mem_map_of_mem (f := Proposal.proposalId) hp)
  rw [List.getElem?_map, show List.idxOf _ _ = numberOf ordered p from rfl, List.getElem?_eq_getElem hlt] at hid
  rw [List.getElem?_eq_getElem hlt]
  exact congrArg some (Batch.eq_of_proposalId hids (List.getElem_mem hlt) hp (Option.some.inj hid))

theorem numberOf_injective (hids : (ordered.map Proposal.proposalId).Nodup) (hp : p ∈ ordered) (hq : q ∈ ordered)
    (h : numberOf ordered p = numberOf ordered q) : p = q := by
  have hpq := getElem?_numberOf hids hp
  rw [h, getElem?_numberOf hids hq] at hpq
  exact (Option.some.inj hpq).symm

theorem job_numberOf (hids : (ordered.map Proposal.proposalId).Nodup) (hp : p ∈ ordered) :
    (ordered.map (reg.jobIn ordered mode limit))[numberOf ordered p]? = some (reg.jobIn ordered mode limit p) := by
  rw [List.getElem?_map, getElem?_numberOf hids hp]
  rfl

theorem numberOf_of_getElem? (hids : (ordered.map Proposal.proposalId).Nodup) {n : Nat} (hp : ordered[n]? = some p) :
    p ∈ ordered ∧ numberOf ordered p = n := by
  have hmem : p ∈ ordered := List.mem_of_getElem? hp
  exact ⟨hmem, (List.getElem?_inj (numberOf_lt hmem) (List.Nodup.of_map _ hids)).1
    ((getElem?_numberOf hids hmem).trans hp.symm)⟩

theorem numberOf_mem_awaits (hq : q ∈ ordered) (hdepends : q.proposalId ∈ p.dependsOn) :
    numberOf ordered q ∈ (reg.jobIn ordered mode limit p).awaits :=
  List.mem_filterMap.2 ⟨q.proposalId, hdepends, idxOf?_of_mem (List.mem_map_of_mem hq)⟩

theorem exists_of_mem_awaits {n : Nat} (h : n ∈ (reg.jobIn ordered mode limit p).awaits) :
    ∃ q ∈ ordered, q.proposalId ∈ p.dependsOn ∧ n = numberOf ordered q := by
  obtain ⟨id, hid, hidx⟩ := List.mem_filterMap.1 h
  have hmem : id ∈ ordered.map Proposal.proposalId := List.isSome_idxOf?.1 (by rw [hidx]; rfl)
  obtain rfl := Option.some.inj (hidx.symm.trans (idxOf?_of_mem hmem))
  obtain ⟨q, hq, rfl⟩ := List.mem_map.1 hmem
  exact ⟨q, hq, hid, rfl⟩

/-- **The jobs of a batch in order await only earlier ones.** -/
theorem awaitEarlier_jobs (hids : (proposals.map Proposal.proposalId).Nodup) (hperm : ordered.Perm proposals)
    (horder : Batch.InOrder proposals ordered) : AwaitEarlier (ordered.map (reg.jobIn ordered mode limit)) := by
  have hids' : (ordered.map Proposal.proposalId).Nodup := (hperm.map _).nodup_iff.2 hids
  intro n j hj a ha
  rw [List.getElem?_map, Option.map_eq_some_iff] at hj
  obtain ⟨p, hp, rfl⟩ := hj
  obtain ⟨q, hq, hdepends, rfl⟩ := exists_of_mem_awaits ha
  obtain ⟨hmem, hn⟩ := numberOf_of_getElem? hids' hp
  rw [← hn]
  exact horder.idxOf_lt hperm hids ⟨⟨p, hperm.subset hmem, rfl, hdepends⟩, q, hperm.subset hq, rfl⟩

/-- A batch comes to jobs if its time limit can be set, or if there is nothing to set it for. -/
theorem jobsOf_eq_ok {timeoutMs : Value} {jobs : List Job} (h : reg.jobsOf ordered mode timeoutMs = .ok jobs) :
    ∃ limit, jobs = ordered.map (reg.jobIn ordered mode limit)
      ∧ (ordered = [] ∨ TimeLimit.ofValue (timeoutMs.orElse (.ofOption .num reg.settings.timeoutMs)) = .ok limit) := by
  cases hlimit : TimeLimit.ofValue (timeoutMs.orElse (.ofOption .num reg.settings.timeoutMs)) with
  | ok limit =>
    rw [jobsOf_eq ordered mode hlimit] at h
    exact ⟨limit, (Except.ok.inj h).symm, .inr rfl⟩
  | error f =>
    cases ordered with
    | nil =>
      cases h
      exact ⟨none, rfl, .inl rfl⟩
    | cons p rest =>
      unfold jobsOf job at h
      rw [hlimit] at h
      cases h

/-- **The jobs that a batch comes to that can be put in order**, one for each proposal, await only earlier ones. -/
theorem exists_jobs {timeoutMs : Value} {jobs : List Job} (horder : Batch.order proposals = .ok ordered)
    (hjobs : reg.jobsOf ordered mode timeoutMs = .ok jobs) : ∃ limit, jobs = ordered.map (reg.jobIn ordered mode limit)
      ∧ (ordered.map Proposal.proposalId).Nodup ∧ ordered.Perm proposals ∧ AwaitEarlier jobs := by
  obtain ⟨hids, hperm, hinOrder⟩ := Batch.of_order_eq_ok horder
  obtain ⟨limit, rfl, -⟩ := jobsOf_eq_ok hjobs
  exact ⟨limit, rfl, (hperm.map _).nodup_iff.2 hids, hperm, awaitEarlier_jobs hids hperm hinOrder⟩

theorem exists_of_coordinate {documents : List Value} {timeoutMs : Value} {events : List Event} {ds : List Decision}
    (h : (reg.coordinate documents mode timeoutMs events).2 = .ok ds) :
    ∃ proposals ordered jobs, readBatch documents = .ok proposals
      ∧ Batch.order proposals = .ok ordered ∧ reg.jobsOf ordered mode timeoutMs = .ok jobs := by
  unfold coordinate at h
  cases hread : readBatch documents with
  | error e =>
    rw [hread] at h
    cases h
  | ok proposals =>
    cases horder : Batch.order proposals with
    | error e =>
      simp only [hread, horder] at h
      cases h
    | ok ordered =>
      cases hjobs : reg.jobsOf ordered mode timeoutMs with
      | error f =>
        simp only [hread, horder, hjobs] at h
        cases h
      | ok jobs => exact ⟨proposals, ordered, jobs, rfl, horder, hjobs⟩

/-- The decisions that a batch is answered with are taken from the conclusions of its schedule, none of which is a
failure. -/
theorem coordinate_eq_ok {documents : List Value} {timeoutMs : Value} {events : List Event} {jobs : List Job}
    {ds : List Decision} {s : Scheduler} (hread : readBatch documents = .ok proposals)
    (horder : Batch.order proposals = .ok ordered) (hjobs : reg.jobsOf ordered mode timeoutMs = .ok jobs)
    (hrun : Scheduler.run reg jobs (Decimal.toCount reg.settings.concurrency) events = s)
    (h : (reg.coordinate documents mode timeoutMs events).2 = .ok ds) :
    firstFailure s = none
      ∧ proposals.mapM (decisionOn s ordered) = .ok ds
      ∧ reg.coordinate documents mode timeoutMs events = (s.registry.write .log (summary ds), .ok ds) := by
  unfold coordinate at h ⊢
  simp only [hread, horder, hjobs, hrun] at h ⊢
  cases hfirst : firstFailure s with
  | some f =>
    rw [hfirst] at h
    cases h
  | none =>
    cases hmap : proposals.mapM (decisionOn s ordered) with
    | error f =>
      simp only [hfirst, hmap] at h
      cases h
    | ok ds' =>
      simp only [hfirst, hmap] at h ⊢
      cases h
      exact ⟨trivial, rfl, rfl⟩

/-! ## Decisions and records -/

/-- The place of a proposal's record among those that the log has gained. -/
def placeOf (s : Scheduler) (ordered : List Proposal) (p : Proposal) : Nat :=
  (s.conclusions.map Prod.fst).idxOf (numberOf ordered p)

theorem exists_conclusion_of_decisionOn {s : Scheduler} (hnodup : (s.conclusions.map Prod.fst).Nodup)
    (hp : p ∈ ordered) {d : Decision} (hd : decisionOn s ordered p = .ok d) :
    ∃ c, (numberOf ordered p, c) ∈ s.conclusions ∧ c.decision? = .ok d := by
  unfold decisionOn at hd
  rw [idxOf?_of_mem (List.mem_map_of_mem hp), Option.bind_some] at hd
  split at hd
  · next c hc => exact ⟨c, (conclusion?_eq_some_iff hnodup).1 hc, hd⟩
  · cases hd

section Concluded

variable {slots : Nat} {s : Scheduler} {gained : List Audit.Record} (hids : (ordered.map Proposal.proposalId).Nodup)
  (horderly : IsOrderly (ordered.map (reg.jobIn ordered mode limit)) slots s)
  (hgained : List.Forall₂ (IsRecordOf (ordered.map (reg.jobIn ordered mode limit))) s.conclusions gained)
  (hsettled : ∀ n < ordered.length, Settled s.conclusions n)
include hids horderly hgained hsettled

/-- **Every proposal has its decision, and the record of that in its place.** -/
theorem exists_record (hp : p ∈ ordered) :
    ∃ d r, decisionOn s ordered p = .ok d ∧ gained[placeOf s ordered p]? = some r ∧ d.proposalId = p.proposalId
      ∧ r.decision = d.toValue ∧ r.proposalHash = .str (Audit.hashOf p.toValue) := by
  have hmem := settled_iff.1 (hsettled _ (numberOf_lt hp))
  have hk : placeOf s ordered p < s.conclusions.length := by
    have := List.idxOf_lt_length_of_mem hmem
    rwa [List.length_map] at this
  have hfirst : (s.conclusions[placeOf s ordered p]).1 = numberOf ordered p := by
    have := List.getElem_idxOf (List.idxOf_lt_length_of_mem hmem)
    rwa [List.getElem_map] at this
  obtain ⟨j, d, hj, hd, hid, hhash, hdecision⟩ := (List.forall₂_iff_get.1 hgained).2 _ hk (hgained.length_eq ▸ hk)
  change (ordered.map _)[(s.conclusions[placeOf s ordered p]).1]? = some j at hj
  rw [hfirst, job_numberOf hids hp] at hj
  obtain rfl := Option.some.inj hj
  have hc : s.conclusion? (numberOf ordered p) = some (s.conclusions[placeOf s ordered p]).2 := by
    rw [conclusion?_eq_some_iff horderly.tidy.nodup_conclusions, ← hfirst]
    exact List.getElem_mem hk
  refine ⟨d, _, ?_, List.getElem?_eq_getElem (hgained.length_eq ▸ hk), hid, hdecision, hhash⟩
  unfold decisionOn
  rw [idxOf?_of_mem (List.mem_map_of_mem hp), Option.bind_some, show List.idxOf _ _ = numberOf ordered p from rfl, hc]
  exact hd

/-- **What a proposal depends on is recorded before it.** -/
theorem placeOf_lt (hp : p ∈ ordered) (hq : q ∈ ordered) (hdepends : q.proposalId ∈ p.dependsOn) :
    placeOf s ordered q < placeOf s ordered p := by
  obtain ⟨c, hc⟩ := hsettled _ (numberOf_lt hp)
  obtain ⟨before, after, hsplit⟩ := List.append_of_mem hc
  have hnodup := horderly.tidy.nodup_conclusions
  obtain ⟨j, hj, hdue⟩ := horderly.tidy.due before _ after hsplit
  rw [job_numberOf hids hp] at hj
  obtain rfl := Option.some.inj hj
  have hpassed : Passed before (numberOf ordered q) := by
    rcases hdue with hall | ⟨-, f, hf⟩
    · exact hall _ (numberOf_mem_awaits hq hdepends)
    · obtain ⟨i, hi, hentry⟩ := List.getElem_of_mem hc
      obtain ⟨-, d, -, hd, -⟩ := (List.forall₂_iff_get.1 hgained).2 i hi (hgained.length_eq ▸ hi)
      rw [List.get_eq_getElem, hentry, show c = .failed f from hf] at hd
      cases hd
  unfold placeOf
  rw [hsplit, List.map_append, List.map_cons] at hnodup ⊢
  have hnew : numberOf ordered p ∉ before.map Prod.fst :=
    fun h => (List.nodup_append.1 hnodup).2.2 _ h _ List.mem_cons_self rfl
  have hold := settled_iff.1 hpassed.1
  rw [List.idxOf_append_of_mem hold, List.idxOf_append_of_notMem hnew, List.idxOf_cons_self, Nat.add_zero]
  exact List.idxOf_lt_length_of_mem hold

omit hgained hids in
theorem length_conclusions : s.conclusions.length = ordered.length := by
  have hsub : List.range ordered.length ⊆ s.conclusions.map Prod.fst :=
    fun n hn => settled_iff.1 (hsettled n (List.mem_range.1 hn))
  have hle := (List.subperm_of_subset List.nodup_range hsub).length_le
  have hge := horderly.tidy.length_places_le
  rw [List.length_map, List.length_range] at hle
  rw [List.length_map] at hge
  omega

theorem exists_decisions (hperm : ordered.Perm proposals) :
    ∃ ds, proposals.mapM (decisionOn s ordered) = .ok ds
      ∧ ds.map Decision.proposalId = proposals.map Proposal.proposalId
      ∧ ∀ i : Fin proposals.length, ∃ d r, ds[i.val]? = some d ∧ gained[placeOf s ordered proposals[i]]? = some r
        ∧ r.decision = d.toValue ∧ r.proposalHash = .str (Audit.hashOf proposals[i].toValue) := by
  obtain ⟨ds, hds, hall⟩ := exists_mapM_eq_ok (f := decisionOn s ordered) (l := proposals)
    (R := fun p d => ∃ r, gained[placeOf s ordered p]? = some r ∧ d.proposalId = p.proposalId ∧ r.decision = d.toValue
      ∧ r.proposalHash = .str (Audit.hashOf p.toValue)) fun p hp => by
    obtain ⟨d, r, hd, hr⟩ := exists_record hids horderly hgained hsettled (hperm.mem_iff.2 hp)
    exact ⟨d, hd, r, hr⟩
  refine ⟨ds, hds, ?_, fun i => ?_⟩
  · refine List.ext_getElem (by rw [List.length_map, List.length_map, hall.length_eq]) fun i hi hi' => ?_
    rw [List.length_map] at hi hi'
    obtain ⟨-, -, hid, -⟩ := (List.forall₂_iff_get.1 hall).2 i hi' hi
    rw [List.getElem_map, List.getElem_map]
    exact hid
  · have hi : i.val < ds.length := hall.length_eq ▸ i.isLt
    obtain ⟨r, hr, -, hrest⟩ := (List.forall₂_iff_get.1 hall).2 i.val i.isLt hi
    exact ⟨_, r, List.getElem?_eq_getElem hi, hr, hrest⟩

omit hgained in
/-- There is a place for every proposal, and only one. -/
theorem exists_place (hperm : ordered.Perm proposals) :
    ∃ place : Equiv.Perm (Fin proposals.length), ∀ i, (place i).val = placeOf s ordered proposals[i] := by
  have hmem : ∀ i : Fin proposals.length, proposals[i] ∈ ordered := fun i => hperm.mem_iff.2 (List.getElem_mem i.isLt)
  have hlt : ∀ i : Fin proposals.length, placeOf s ordered proposals[i] < proposals.length := by
    intro i
    have := List.idxOf_lt_length_of_mem (settled_iff.1 (hsettled _ (numberOf_lt (hmem i))))
    rw [List.length_map, length_conclusions horderly hsettled] at this
    exact lt_of_lt_of_eq this hperm.length_eq
  have hinjective : Function.Injective fun i : Fin proposals.length => (⟨_, hlt i⟩ : Fin proposals.length) := by
    intro i j hij
    have hnumber := (List.idxOf_inj (settled_iff.1 (hsettled _ (numberOf_lt (hmem i))))).1 (Fin.mk.inj hij)
    have hsame := numberOf_injective hids (hmem i) (hmem j) hnumber
    exact Fin.ext ((List.Nodup.getElem_inj_iff (hperm.nodup_iff.1 (List.Nodup.of_map _ hids))).1 hsame)
  exact ⟨Equiv.ofBijective _ (Finite.injective_iff_bijective.1 hinjective), fun i => rfl⟩

end Concluded

/-- What a batch comes to: a decision on every proposal, and one more record for each, that of its own decision, after
those of what it depends on.  The place of a record is its place among those that were gained. -/
structure IsCoordinated (before : List Audit.Record) (proposals : List Proposal) (ds : List Decision)
    (gained : List Audit.Record) (place : Equiv.Perm (Fin proposals.length)) : Prop where
  ids : ds.map Decision.proposalId = proposals.map Proposal.proposalId
  length : gained.length = proposals.length
  record : ∀ i : Fin proposals.length, ∃ d r, ds[i.val]? = some d ∧ gained[(place i).val]? = some r
    ∧ r.decision = d.toValue ∧ r.proposalHash = .str (Audit.hashOf proposals[i].toValue)
  dependency : ∀ i j : Fin proposals.length, proposals[j].proposalId ∈ proposals[i].dependsOn → place j < place i
    ∧ (before.length + gained.length ≤ Double.limit → ∃ (r r' : Audit.Record) (x y : Float),
        gained[(place j).val]? = some r ∧ gained[(place i).val]? = some r'
        ∧ r.sequenceNumber = .num x ∧ r'.sequenceNumber = .num y ∧ x < y)

theorem firstFailure_eq_none (h : ∀ entry ∈ s.conclusions, ∃ d, entry.2.decision? = .ok d) : firstFailure s = none := by
  refine List.findSome?_eq_none_iff.2 fun entry hentry => ?_
  obtain ⟨d, hd⟩ := h entry hentry
  cases hc : entry.2 with
  | failed f =>
    rw [hc] at hd
    cases hd
  | delivered d => rfl
  | refused d => rfl

theorem sequenceNumber_lt {before gained : List Audit.Record} (hchain : Audit.IsChain (before ++ gained))
    (hlen : before.length + gained.length ≤ Double.limit) {k k' : Nat} {r r' : Audit.Record} (hlt : k < k')
    (hr : gained[k]? = some r) (hr' : gained[k']? = some r') :
    ∃ x y, r.sequenceNumber = .num x ∧ r'.sequenceNumber = .num y ∧ x < y := by
  obtain ⟨hk, -⟩ := List.getElem?_eq_some_iff.1 hr
  obtain ⟨hk', -⟩ := List.getElem?_eq_some_iff.1 hr'
  have hnumber : ∀ {i : Nat} {x : Audit.Record}, gained[i]? = some x →
      x.sequenceNumber = .num (Double.counted (0 + (before.length + i) + 1)) := by
    intro i x hx
    refine (hchain (before.length + i) x ?_).sequenceNumber
    rw [List.getElem?_append_right (Nat.le_add_right _ _), Nat.add_sub_cancel_left]
    exact hx
  refine ⟨_, _, hnumber hr, hnumber hr', ?_⟩
  rw [Double.counted_of_le (by omega), Double.counted_of_le (by omega), Double.ofNat_lt_iff (by omega) (by omega)]
  omega

/-- **What a batch comes to that can be put in order**, with at least one slot, a log in order, a store that takes
everything and a clock that has an instant for each.  Whatever is aborted and whatever times out between any two
checks, and as the store answers each record before the next check, there is a decision on every proposal, in the
order of the documents, and the log has gained exactly the records of these decisions, where what a proposal depends
on is recorded before it. -/
theorem coordinate_exact {documents : List Value} {timeoutMs : Value} (hread : readBatch documents = .ok proposals)
    (horder : Batch.order proposals = .ok ordered)
    (hlimit : TimeLimit.ofValue (timeoutMs.orElse (.ofOption .num reg.settings.timeoutMs)) = .ok limit)
    (hslots : 1 ≤ Decimal.toCount reg.settings.concurrency) (hlog : reg.log.IsSound) (haccepts : reg.log.Accepts)
    (hclock : ∀ k < proposals.length, (reg.clock.later k).now?.isSome) (mode : Option Mode) (events : List Event) :
    ∃ (reg' : Registry) (ds : List Decision) (gained : List Audit.Record) (place : Equiv.Perm (Fin proposals.length)),
      reg.coordinate documents mode timeoutMs events = (reg', .ok ds) ∧ reg'.log.history = reg.log.history ++ gained
      ∧ IsCoordinated reg.log.history proposals ds gained place := by
  obtain ⟨hids, hperm, hinOrder⟩ := Batch.of_order_eq_ok horder
  have hids' : (ordered.map Proposal.proposalId).Nodup := (hperm.map _).nodup_iff.2 hids
  have hearlier : AwaitEarlier (ordered.map (reg.jobIn ordered mode limit)) := awaitEarlier_jobs hids hperm hinOrder
  generalize hs : Scheduler.run reg (ordered.map (reg.jobIn ordered mode limit))
    (Decimal.toCount reg.settings.concurrency) events = s
  have horderly : IsOrderly (ordered.map (reg.jobIn ordered mode limit)) (Decimal.toCount reg.settings.concurrency) s :=
    hs ▸ isOrderly_run hearlier reg _ events
  have hrecorded : IsRecorded (ordered.map (reg.jobIn ordered mode limit)) reg s := by
    rw [← hs]
    refine isRecorded_run hearlier hlog haccepts (fun k hk => hclock k ?_) _ events
    rwa [List.length_map, hperm.length_eq] at hk
  have hsettled : ∀ n < ordered.length, Settled s.conclusions n := by
    intro n hn
    rw [← hs]
    exact settled_run hearlier reg hslots events (by rwa [List.length_map])
  obtain ⟨gained, hhistory, hgained⟩ := hrecorded.gained
  have hlength : gained.length = proposals.length := by
    rw [← hgained.length_eq, length_conclusions horderly hsettled, hperm.length_eq]
  obtain ⟨ds, hds, hidsEq, hrecords⟩ := exists_decisions hids' horderly hgained hsettled hperm
  obtain ⟨place, hplace⟩ := exists_place hids' horderly hsettled hperm
  have hnone := firstFailure_eq_none fun entry hentry => hrecorded.exists_decision hentry
  refine ⟨s.registry.write .log (summary ds), ds, gained, place, ?_, hhistory, hidsEq, hlength, fun i => ?_,
    fun i j hdepends => ?_⟩
  · unfold coordinate
    simp only [hread, horder, jobsOf_eq ordered mode hlimit, hs, hnone, hds]
  · rw [hplace]
    exact hrecords i
  · have hmem : ∀ i : Fin proposals.length, proposals[i] ∈ ordered := fun i => hperm.mem_iff.2 (List.getElem_mem i.isLt)
    have hlt := placeOf_lt hids' horderly hgained hsettled (hmem i) (hmem j) hdepends
    refine ⟨Fin.lt_def.2 (by rwa [hplace, hplace]), fun hlen => ?_⟩
    obtain ⟨-, r, -, hr, -⟩ := hrecords j
    obtain ⟨-, r', -, hr', -⟩ := hrecords i
    obtain ⟨x, y, hx, hy, hxy⟩ := sequenceNumber_lt (hhistory ▸ hrecorded.log.chain) hlen hlt hr hr'
    rw [hplace, hplace]
    exact ⟨r, r', x, y, hr, hr', hx, hy, hxy⟩

/-- A document with everything that a proposal needs. -/
def namedMembers (id : String) (dependsOn : List String) : Members :=
  [("proposalId", .str (.whole id)), ("eIndustrial", .num 1.0), ("eEcosystem", .num 1.0), ("eInteraction", .num 0.0),
   ("eInvested", .num 1.0), ("eProduction", .num 2.0), ("estimatedMemoryBytes", .num 1024.0),
   ("evidenceItems", .arr []), ("rAbsolute", .num 0.5), ("entityTrustScore", .num 0.5),
   ("energyBudgetTokens", .num 100.0), ("vsmFunction", .str "A"), ("phaseContext", .str "Genesis"),
   ("dependsOn", .strings dependsOn)]

theorem create_namedMembers {id : String} {dependsOn : List String}
    (h : Schema.Fields.issues Proposal.fields (namedMembers id dependsOn) = []) :
    Proposal.create (.obj (namedMembers id dependsOn)) = .ok (.ofValue (.obj (namedMembers id dependsOn))) :=
  Proposal.create_obj h rfl (by
    rw [show (namedMembers id dependsOn).keys = (namedMembers "" []).keys from rfl]
    decide)

/-- The second of two proposals comes first among the documents, and names a third that is not there. -/
theorem pair_isCoordinated :
    let reg := Registry.start (.ofValue (Settings.merged (.obj []))) (some .empty) (.startingAt Clock.defaultStart)
    let proposals : List Proposal :=
      [.ofValue (.obj (namedMembers "p2" ["p1", "p3"])), .ofValue (.obj (namedMembers "p1" []))]
    ∃ (reg' : Registry) (ds : List Decision) (gained : List Audit.Record) (place : Equiv.Perm (Fin proposals.length)),
      reg.coordinate [.obj (namedMembers "p2" ["p1", "p3"]), .obj (namedMembers "p1" [])] none .absent
          [⟨1, .abort (.error "enough")⟩] = (reg', .ok ds)
      ∧ reg'.log.history = reg.log.history ++ gained ∧ IsCoordinated reg.log.history proposals ds gained place := by
  intro reg proposals
  have hread : readBatch [.obj (namedMembers "p2" ["p1", "p3"]), .obj (namedMembers "p1" [])] = .ok proposals := by
    rw [readBatch, create_namedMembers rfl, readBatch, create_namedMembers rfl]
    rfl
  have horder : Batch.order proposals = .ok proposals.reverse := rfl
  have hlimit : TimeLimit.ofValue (Value.absent.orElse (.ofOption .num reg.settings.timeoutMs)) = .ok none := rfl
  have hslots : 1 ≤ Decimal.toCount reg.settings.concurrency := by decide +kernel
  have hlog : reg.log.IsSound := Audit.Log.isSound_empty
  have haccepts : reg.log.Accepts := Audit.Log.accepts_empty
  have hclock : ∀ k < proposals.length, (reg.clock.later k).now?.isSome := by
    show ∀ k < 2, _
    decide +kernel
  exact coordinate_exact hread horder hlimit hslots hlog haccepts hclock none _

end PolicyGates.Registry
