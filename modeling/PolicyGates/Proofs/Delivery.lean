import PolicyGates.Proofs.Alone
import PolicyGates.Proofs.Rejection
/-!
# What is delivered is on record

Whoever is given a decision can rely on its record, in every state of the registry, whatever the store refuses and
whatever the clock does: a check that tells a decision has left exactly the record of it (`check_cases`), and a batch
that is answered with decisions has left one for each (`delivers_of_coordinate`).  Nothing else has to be known of the
registry, since an evaluation that finds no instant or no room in the log has no decision to tell.
-/
namespace PolicyGates

namespace Registry

variable {reg later : Registry} {p : Proposal}

/-! ## Single checks -/

/-- The log has gained the record of a decision on a proposal, which was counted once; nothing was signed. -/
structure Records (reg : Registry) (p : Proposal) (d : Decision) (later : Registry) : Prop where
  history : ∃ x, later.log.history = reg.log.history ++ [x] ∧ x.proposalHash = .str (Audit.hashOf p.toValue)
    ∧ x.decision = d.toValue
  metrics : later.metrics = (reg.metrics.count d).1
  ledger : later.ledger = reg.ledger

/-- **A conclusion with a decision has left its record**, and has let nothing be signed. -/
theorem records_of_conclude {mode : Mode} {r : Run} {spent : Float} {d : Decision}
    (h : (reg.conclude p mode r spent).2.decision? = .ok d) : reg.Records p d (reg.conclude p mode r spent).1 := by
  obtain ⟨time, log, x, console, -, hlog, hc⟩ := taken_of_conclude h
  obtain ⟨hgained, hnew⟩ := Audit.Log.append_gains hlog
  obtain ⟨hhash, hdecision⟩ := hnew x rfl
  rw [hc]
  exact ⟨⟨x, hgained, hhash, hdecision⟩, rfl, rfl⟩

/-- **What a check comes to**: its document is no proposal and nothing has happened, something else has gone wrong, or
it tells a decision and has left the record of it. -/
theorem check_cases (reg : Registry) (r : Request) (events : List Event) :
    (∃ fault now, reg.check r events = ({ reg with elapsed := now }, .error (.policy (.invalidProposal fault))))
    ∨ (∃ f, (reg.check r events).2 = .error f ∧ f.IsForeign)
    ∨ ∃ (p : Proposal) (d : Decision), Proposal.create r.document = .ok p ∧ d.mode = r.mode.getD reg.settings.mode
      ∧ (reg.check r events).2 = d.conclusion.outcome ∧ reg.Records p d (reg.check r events).1 := by
  cases hp : Proposal.create r.document with
  | error e =>
    obtain ⟨fault, rfl⟩ := exists_invalidProposal hp
    obtain ⟨now, hnow⟩ := passBy_eq reg events
    refine .inl ⟨fault, now, ?_⟩
    unfold check prepare
    rw [hp, ← hnow]
  | ok p =>
    cases hj : reg.prepare r with
    | error f =>
      refine .inr (.inl ⟨f, ?_, isForeign_of_prepare hp hj⟩)
      unfold check
      rw [hj]
    | ok j =>
      obtain ⟨hcreate, hmode, -⟩ := of_prepare hj
      obtain rfl : p = j.proposal := Except.ok.inj (hp.symm.trans hcreate)
      obtain ⟨run, b, now, now', -, hcheck⟩ := check_eq hj events
      rw [hcheck]
      cases hd : ({ reg with elapsed := now }.conclude j.proposal j.mode run b.spent).2.decision? with
      | ok d =>
        obtain ⟨hhistory, hmetrics, hledger⟩ := records_of_conclude hd
        obtain ⟨hc, time, hdrawn⟩ := exists_drawn_of_conclude hd
        refine .inr (.inr ⟨j.proposal, d, rfl, ?_, by rw [hc], hhistory, hmetrics, hledger⟩)
        rw [hdrawn, ← hmode]
        rfl
      | error f =>
        have hfailed := Conclusion.eq_failed hd
        exact .inr (.inl ⟨f, by rw [hfailed]; rfl, isForeign_of_conclude hfailed⟩)

/-! ## Batches -/

end Registry

/-- **Where every job is concluded with a decision, the log has gained its record**, in the order of the conclusions. -/
theorem Scheduler.ComesTo.exists_gained {reg later : Registry} {jobs : List Job} {conclusions : List (Nat × Conclusion)}
    (h : ComesTo reg jobs later conclusions) (hall : ∀ entry ∈ conclusions, ∃ d, entry.2.decision? = .ok d) :
    later.ledger = reg.ledger
    ∧ ∃ gained, later.log.history = reg.log.history ++ gained ∧ List.Forall₂ (IsRecordOf jobs) conclusions gained := by
  induction h with
  | opened => exact ⟨rfl, [], (List.append_nil _).symm, .nil⟩
  | elapsed _ now ih => exact ih hall
  | failed =>
    obtain ⟨-, hfailed⟩ := List.forall_mem_append.1 hall
    obtain ⟨d, hd⟩ := List.forall_mem_singleton.1 hfailed
    cases hd
  | concluded _ hj _ _ _ ih =>
    obtain ⟨hbefore, hlast⟩ := List.forall_mem_append.1 hall
    obtain ⟨hledger, gained, hhistory, hgained⟩ := ih hbefore
    obtain ⟨d, hd⟩ := List.forall_mem_singleton.1 hlast
    obtain ⟨⟨x, hx, hhash, hdecision⟩, -, hkept⟩ := Registry.records_of_conclude hd
    obtain ⟨-, time, hdrawn⟩ := Registry.exists_drawn_of_conclude hd
    refine ⟨hkept.trans hledger, gained ++ [x], by rw [hx, hhistory, List.append_assoc], ?_⟩
    exact List.rel_append hgained (.cons ⟨_, d, hj, hd, by rw [hdrawn]; rfl, hhash, hdecision⟩ .nil)

namespace Registry

open Scheduler

variable {reg : Registry} {proposals ordered : List Proposal} {ds : List Decision}

theorem decision_of_firstFailure {s : Scheduler} (h : firstFailure s = none) :
    ∀ entry ∈ s.conclusions, ∃ d, entry.2.decision? = .ok d := by
  intro entry hentry
  cases hd : entry.2.decision? with
  | ok d => exact ⟨d, rfl⟩
  | error f =>
    have hnone := List.findSome?_eq_none_iff.1 h entry hentry
    rw [Conclusion.eq_failed hd] at hnone
    cases hnone

theorem settled_of_mapM {s : Scheduler} (hnodup : (s.conclusions.map Prod.fst).Nodup)
    (hids : (ordered.map Proposal.proposalId).Nodup) (hperm : ordered.Perm proposals)
    (h : proposals.mapM (decisionOn s ordered) = .ok ds) :
    ∀ n < ordered.length, Settled s.conclusions n := by
  intro n hn
  obtain ⟨hmem, hnumber⟩ := numberOf_of_getElem? hids (List.getElem?_eq_getElem hn)
  obtain ⟨i, hi⟩ := List.mem_iff_getElem?.1 (hperm.mem_iff.1 hmem)
  obtain ⟨d, -, hd⟩ := exists_getElem?_of_forall₂ (forall₂_of_mapM_eq_ok h) hi
  obtain ⟨c, hc, -⟩ := exists_conclusion_of_decisionOn hnodup hmem hd
  exact ⟨c, hnumber ▸ hc⟩

/-- Each proposal has a decision of its own, in the order of the proposals, and the records that were gained are those
of these decisions, in an order of their own. -/
structure Delivers (reg : Registry) (proposals : List Proposal) (mode : Mode) (ds : List Decision)
    (gained : List Audit.Record) (place : Equiv.Perm (Fin proposals.length)) : Prop where
  decisions : ds.length = proposals.length
  records : gained.length = proposals.length
  record : ∀ i : Fin proposals.length, ∃ d x, ds[i.val]? = some d ∧ d.IsOn reg proposals[i] mode
    ∧ gained[(place i).val]? = some x
    ∧ x.proposalHash = .str (Audit.hashOf proposals[i].toValue) ∧ x.decision = d.toValue

/-- **A batch that is answered with decisions has left the record of each.** -/
theorem delivers_of_coordinate {documents : List Value} {mode : Option Mode} {timeoutMs : Value} {events : List Event}
    (hds : (reg.coordinate documents mode timeoutMs events).2 = .ok ds) :
    (reg.coordinate documents mode timeoutMs events).1.ledger = reg.ledger
    ∧ ∃ proposals gained place, Hold documents proposals
      ∧ (reg.coordinate documents mode timeoutMs events).1.log.history = reg.log.history ++ gained
      ∧ reg.Delivers proposals (mode.getD reg.settings.mode) ds gained place := by
  obtain ⟨proposals, ordered, jobs, hread, horder, hjobs⟩ := exists_of_coordinate hds
  have hhold := readBatch_eq_ok_iff.1 hread
  have hon : ∀ {i : Nat} {p : Proposal}, proposals[i]? = some p → ∃ d, ds[i]? = some d
    ∧ d.IsOn reg p (mode.getD reg.settings.mode) := by
    intro i p hp
    obtain ⟨document, hdocument, hcreate⟩ := exists_getElem?_of_forall₂ hhold.flip hp
    obtain ⟨d, hd, hon, -⟩ := decision_of_coordinate hread horder hjobs hds hdocument hcreate
    exact ⟨d, hd, hon⟩
  obtain ⟨limit, rfl, hids, hperm, hearlier⟩ := exists_jobs horder hjobs
  have hcomes := comesTo_run hearlier reg (Decimal.toCount reg.settings.concurrency) events
  have horderly := isOrderly_run hearlier reg (Decimal.toCount reg.settings.concurrency) events
  generalize hrun : Scheduler.run reg (ordered.map (reg.jobIn ordered mode limit))
    (Decimal.toCount reg.settings.concurrency) events = s
    at hcomes horderly
  obtain ⟨hfirst, hmap, hanswer⟩ := coordinate_eq_ok hread horder hjobs hrun hds
  have hsettled := settled_of_mapM horderly.tidy.nodup_conclusions hids hperm hmap
  obtain ⟨hledger, gained, hhistory, hgained⟩ := hcomes.exists_gained (decision_of_firstFailure hfirst)
  obtain ⟨ds', hds', -, hrecords⟩ := exists_decisions hids horderly hgained hsettled hperm
  obtain rfl := Except.ok.inj (hmap.symm.trans hds')
  obtain ⟨place, hplace⟩ := exists_place hids horderly hsettled hperm
  rw [hanswer]
  refine ⟨hledger, proposals, gained, place, hhold, hhistory, ?_, ?_, fun i => ?_⟩
  · exact (forall₂_of_mapM_eq_ok hmap).length_eq.symm
  · rw [← hgained.length_eq, length_conclusions horderly hsettled, hperm.length_eq]
  · obtain ⟨d, x, hd, hx, hdecision, hhash⟩ := hrecords i
    obtain ⟨d', hd', hon⟩ := hon (List.getElem?_eq_getElem i.isLt)
    obtain rfl := Option.some.inj (hd.symm.trans hd')
    exact ⟨d, x, hd, hon, by rwa [hplace], hhash, hdecision⟩

/-- **A batch that is not answered with decisions**: it was turned away for its form and nothing has happened, or what
went wrong is none of the policy's errors. -/
theorem coordinate_error_cases {documents : List Value} {mode : Option Mode} {timeoutMs : Value} {events : List Event}
    {f : Failure} (h : (reg.coordinate documents mode timeoutMs events).2 = .error f) :
    f.IsForeign
    ∨ (∃ now, (reg.coordinate documents mode timeoutMs events).1 = { reg with elapsed := now })
      ∧ ((∃ fault, f = .policy (.invalidProposal fault)) ∨ ∃ cycle, f = .policy (.dependencyCycle cycle)) := by
  obtain ⟨now, hpass⟩ := passBy_eq reg events
  cases hread : readBatch documents with
  | error e =>
    have hended : reg.coordinate documents mode timeoutMs events = (reg.passBy events, .error (.policy e)) := by
      simp only [coordinate, hread]
    obtain ⟨⟨fault, rfl⟩, -⟩ := exists_malformed hread
    rw [hended] at h ⊢
    cases h
    exact .inr ⟨⟨now, hpass⟩, .inl ⟨fault, rfl⟩⟩
  | ok proposals =>
    have hturned : ∀ {e}, Batch.order proposals = .error e →
        reg.coordinate documents mode timeoutMs events = (reg.passBy events, .error (.policy e)) := fun he => by
      simp only [coordinate, hread, he]
    rcases Batch.order_cases proposals with ⟨-, fault, ho⟩ | ⟨-, ids, ho, -⟩ | ⟨-, ordered, ho, -⟩
    · rw [hturned ho] at h ⊢
      cases h
      exact .inr ⟨⟨now, hpass⟩, .inl ⟨fault, rfl⟩⟩
    · rw [hturned ho] at h ⊢
      cases h
      exact .inr ⟨⟨now, hpass⟩, .inr ⟨_, rfl⟩⟩
    · exact .inl (isForeign_of_coordinate hread ho h)

end Registry

end PolicyGates
