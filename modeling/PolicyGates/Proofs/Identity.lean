import Mathlib.Data.List.Induction
import PolicyGates.Proofs.Decimal.Digits
import PolicyGates.Proofs.Session
/-!
# Which decision an id belongs to

Ids are numbered, so none is given out twice (`decisionId_injective`).  In a session that begins over records of
decisions with ids of their own, every record is that of a decision, no two of them have the same id, and every
decision that somebody is told of has its record (`IsAudited`), whatever happens (`IsAudited.step`).
-/
namespace PolicyGates

/-! ## Ids -/

theorem Instant.padded_injective (width : Nat) : Function.Injective (padded width) := by
  have hvalue : ∀ n, Decimal.valueOfDigits (padded width n).toList = n := by
    intro n
    rw [padded, String.toList_ofList, Decimal.valueOfDigits_append, Decimal.valueOfDigits_zeros,
      Decimal.valueOfDigits_toDigits, Nat.zero_mul, Nat.zero_add]
  intro m n h
  rw [← hvalue m, h, hvalue n]

namespace Registry

theorem decisionId_injective : Function.Injective decisionId := fun m n h =>
  Instant.padded_injective 12 (String.toList_inj.1 (List.append_cancel_left
    (by rw [← String.toList_append, ← String.toList_append]; exact congrArg String.toList h)))

/-- The records, the ledger and the count of ids are as they were. -/
structure Spares (reg later : Registry) : Prop where
  history : later.log.history = reg.log.history
  ledger : later.ledger = reg.ledger
  issued : later.issued = reg.issued

variable (reg : Registry)

theorem spares_verify (first last : Value) : reg.Spares (reg.verify first last).1 := by
  refine ⟨(reg.keeps_verify first last).history, ?_, ?_⟩
  all_goals
    unfold verify
    split
    · rfl
    · dsimp only
      split <;> rfl

theorem spares_resolveBreach (operator : Value) : reg.Spares ((reg.resolveBreach operator).toOption.getD reg) := by
  refine ⟨(reg.keeps_resolveBreach operator).history, ?_, ?_⟩
  all_goals
    unfold resolveBreach
    cases reg.log.breach with
    | none => rfl
    | some f => cases operator.quote <;> rfl

theorem spares_resume (a : Answer) : reg.Spares (reg.resume a).1 := by
  cases hrecord : a.record with
  | error f =>
    simp only [resume, hrecord]
    exact ⟨rfl, rfl, rfl⟩
  | ok r =>
    obtain ⟨console, hresumed⟩ := reg.resume_of_ok hrecord
    rw [hresumed]
    exact ⟨rfl, rfl, rfl⟩

theorem decision?_resume {a : Answer} {d : Decision} (h : (reg.resume a).2.decision? = .ok d) :
    d = a.decision ∧ ∃ r, a.record = .ok r := by
  unfold resume at h
  cases hrecord : a.record with
  | error f =>
    rw [hrecord] at h
    cases h
  | ok r =>
    rw [hrecord] at h
    rw [decision?_deliver] at h
    exact ⟨(Except.ok.inj h).symm, r, rfl⟩

/-- What an acknowledgment comes to: it is refused and leaves everything as it was, the clock has no instant to give,
or the ledger is asked to enter it. -/
theorem acknowledge_cases (decisionId approver note : Value) :
    (∃ f, ((reg.pending decisionId).bind fun _ => signOffNotice decisionId approver) = .error f
      ∧ reg.acknowledge decisionId approver note = (reg, .error f))
    ∨ ∃ r notice, reg.pending decisionId = .ok r ∧ ((reg.clock.now? = none ∧ reg.acknowledge decisionId approver note
        = ({ reg.write .log notice with clock := reg.clock.tick }, .error .noInstant))
      ∨ ∃ time, reg.clock.now? = some time ∧ reg.acknowledge decisionId approver note
        = ({ reg.write .log notice with
            clock := reg.clock.tick, ledger := (reg.ledger.record decisionId approver (.str time.text) note).1 },
          .ok (reg.ledger.record decisionId approver (.str time.text) note).2)) := by
  unfold acknowledge
  cases hpending : reg.pending decisionId with
  | error f => exact .inl ⟨f, rfl, rfl⟩
  | ok r =>
    cases hnotice : signOffNotice decisionId approver with
    | error f => exact .inl ⟨f, rfl, rfl⟩
    | ok notice =>
      refine .inr ⟨r, notice, rfl, ?_⟩
      have hclock : (reg.write .log notice).clock = reg.clock := rfl
      cases hnow : reg.clock.now? with
      | none => exact .inl ⟨rfl, by simp only [Except.bind, hclock, hnow]⟩
      | some time => exact .inr ⟨time, rfl, by simp only [Except.bind, hclock, hnow]; rfl⟩

theorem acknowledge_frame (decisionId approver note : Value) :
    (reg.acknowledge decisionId approver note).1.log = reg.log
      ∧ (reg.acknowledge decisionId approver note).1.issued = reg.issued := by
  rcases reg.acknowledge_cases decisionId approver note with
    ⟨f, -, h⟩ | ⟨r, notice, -, ⟨-, h⟩ | ⟨time, -, h⟩⟩
  all_goals
    rw [h]
    exact ⟨rfl, rfl⟩

theorem drawUp_frame (p : Proposal) (mode : Mode) (r : Run) (spent : Float) :
    ((reg.announceCancellation p r).drawUp p mode r spent).1.log = reg.log
    ∧ ((reg.announceCancellation p r).drawUp p mode r spent).1.ledger = reg.ledger
    ∧ ((reg.announceCancellation p r).drawUp p mode r spent).1.issued = reg.issued + 1
    ∧ ∀ d, ((reg.announceCancellation p r).drawUp p mode r spent).2 = .ok d →
      d.decisionId = decisionId (reg.issued + 1) := by
  obtain ⟨console, ha⟩ := announceCancellation_eq reg p r
  rw [ha]
  unfold drawUp
  dsimp only
  split
  · refine ⟨rfl, rfl, rfl, fun d hd => ?_⟩
    rw [← Except.ok.inj hd]
    rfl
  · exact ⟨rfl, rfl, rfl, fun d hd => by cases hd⟩

/-- The records are those of decisions with ids of their own, none of which is still to be given out. -/
def HasFreshIds (reg : Registry) : Prop :=
  ∃ ds : List Decision, reg.log.history.map Audit.Record.decision = ds.map Decision.toValue
    ∧ (ds.map Decision.decisionId).Nodup ∧ ∀ d ∈ ds, ∀ k, reg.issued < k → d.decisionId ≠ decisionId k

end Registry

/-! ## Sessions -/

namespace Session

open Registry

/-- The records are those of the given decisions, each of which has an id of its own, and nobody is told of any
other. -/
structure IsAudited (s : Session) (ds : List Decision) : Prop where
  history : s.registry.log.history.map Audit.Record.decision = ds.map Decision.toValue
  nodup : (ds.map Decision.decisionId ++ s.filed.map fun f => f.decision.decisionId).Nodup
  fresh : ∀ id ∈ ds.map Decision.decisionId ++ s.filed.map fun f => f.decision.decisionId, ∀ k, s.registry.issued < k →
    id ≠ decisionId k
  answered : ∀ a ∈ s.answered, ∀ r, a.record = .ok r → a.decision ∈ ds
  concluded : ∀ c ∈ s.conclusions, ∀ d, c.decision? = .ok d → d ∈ ds

variable {s : Session} {ds : List Decision}

namespace IsAudited

theorem keep (h : s.IsAudited ds) {reg : Registry} (hk : s.registry.Spares reg) :
    IsAudited { s with registry := reg } ds :=
  ⟨by rw [hk.history]; exact h.history, h.nodup, by rw [hk.issued]; exact h.fresh, h.answered, h.concluded⟩

theorem withUnderWay (h : s.IsAudited ds) (underWay : List Ongoing) : IsAudited { s with underWay := underWay } ds :=
  ⟨h.history, h.nodup, h.fresh, h.answered, h.concluded⟩

theorem withFailure (h : s.IsAudited ds) (f : Failure) :
    IsAudited { s with conclusions := s.conclusions ++ [.failed f] } ds :=
  ⟨h.history, h.nodup, h.fresh, h.answered,
    List.forall_mem_append.2 ⟨h.concluded, List.forall_mem_singleton.2 fun d hd => by cases hd⟩⟩

/-- **A decision that is filed has a new id.** -/
theorem file (h : s.IsAudited ds) (p : Proposal) (mode : Mode) (r : Run) (spent : Float) :
    IsAudited (s.file p mode r spent) ds := by
  obtain ⟨hlog, -, hissued, hid⟩ := s.registry.drawUp_frame p mode r spent
  have hlater : ∀ {k}, s.registry.issued + 1 < k → s.registry.issued < k := fun hk => by omega
  unfold Session.file
  split
  · next reg f hdrawn =>
    rw [hdrawn] at hlog hissued
    dsimp only at hlog hissued
    refine ⟨by rw [hlog]; exact h.history, h.nodup, fun id hmem k hk => ?_, h.answered, (h.withFailure f).concluded⟩
    exact h.fresh id hmem k (hlater (hissued ▸ hk))
  · next reg d hdrawn =>
    rw [hdrawn] at hlog hissued hid
    dsimp only at hlog hissued
    have hid := hid d rfl
    have hids : (ds.map Decision.decisionId ++ (s.filed ++ [(⟨p, d⟩ : Filing)]).map
      fun f : Filing => f.decision.decisionId)
        = (ds.map Decision.decisionId ++ s.filed.map fun f => f.decision.decisionId)
          ++ [decisionId (s.registry.issued + 1)] := by
      rw [List.map_append, ← List.append_assoc, List.map_singleton, hid]
    refine ⟨by rw [hlog]; exact h.history, ?_, ?_, h.answered, h.concluded⟩
    · rw [hids]
      refine List.nodup_append.2 ⟨h.nodup, List.nodup_singleton _, fun id hmem id' hid' => ?_⟩
      rw [List.mem_singleton.1 hid']
      exact h.fresh id hmem _ (Nat.lt_succ_self _)
    · rw [hids, hissued]
      refine List.forall_mem_append.2
        ⟨fun id hmem k hk => h.fresh id hmem k (hlater hk), List.forall_mem_singleton.2 fun k hk hc => ?_⟩
      have := decisionId_injective hc
      omega

/-- **A record that the log takes is that of the decision that was filed first.** -/
theorem answer (h : s.IsAudited ds) : ∃ more, IsAudited (s.step .answered) (ds ++ more) := by
  cases hfiled : s.filed with
  | nil => exact ⟨[], by rwa [step, hfiled, List.append_nil]⟩
  | cons f rest =>
    obtain ⟨hhistory, hnodup, hfresh, hanswered, hconcluded⟩ := h
    rw [hfiled, List.map_cons] at hnodup hfresh
    cases hlog : s.registry.log.append (.str (Audit.hashOf f.proposal.toValue)) f.decision.toValue with
    | mk log record =>
      rw [step_answered hfiled hlog]
      obtain ⟨hgained, hnew⟩ := Audit.Log.append_gains hlog
      cases record with
      | error e =>
        refine ⟨[], ?_⟩
        rw [List.append_nil]
        have hsub : (ds.map Decision.decisionId ++ rest.map fun f => f.decision.decisionId).Sublist
            (ds.map Decision.decisionId ++ f.decision.decisionId :: rest.map fun f => f.decision.decisionId) :=
          (List.sublist_cons_self _ _).append_left _
        refine ⟨?_, hnodup.sublist hsub, fun id hid => hfresh id (hsub.subset hid), ?_, hconcluded⟩
        · show log.history.map _ = _
          rw [hgained.trans (List.append_nil _)]
          exact hhistory
        · exact List.forall_mem_append.2 ⟨hanswered, List.forall_mem_singleton.2 fun r hr => by cases hr⟩
      | ok r =>
        have hids : (ds ++ [f.decision]).map Decision.decisionId ++ (rest.map fun f => f.decision.decisionId)
            = ds.map Decision.decisionId ++ f.decision.decisionId :: rest.map fun f => f.decision.decisionId := by
          rw [List.map_append, List.append_assoc]
          rfl
        refine ⟨[f.decision], ?_, by rw [hids]; exact hnodup, by rw [hids]; exact hfresh, ?_, ?_⟩
        · show log.history.map _ = _
          rw [hgained, List.map_append, hhistory, List.map_append, List.map_singleton, ← (hnew r rfl).2]
          rfl
        · exact List.forall_mem_append.2 ⟨fun a ha r hr => List.mem_append_left _ (hanswered a ha r hr),
            List.forall_mem_singleton.2 fun r _ => List.mem_append_right _ List.mem_cons_self⟩
        · exact fun c hc d hd => List.mem_append_left _ (hconcluded c hc d hd)

theorem resume (h : s.IsAudited ds) : IsAudited (s.step .resumed) ds := by
  cases hanswered : s.answered with
  | nil => rwa [step, hanswered]
  | cons a rest =>
    have hall := h.answered
    rw [hanswered, List.forall_mem_cons] at hall
    rw [step_resumed hanswered]
    have hkept := h.keep (s.registry.spares_resume a)
    refine ⟨hkept.history, hkept.nodup, hkept.fresh, hall.2, ?_⟩
    refine List.forall_mem_append.2 ⟨h.concluded, List.forall_mem_singleton.2 fun d hd => ?_⟩
    obtain ⟨rfl, r, hr⟩ := s.registry.decision?_resume hd
    exact hall.1 r hr

/-- **Whatever happens, the records are those of decisions with ids of their own**, among them all that anybody is
told of. -/
theorem step (h : s.IsAudited ds) (o : Occurrence) : ∃ more, (s.step o).IsAudited (ds ++ more) := by
  have hsame : ∀ {s' : Session}, s'.IsAudited ds → ∃ more, s'.IsAudited (ds ++ more) :=
    fun h => ⟨[], by rwa [List.append_nil]⟩
  cases o with
  | asked r =>
    rw [Session.step]
    split
    · exact hsame (h.withFailure _)
    · exact hsame (h.withUnderWay _)
  | cancelled place reason =>
    rw [Session.step]
    split
    · exact hsame h
    · exact hsame (h.withUnderWay _)
  | checked place =>
    rw [Session.step]
    split
    · exact hsame h
    · split
      · exact hsame (h.withUnderWay _)
      · exact hsame ((h.withUnderWay _).file ..)
  | answered => exact h.answer
  | resumed => exact hsame h.resume
  | decided refusals => exact hsame (h.keep ⟨(s.registry.keeps_decided refusals).history, rfl, rfl⟩)
  | acknowledged decisionId approver note =>
    obtain ⟨hlog, hissued⟩ := s.registry.acknowledge_frame decisionId approver note
    rw [Session.step]
    exact hsame ⟨by rw [hlog]; exact h.history, h.nodup, by rw [hissued]; exact h.fresh, h.answered, h.concluded⟩
  | verified first last => exact hsame (h.keep (s.registry.spares_verify first last))
  | resolved operator => exact hsame (h.keep (s.registry.spares_resolveBreach operator))
  | elapsed now => exact hsame (h.keep ⟨rfl, rfl, rfl⟩)
  | wrote level text => exact hsame (h.keep ⟨rfl, rfl, rfl⟩)

end IsAudited

theorem exists_isAudited {reg : Registry} (h : reg.HasFreshIds) (occurrences : List Occurrence) :
    ∃ ds, ((opened reg).run occurrences).IsAudited ds := by
  induction occurrences using List.reverseRecOn with
  | nil =>
    obtain ⟨ds, hhistory, hnodup, hfresh⟩ := h
    refine ⟨ds, hhistory, by simpa [Session.run, opened] using hnodup, fun id hid => ?_, ?_, ?_⟩
    · obtain ⟨d, hd, rfl⟩ :=
        List.mem_map.1 (show id ∈ ds.map Decision.decisionId by simpa [Session.run, opened] using hid)
      exact hfresh d hd
    · exact fun a ha => by cases ha
    · exact fun c hc => by cases hc
  | append_singleton xs o ih =>
    obtain ⟨ds, hds⟩ := ih
    obtain ⟨more, hmore⟩ := hds.step o
    exact ⟨ds ++ more, by rwa [run_concat]⟩

end Session

end PolicyGates
