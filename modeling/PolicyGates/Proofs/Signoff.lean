import PolicyGates.Proofs.AtRest
import PolicyGates.Proofs.Identity
/-!
# Sign-off

The ledger holds what was acknowledged in a session and nothing else, and of each decision the first acknowledgment
only (`get?_run_iff`).  Only a decision that is on record as escalated can be acknowledged (`pending_cases`).  So what
is cleared in a session is exactly what was approved, or escalated and then signed, and it stays so
(`sign_off_exact`).
-/
namespace PolicyGates

/-! ## The ledger -/

namespace Ledger

variable {l : Ledger} {id : Text} {a : Acknowledgment}

theorem get?_record_iff {v approver time note : Value} : (l.record v approver time note).1.get? (.str id) = some a
    ↔ l.get? (.str id) = some a ∨ v = .str id ∧ (l.record v approver time note).2 = a := by
  by_cases hv : v = .str id
  · subst hv
    have hentered := l.get?_record_self (Value.same_str.2 rfl : (Value.str id).same (.str id) = true) approver time note
    constructor
    · intro h
      exact .inr ⟨rfl, Option.some.inj (hentered.symm.trans h)⟩
    · rintro (h | ⟨-, rfl⟩)
      · rwa [record_of_get? h]
      · exact hentered
  · have hsame : v.same (.str id) = false := Bool.eq_false_iff.2 fun h => hv (Value.same_str.1 h)
    have hother : (l.record v approver time note).1.get? (.str id) = l.get? (.str id) := by
      unfold record
      split
      · rfl
      · simp [get?, List.find?_append, hsame]
    rw [hother]
    exact (or_iff_left fun h => hv h.1).symm

theorem record_of_none {v : Value} (h : l.get? v = none) (approver time note : Value) :
    (l.record v approver time note).2 = ⟨v, approver, if note.isTelling then note else .absent, time⟩ := by
  simp [record, h]

theorem decisionId_of_mem_record {v approver time note : Value} (h : a ∈ (l.record v approver time note).1.entries) :
    a ∈ l.entries ∨ a.decisionId = v := by
  unfold record at h
  split at h
  · exact .inl h
  · rcases List.mem_append.1 h with h | h
    · exact .inl h
    · rw [List.mem_singleton.1 h]
      exact .inr rfl

end Ledger

/-! ## Decisions on record -/

theorem Verdict.name_injective : Function.Injective Verdict.name := by
  intro v v'
  cases v <;> cases v' <;> decide

theorem Audit.find_cases {records : List Record} {ds : List Decision}
    (h : records.map Record.decision = ds.map Decision.toValue) (v : Value) :
    (find v records = .ok none ∧ ∀ d ∈ ds, v ≠ .str d.decisionId)
      ∨ ∃ r, find v records = .ok (some r) ∧ ∃ d ∈ ds, v = .str d.decisionId ∧ r.decision = d.toValue := by
  induction ds generalizing records with
  | nil =>
    obtain rfl := List.map_eq_nil_iff.1 h
    exact .inl ⟨rfl, List.forall_mem_nil _⟩
  | cons d rest ih =>
    obtain ⟨r, records', rfl, hr, hrest⟩ := List.map_eq_cons_iff.1 h
    have hfind : find v (r :: records')
        = if (Value.str d.decisionId).same v then .ok (some r) else find v records' := by
      rw [find, hr]
      rfl
    rw [hfind]
    by_cases hv : v = .str d.decisionId
    · rw [if_pos (Value.str_same.2 hv)]
      exact .inr ⟨r, rfl, d, List.mem_cons_self, hv, hr⟩
    · rw [if_neg fun h => hv (Value.str_same.1 h)]
      rcases ih hrest with ⟨hnone, hall⟩ | ⟨r', hsome, d', hd', hfound⟩
      · exact .inl ⟨hnone, List.forall_mem_cons.2 ⟨hv, hall⟩⟩
      · exact .inr ⟨r', hsome, d', List.mem_cons_of_mem _ hd', hfound⟩

namespace Registry

/-- There is a record of a decision with the id and the verdict. -/
def Audits (reg : Registry) (id : Text) (v : Verdict) : Prop :=
  ∃ r ∈ reg.log.history, r.decision.entry "decisionId" = .str id ∧ r.decision.entry "overall" = .str v.name

/-- An acknowledgment either fails and leaves the ledger as it was, or tells what the ledger has made of it. -/
theorem acknowledge_ledger (reg : Registry) (v approver note : Value) :
    (∃ f, (reg.acknowledge v approver note).2 = .error f ∧ (reg.acknowledge v approver note).1.ledger = reg.ledger)
    ∨ ∃ time : Instant, (reg.acknowledge v approver note).2 = .ok (reg.ledger.record v approver (.str time.text) note).2
      ∧ (reg.acknowledge v approver note).1.ledger = (reg.ledger.record v approver (.str time.text) note).1
      ∧ reg.clock.now? = some time ∧ ∃ r, reg.pending v = .ok r := by
  rcases reg.acknowledge_cases v approver note with ⟨f, -, h⟩ | ⟨r, notice, hpending, ⟨-, h⟩ | ⟨time, htime, h⟩⟩
  · exact .inl ⟨f, by rw [h], by rw [h]⟩
  · exact .inl ⟨_, by rw [h], by rw [h]; rfl⟩
  · exact .inr ⟨time, by rw [h], by rw [h], htime, r, hpending⟩

/-- **What is cleared**: what was approved, and what was escalated and is in the ledger. -/
theorem assertCleared_eq (reg : Registry) (d : Decision) : reg.assertCleared d.toValue
    = if d.overall = .approve ∨ d.overall = .escalateHuman ∧ (reg.ledger.get? (.str d.decisionId)).isSome then .ok ()
      else .error (.policy (.signOffRequired (.str d.decisionId))) := by
  have hoverall : d.toValue.ask "overall" = .ok (.str d.overall.name) := rfl
  have hid : d.toValue.entry "decisionId" = .str d.decisionId := rfl
  have hcleared : reg.isCleared d.toValue = .ok ((Value.str d.overall.name).same (.str "APPROVE")
      || ((Value.str d.overall.name).same
        (.str "ESCALATE_HUMAN") && (reg.ledger.get? (.str d.decisionId)).isSome)) := by
    rw [isCleared, Ledger.isCleared, hoverall, hid]
    rfl
  unfold assertCleared
  rw [hcleared, hid]
  cases d.overall with
  | approve => rfl
  | reject => rfl
  | escalateHuman => cases (reg.ledger.get? (.str d.decisionId)).isSome <;> rfl

end Registry

namespace Session

open Registry

variable {s : Session} {ds : List Decision} {id : Text} {a : Acknowledgment}

namespace IsAudited

variable (h : s.IsAudited ds)
include h

theorem audits_iff {v : Verdict} : s.registry.Audits id v ↔ ∃ d ∈ ds, (d.decisionId : Text) = id ∧ d.overall = v := by
  have hrecord : ∀ d : Decision, (d.toValue.entry "decisionId" = .str id ∧ d.toValue.entry "overall" = .str v.name)
      ↔ (d.decisionId : Text) = id ∧ d.overall = v := by
    intro d
    have hid : d.toValue.entry "decisionId" = .str d.decisionId := rfl
    have hoverall : d.toValue.entry "overall" = .str d.overall.name := rfl
    rw [hid, hoverall, Value.str.injEq, Value.str.injEq, Text.whole.injEq, Verdict.name_injective.eq_iff]
  constructor
  · rintro ⟨r, hr, hid⟩
    obtain ⟨d, hd, hdr⟩ := List.mem_map.1 (h.history ▸ List.mem_map_of_mem hr)
    rw [← hdr, hrecord] at hid
    exact ⟨d, hd, hid⟩
  · rintro ⟨d, hd, hid⟩
    obtain ⟨r, hr, hrd⟩ := List.mem_map.1
      (h.history ▸ List.mem_map_of_mem hd : d.toValue ∈ s.registry.log.history.map Audit.Record.decision)
    exact ⟨r, hr, by rw [hrd]; exact (hrecord d).2 hid⟩

theorem eq_of_decisionId {d d' : Decision} (hd : d ∈ ds) (hd' : d' ∈ ds) (hid : d.decisionId = d'.decisionId) :
    d = d' :=
  List.inj_on_of_nodup_map (List.nodup_append.1 h.nodup).1 hd hd' hid

/-- **Which decisions can be signed**: those on record as escalated. -/
theorem pending_cases (v : Value) :
    (∃ r id, s.registry.pending v = .ok r ∧ v = .str id ∧ s.registry.Audits id .escalateHuman)
    ∨ (∃ id verdict, v = .str id ∧ verdict ≠ .escalateHuman ∧ s.registry.Audits id verdict
      ∧ ¬s.registry.Audits id .escalateHuman
      ∧ s.registry.pending v = .error (.policy (.notEscalated v (.str verdict.name))))
    ∨ (∃ f, s.registry.pending v = .error f) ∧ ∀ id, v = .str id → (∀ verdict, ¬s.registry.Audits id verdict)
      ∧ s.registry.pending v = .error (.policy (.decisionNotFound v)) := by
  rcases Audit.find_cases h.history v with ⟨hfind, hnone⟩ | ⟨r, hfind, d, hd, rfl, hr⟩
  · have hpending : s.registry.pending v = v.quote.bind fun _ => .error (.policy (.decisionNotFound v)) := by
      simp only [pending, Audit.Log.find, hfind]
      rfl
    refine .inr (.inr ⟨?_, ?_⟩)
    · rw [hpending]
      cases v.quote <;> exact ⟨_, rfl⟩
    · rintro id rfl
      refine ⟨fun verdict haudits => ?_, hpending⟩
      obtain ⟨d, hd, rfl, -⟩ := h.audits_iff.1 haudits
      exact hnone d hd rfl
  · have haudits : s.registry.Audits d.decisionId d.overall := h.audits_iff.2 ⟨d, hd, rfl, rfl⟩
    have hpending : s.registry.pending (.str d.decisionId) = if d.overall = .escalateHuman then .ok r
        else .error (.policy (.notEscalated (.str d.decisionId) (.str d.overall.name))) := by
      have hoverall : r.decision.ask "overall" = .ok (.str d.overall.name) := by
        rw [hr]
        rfl
      simp only [pending, Audit.Log.find, hfind]
      show (r.decision.ask "overall" >>= _) = _
      rw [hoverall]
      cases d.overall <;> rfl
    rw [hpending]
    by_cases he : d.overall = .escalateHuman
    · rw [if_pos he]
      exact .inl ⟨r, d.decisionId, rfl, rfl, he ▸ haudits⟩
    · rw [if_neg he]
      refine .inr (.inl ⟨d.decisionId, d.overall, rfl, he, haudits, fun hescalated => ?_, rfl⟩)
      obtain ⟨d', hd', hid, he'⟩ := h.audits_iff.1 hescalated
      exact he (h.eq_of_decisionId hd' hd (Text.whole.inj hid) ▸ he')

end IsAudited

/-! ## What was signed -/

/-- An acknowledgment that was asked for in the course of the occurrences was answered so. -/
def IsSigned (s : Session) (occurrences : List Occurrence) (id : Text) (a : Acknowledgment) : Prop :=
  ∃ before approver note after, occurrences = before ++ .acknowledged (.str id) approver note :: after
    ∧ ((s.run before).registry.acknowledge (.str id) approver note).2 = .ok a

/-- The first acknowledgment of a decision: nobody had signed it before, and it says who has done so, when and with
which remark. -/
def IsSignedFirst (s : Session) (occurrences : List Occurrence) (id : Text) (a : Acknowledgment) : Prop :=
  ∃ before approver note after time, occurrences = before ++ .acknowledged (.str id) approver note :: after
    ∧ (∀ a', ¬s.IsSigned before id a') ∧ (s.run before).registry.clock.now? = some time
    ∧ ((s.run before).registry.acknowledge (.str id) approver note).2 = .ok a
    ∧ a = ⟨.str id, approver, if note.isTelling then note else .absent, .str time.text⟩

theorem not_isSigned_nil : ¬s.IsSigned [] id a := by
  rintro ⟨before, approver, note, after, hsplit, -⟩
  simp at hsplit

theorem IsSigned.append {xs : List Occurrence} (h : s.IsSigned xs id a) (ys : List Occurrence) :
    s.IsSigned (xs ++ ys) id a := by
  obtain ⟨before, approver, note, after, rfl, ha⟩ := h
  exact ⟨before, approver, note, after ++ ys, by rw [List.append_assoc, List.cons_append], ha⟩

theorem isSigned_concat {xs : List Occurrence} {o : Occurrence} : s.IsSigned (xs ++ [o]) id a ↔ s.IsSigned xs id a
    ∨ ∃ approver note, o = .acknowledged (.str id) approver note
      ∧ ((s.run xs).registry.acknowledge (.str id) approver note).2 = .ok a := by
  constructor
  · rintro ⟨before, approver, note, after, hsplit, ha⟩
    rcases split_concat hsplit with ⟨rfl, hlast, -⟩ | ⟨after', -, rfl⟩
    · exact .inr ⟨approver, note, hlast.symm, ha⟩
    · exact .inl ⟨before, approver, note, after', rfl, ha⟩
  · rintro (h | ⟨approver, note, rfl, ha⟩)
    · exact h.append [o]
    · exact ⟨xs, approver, note, [], rfl, ha⟩

theorem ledger_step {o : Occurrence} (ho : ∀ v approver note, o ≠ .acknowledged v approver note) :
    (s.step o).registry.ledger = s.registry.ledger := by
  cases o with
  | asked r =>
    rw [step]
    split <;> rfl
  | cancelled place reason =>
    rw [step]
    split <;> rfl
  | checked place =>
    rw [step]
    split
    · rfl
    · next e he =>
      split
      · rfl
      · next r b hcheck =>
        have hledger := (s.registry.drawUp_frame e.proposal e.mode r b.spent).2.1
        unfold file
        dsimp only
        split <;> next hdrawn => rwa [hdrawn] at hledger
  | answered =>
    rw [step]
    split <;> rfl
  | resumed =>
    rw [step]
    split
    · rfl
    · exact (s.registry.spares_resume _).ledger
  | decided refusals => rfl
  | acknowledged v approver note => exact absurd rfl (ho v approver note)
  | verified first last => exact (s.registry.spares_verify first last).ledger
  | resolved operator => exact (s.registry.spares_resolveBreach operator).ledger
  | elapsed now => rfl
  | wrote level text => rfl

/-- **What is in the ledger after a step** was there before or is what an acknowledgment was answered. -/
theorem get?_step_iff {o : Occurrence} : (s.step o).registry.ledger.get? (.str id) = some a
    ↔ s.registry.ledger.get? (.str id) = some a
      ∨ ∃ approver note, o = .acknowledged (.str id) approver note
        ∧ (s.registry.acknowledge (.str id) approver note).2 = .ok a := by
  by_cases ho : ∃ v approver note, o = .acknowledged v approver note
  · obtain ⟨v, approver, note, rfl⟩ := ho
    rw [step]
    rcases s.registry.acknowledge_ledger v approver note with ⟨f, hanswer, hledger⟩ | ⟨time, hanswer, hledger, -⟩
    · rw [hledger]
      refine (or_iff_left ?_).symm
      rintro ⟨approver', note', h, ha⟩
      cases h
      cases hanswer.symm.trans ha
    · rw [hledger, Ledger.get?_record_iff]
      refine or_congr_right ⟨?_, ?_⟩
      · rintro ⟨rfl, rfl⟩
        exact ⟨approver, note, rfl, hanswer⟩
      · rintro ⟨approver', note', h, ha⟩
        cases h
        exact ⟨rfl, Except.ok.inj (hanswer.symm.trans ha)⟩
  · rw [ledger_step fun v approver note h => ho ⟨v, approver, note, h⟩]
    refine (or_iff_left ?_).symm
    rintro ⟨approver, note, h, -⟩
    exact ho ⟨_, approver, note, h⟩

/-- **What the ledger holds is what was signed**, if it was empty at first. -/
theorem get?_run_iff (hempty : s.registry.ledger = .empty) (occurrences : List Occurrence) :
    (s.run occurrences).registry.ledger.get? (.str id) = some a ↔ s.IsSigned occurrences id a := by
  induction occurrences using List.reverseRecOn with
  | nil =>
    refine iff_of_false (fun h => ?_) not_isSigned_nil
    rw [show s.run [] = s from rfl, hempty] at h
    cases h
  | append_singleton xs o ih => rw [run_concat, get?_step_iff, isSigned_concat, ih]

theorem IsSigned.eq (hempty : s.registry.ledger = .empty) {occurrences : List Occurrence} {a' : Acknowledgment}
    (h : s.IsSigned occurrences id a) (h' : s.IsSigned occurrences id a') : a = a' :=
  Option.some.inj (((get?_run_iff hempty occurrences).2 h).symm.trans ((get?_run_iff hempty occurrences).2 h'))

/-- **Every answer is the first acknowledgment.** -/
theorem IsSigned.isSignedFirst (hempty : s.registry.ledger = .empty) {occurrences : List Occurrence}
    (h : s.IsSigned occurrences id a) :
    s.IsSignedFirst occurrences id a := by
  induction occurrences using List.reverseRecOn with
  | nil => exact absurd h not_isSigned_nil
  | append_singleton xs o ih =>
    by_cases hearlier : ∃ a', s.IsSigned xs id a'
    · -- it was signed before, and so the answer is the one from then
      obtain ⟨a', ha'⟩ := hearlier
      obtain rfl := IsSigned.eq hempty h (ha'.append [o])
      obtain ⟨before, approver, note, after, time, rfl, hfirst⟩ := ih ha'
      exact ⟨before, approver, note, after ++ [o], time, by rw [List.append_assoc, List.cons_append], hfirst⟩
    · rcases isSigned_concat.1 h with h | ⟨approver, note, rfl, ha⟩
      · exact absurd ⟨a, h⟩ hearlier
      · have hnone : (s.run xs).registry.ledger.get? (.str id) = none :=
          Option.eq_none_iff_forall_ne_some.2 fun a' ha' => hearlier ⟨a', (get?_run_iff hempty xs).1 ha'⟩
        rcases (s.run xs).registry.acknowledge_ledger (.str id) approver note with
          ⟨f, hanswer, -⟩ | ⟨time, hanswer, -, htime, -⟩
        · cases hanswer.symm.trans ha
        · refine ⟨xs, approver, note, [], time, rfl, fun a' ha' => hearlier ⟨a', ha'⟩, htime, ha, ?_⟩
          rw [← Except.ok.inj (hanswer.symm.trans ha), Ledger.record_of_none hnone]

/-! ## What is cleared -/

theorem mem_history_step {r : Audit.Record} (h : r ∈ s.registry.log.history) (o : Occurrence) :
    r ∈ (s.step o).registry.log.history := by
  rcases history_step s o with hsame | ⟨x, t, -, hgained⟩
  · rwa [hsame]
  · rw [hgained]
    exact List.mem_append_left _ h

/-- **The ledger only ever holds decisions that are on record as escalated.** -/
theorem audits_of_mem_ledger {reg : Registry} (hledger : reg.ledger = .empty) (hfresh : reg.HasFreshIds)
    (occurrences : List Occurrence) :
    ∀ a ∈ ((opened reg).run occurrences).registry.ledger.entries,
      ∃ id, a.decisionId = .str id ∧ ((opened reg).run occurrences).registry.Audits id .escalateHuman := by
  induction occurrences using List.reverseRecOn with
  | nil =>
    intro a ha
    rw [show ((opened reg).run []).registry.ledger = reg.ledger from rfl, hledger] at ha
    cases ha
  | append_singleton xs o ih =>
    obtain ⟨ds, haudited⟩ := exists_isAudited hfresh xs
    rw [run_concat]
    have hstays : ∀ {a : Acknowledgment},
      (∃ id, a.decisionId = .str id ∧ ((opened reg).run xs).registry.Audits id .escalateHuman) →
        ∃ id, a.decisionId = .str id ∧ (((opened reg).run xs).step o).registry.Audits id .escalateHuman := by
      rintro a ⟨id, hid, r, hr, hescalated⟩
      exact ⟨id, hid, r, mem_history_step hr o, hescalated⟩
    intro a ha
    refine hstays ?_
    by_cases ho : ∃ v approver note, o = .acknowledged v approver note
    · obtain ⟨v, approver, note, rfl⟩ := ho
      rw [step] at ha
      rcases ((opened reg).run xs).registry.acknowledge_ledger v approver note with
        ⟨f, -, hentries⟩ | ⟨time, -, hentries, -, r, hpending⟩
      · exact ih a (by rwa [hentries] at ha)
      · rcases Ledger.decisionId_of_mem_record (by rwa [hentries] at ha) with ha | rfl
        · exact ih a ha
        · rcases haudited.pending_cases a.decisionId with
            ⟨r', id, -, hid, haudits⟩ | ⟨id, verdict, -, -, -, -, hrefused⟩ | ⟨⟨f, hrefused⟩, -⟩
          · exact ⟨id, hid, haudits⟩
          · cases hpending.symm.trans hrefused
          · cases hpending.symm.trans hrefused
    · exact ih a (by rwa [ledger_step fun v approver note h => ho ⟨v, approver, note, h⟩] at ha)

/-- What sign-off comes to in a session that has come to `s` by the given occurrences. -/
structure SignsOff (start : Session) (occurrences : List Occurrence) (s : Session) : Prop where
  /-- Whatever anybody is told is on record, and the ids to come are fresh. -/
  audited : ∀ d, s.Tells d → ∃ r ∈ s.registry.log.history, r.decision = d.toValue
  fresh : s.registry.HasFreshIds
  cleared : ∀ d : Decision, s.registry.assertCleared d.toValue = .ok () ↔
    d.overall = .approve ∨ d.overall = .escalateHuman ∧ ∃ a, start.IsSigned occurrences d.decisionId a
  uncleared : ∀ d : Decision, s.registry.assertCleared d.toValue ≠ .ok () →
    s.registry.assertCleared d.toValue = .error (.policy (.signOffRequired (.str d.decisionId)))
  /-- What is cleared is so for good, and what was rejected never is. -/
  kept : ∀ (d : Decision) more, s.registry.assertCleared d.toValue = .ok () →
    (s.run more).registry.assertCleared d.toValue = .ok ()
  rejected : ∀ (d : Decision) more, d.overall = .reject → (s.run more).registry.assertCleared d.toValue ≠ .ok ()
  signable : ∀ (id approver : Text) note, s.registry.clock.now?.isSome →
    ((∃ a, (s.registry.acknowledge (.str id) (.str approver) note).2 = .ok a) ↔ s.registry.Audits id .escalateHuman)
  /-- Whoever signs anything else is told why it cannot be signed, and nothing changes. -/
  unsignable : ∀ (id approver : Text) note, ¬s.registry.Audits id .escalateHuman →
    ∃ e, s.registry.acknowledge (.str id) (.str approver) note = (s.registry, .error (.policy e))
      ∧ ((e = .decisionNotFound (.str id) ∧ ∀ v, ¬s.registry.Audits id v)
        ∨ ∃ v, e = .notEscalated (.str id) (.str v.name) ∧ s.registry.Audits id v)
  first : ∀ id a, start.IsSigned occurrences id a → start.IsSignedFirst occurrences id a
  held : ∀ a ∈ s.registry.ledger.entries, ∃ id, a.decisionId = .str id ∧ s.registry.Audits id .escalateHuman
  /-- Checks and batches, made while no evaluation is in progress, are more that happens in the session. -/
  check : s.IsIdle → ∀ r events, s.GoesOnTo (s.registry.check r events).1 (s.registry.check r events).2.toOption.toList
  coordinate : s.IsIdle → ∀ documents mode timeoutMs events,
    s.GoesOnTo (s.registry.coordinate documents mode timeoutMs events).1
      ((s.registry.coordinate documents mode timeoutMs events).2.toOption.getD [])

theorem assertCleared_run_iff (hempty : s.registry.ledger = .empty) (occurrences : List Occurrence) (d : Decision) :
    (s.run occurrences).registry.assertCleared d.toValue = .ok () ↔
      d.overall = .approve ∨ d.overall = .escalateHuman ∧ ∃ a, s.IsSigned occurrences d.decisionId a := by
  have hsigned : ((s.run occurrences).registry.ledger.get? (.str d.decisionId)).isSome = true
      ↔ ∃ a, s.IsSigned occurrences d.decisionId a := by
    simp only [Option.isSome_iff_exists, get?_run_iff hempty]
  rw [assertCleared_eq, ← hsigned]
  split
  · next h => exact iff_of_true rfl h
  · next h => exact iff_of_false (fun hc => by cases hc) h

namespace IsAudited

variable (h : s.IsAudited ds)
include h

theorem hasFreshIds : s.registry.HasFreshIds :=
  ⟨ds, h.history, (List.nodup_append.1 h.nodup).1,
    fun _ hd => h.fresh _ (List.mem_append_left _ (List.mem_map_of_mem hd))⟩

/-- **What is not on record as escalated cannot be signed**, and nothing comes of it. -/
theorem acknowledge_of_not_audits (hnot : ¬s.registry.Audits id .escalateHuman) (approver note : Value) :
    ∃ e, s.registry.acknowledge (.str id) approver note = (s.registry, .error (.policy e))
      ∧ ((e = .decisionNotFound (.str id) ∧ ∀ v, ¬s.registry.Audits id v)
        ∨ ∃ v, e = .notEscalated (.str id) (.str v.name) ∧ s.registry.Audits id v) := by
  have hrefused : ∀ {f}, s.registry.pending (.str id) = .error f →
      s.registry.acknowledge (.str id) approver note = (s.registry, .error f) := by
    intro f hf
    unfold acknowledge
    rw [hf]
    rfl
  rcases h.pending_cases (.str id) with
    ⟨r, id', -, hid, haudits⟩ | ⟨id', v, hid, -, haudits, -, hf⟩ | ⟨-, hunknown⟩
  · exact absurd (Value.str.inj hid ▸ haudits) hnot
  · exact ⟨_, hrefused hf, .inr ⟨v, rfl, Value.str.inj hid ▸ haudits⟩⟩
  · obtain ⟨hnone, hf⟩ := hunknown id rfl
    exact ⟨_, hrefused hf, .inl ⟨rfl, hnone⟩⟩

theorem acknowledge_iff (approver : Text) (note : Value) (hclock : s.registry.clock.now?.isSome) :
    (∃ a, (s.registry.acknowledge (.str id) (.str approver) note).2 = .ok a) ↔ s.registry.Audits id .escalateHuman := by
  constructor
  · rintro ⟨a, ha⟩
    by_contra hnot
    obtain ⟨e, hanswer, -⟩ := h.acknowledge_of_not_audits hnot (.str approver) note
    rw [hanswer] at ha
    cases ha
  · intro haudits
    rcases s.registry.acknowledge_cases (.str id) (.str approver) note with
      ⟨f, hf, -⟩ | ⟨r', notice, -, ⟨hnone, -⟩ | ⟨time, -, hanswer⟩⟩
    · -- the decision is found, and both names can be written out
      rcases h.pending_cases (.str id) with ⟨r, id', hpending, -⟩ | ⟨id', v, hid, -, -, hnot, -⟩ | ⟨-, hunknown⟩
      · rw [hpending] at hf
        cases hf
      · exact absurd (Value.str.inj hid ▸ haudits) hnot
      · exact absurd haudits ((hunknown id rfl).1 _)
    · rw [hnone] at hclock
      cases hclock
    · exact ⟨_, by rw [hanswer]⟩

end IsAudited

/-- **Sign-off.**  A session begins with an empty ledger, over records of decisions with ids of their own.  Callers
ask for evaluations, single ones and batches, and sign decisions at any time, while records are refused, evaluations
cancelled and the log looked after.  At each moment what is cleared is what was approved, or escalated and then
signed; whatever was escalated and is on record can be signed, and nothing else; each answer is the first
acknowledgment of the decision; and nothing is ever taken back. -/
theorem sign_off_exact {reg : Registry} (hledger : reg.ledger = .empty) (hfresh : reg.HasFreshIds)
    (occurrences : List Occurrence) :
    (opened reg).SignsOff occurrences ((opened reg).run occurrences) := by
  have hempty : (opened reg).registry.ledger = .empty := hledger
  obtain ⟨ds, haudited⟩ := exists_isAudited hfresh occurrences
  have hcleared := assertCleared_run_iff hempty
  exact {
    audited := by
      rintro d ⟨c, hc, hd⟩
      exact List.mem_map.1 (haudited.history ▸ List.mem_map_of_mem (haudited.concluded c hc d hd))
    fresh := haudited.hasFreshIds
    cleared := hcleared occurrences
    uncleared := by
      intro d hnot
      rw [assertCleared_eq] at hnot ⊢
      split at hnot
      · exact absurd rfl hnot
      · next h => exact if_neg h
    kept := by
      intro d more h
      rw [← run_append, hcleared]
      rcases (hcleared _ d).1 h with happroved | ⟨hescalated, a, ha⟩
      · exact .inl happroved
      · exact .inr ⟨hescalated, a, ha.append more⟩
    rejected := by
      intro d more hrejected h
      rw [← run_append, hcleared, hrejected] at h
      rcases h with h | ⟨h, -⟩ <;> cases h
    signable := fun id => haudited.acknowledge_iff
    unsignable := fun id approver note hnot => haudited.acknowledge_of_not_audits hnot _ note
    first := fun id a h => h.isSignedFirst hempty
    held := audits_of_mem_ledger hledger hfresh occurrences
    check := IsIdle.goesOnTo_check
    coordinate := IsIdle.goesOnTo_coordinate }

/-- A cancelled evaluation is escalated.  The first of two people who sign it clears it. -/
theorem cancelled_signsOff :
    let reg := Registry.start (.ofValue (Settings.merged (.obj []))) (some .empty) (.startingAt Clock.defaultStart)
    let id : Text := decisionId 1
    let occurrences : List Occurrence :=
      [.asked ⟨.obj (namedMembers "p1" []), none, .absent⟩, .cancelled 0 "enough", .checked 0, .answered, .resumed,
       .acknowledged (.str id) (.str "ada") .absent, .acknowledged (.str id) (.str "bob") .absent]
    let s := (opened reg).run occurrences
    (opened reg).SignsOff occurrences s ∧ s.registry.ledger.entries.length = 1
      ∧ ∃ d, s.Tells d ∧ d.overall = .escalateHuman ∧ s.registry.assertCleared d.toValue = .ok () := by
  intro reg id occurrences s
  have hfresh : reg.HasFreshIds := ⟨[], rfl, List.nodup_nil, List.forall_mem_nil _⟩
  have hlimit : TimeLimit.ofValue (Value.absent.orElse (.ofOption .num reg.settings.timeoutMs)) = .ok none := rfl
  have hprepare : reg.prepare ⟨.obj (namedMembers "p1" []), none, .absent⟩ = .ok _ :=
    prepare_eq_ok (create_namedMembers rfl) hlimit
  have hs : s = run ⟨reg, [⟨.ofValue (.obj (namedMembers "p1" [])), reg.settings.mode, .fresh (.fresh 100.0), none⟩],
    [], [], []⟩
      [.cancelled 0 "enough", .checked 0, .answered, .resumed, .acknowledged (.str id) (.str "ada") .absent,
       .acknowledged (.str id) (.str "bob") .absent] := by
    show (opened reg).run (_ :: _) = _
    rw [Session.run, List.foldl_cons]
    simp only [Session.step, opened, hprepare]
    rfl
  have hended : s.registry.ledger.entries.length = 1
      ∧ s.conclusions.any (fun c => c.decision?.toOption.any fun d =>
        d.overall == .escalateHuman && (s.registry.ledger.get? (.str d.decisionId)).isSome) = true := by
    rw [hs]
    decide +kernel
  obtain ⟨hlength, htold⟩ := hended
  refine ⟨sign_off_exact rfl hfresh occurrences, hlength, ?_⟩
  obtain ⟨c, hc, hd⟩ := List.any_eq_true.1 htold
  cases hdecision : c.decision? with
  | error f =>
    rw [hdecision] at hd
    cases hd
  | ok d =>
    rw [hdecision] at hd
    obtain ⟨hescalated, hsigned⟩ := (Bool.and_eq_true_iff.1 hd).imp_left beq_iff_eq.1
    refine ⟨d, ⟨c, hc, hdecision⟩, hescalated, ?_⟩
    rw [assertCleared_eq, if_pos (.inr ⟨hescalated, hsigned⟩)]

end Session

end PolicyGates
