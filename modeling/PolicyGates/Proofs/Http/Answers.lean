import PolicyGates.Http.Service
import PolicyGates.Proofs.Delivery
import PolicyGates.Proofs.Signoff
import PolicyGates.Proofs.Value.Document
import PolicyGates.Proofs.Value.Quoting
/-!
# What a status tells

A client goes by the status of an answer, which is decided by the cause of a failure alone.  Each cause belongs to a
moment: what is told as the client's own mistake was found before anything was done (`Untouched`), and a decision is
told, plainly or as a violation, only once its record is in the log.  So each status tells what has been done
(`answer_accords`), in every state that requests can bring about, with whatever else is in progress.
-/
namespace PolicyGates.Http

open Registry

variable {k : Conditions} {reg later : Registry} {f : Failure} {document : Value}

/-! ## Refusals -/

/-- The log, the metrics and the ledger are as they were. -/
structure Untouched (reg later : Registry) : Prop where
  log : later.log = reg.log
  metrics : later.metrics = reg.metrics
  ledger : later.ledger = reg.ledger

theorem Untouched.refl (reg : Registry) : Untouched reg reg := ⟨rfl, rfl, rfl⟩

theorem status_refuse_of_isForeign (reg : Registry) (hf : f.IsForeign) : (refuse reg f).2.status = 500 := by
  cases f with
  | policy e => exact absurd rfl (hf e)
  | _ => rfl

theorem statusOf_cases (e : PolicyError) :
    Response.statusOf e = 422 ∨ Response.statusOf e = 400 ∨ Response.statusOf e = 404
    ∨ Response.statusOf e = 409 := by
  unfold Response.statusOf
  split <;> simp

theorem status_refuse_ne (reg : Registry) (f : Failure) : (refuse reg f).2.status ≠ 200 := by
  cases f with
  | policy e =>
    change Response.statusOf e ≠ 200
    have := statusOf_cases e
    omega
  | _ => exact fun h => absurd (show 500 = 200 from h) (by decide)

/-- The mode that a body asks for, if it asks for any, and else that of the settings. -/
def effectiveMode (reg : Registry) (document : Value) : Mode :=
  ((document.member "mode").asString?.bind Mode.ofName?).getD reg.settings.mode

/-- A body asks for no mode or for one of the three, or it is found at fault, or its mode cannot be quoted. -/
theorem modeOf_cases (depth : Nat) (reg : Registry) (document : Value) :
    (∃ mode, modeOf depth document = .ok mode ∧ effectiveMode reg document = mode.getD reg.settings.mode)
    ∨ (∃ fault, modeOf depth document = .error (.policy (.invalidProposal fault)))
    ∨ ∃ f, modeOf depth document = .error f ∧ f.IsForeign := by
  unfold modeOf effectiveMode
  split
  · next habsent =>
    refine .inl ⟨none, rfl, ?_⟩
    rw [habsent]
    rfl
  · cases hmode : (document.member "mode").asString?.bind Mode.ofName? with
    | some mode => exact .inl ⟨some mode, rfl, rfl⟩
    | none =>
      cases hquote : (document.member "mode").quoteWithin depth with
      | ok shown => exact .inr (.inl ⟨_, rfl⟩)
      | error f => exact .inr (.inr ⟨f, rfl, Value.isForeign_of_quoteWithin depth _ hquote⟩)

/-! ## Checks -/

/-- The answer to a check that has come to a decision. -/
def answerOf (d : Decision) : Response :=
  if d.mode.enforces ∧ d.overall = .reject then .ofPolicy (.constraintViolation d.toValue) else .of 200 d.toValue

theorem member_ofPolicy_violation (v : Value) (hv : v.isAbsent = false) :
    (Response.ofPolicy (.constraintViolation v)).body.member "decision" = v.normal := by
  refine Value.member_normal ?_ (List.mem_of_getElem? (i := 2) rfl) hv
  show [Text.whole "error", Text.whole "code", Text.whole "decision"].Nodup
  decide

/-- A decision that is enforced against the proposal comes with the violation, any other one as it is. -/
theorem answerOf_cases (d : Decision) :
    (d.mode = .enforce ∧ d.overall = .reject) ∧ (answerOf d).status = 422
      ∧ (answerOf d).body.member "decision" = d.toValue.normal
    ∨ ¬(d.mode = .enforce ∧ d.overall = .reject) ∧ (answerOf d).status = 200
      ∧ (answerOf d).body = d.toValue.normal := by
  unfold answerOf
  rw [← Mode.enforces_iff]
  split
  · next h => exact .inl ⟨h, rfl, member_ofPolicy_violation _ rfl⟩
  · next h => exact .inr ⟨h, rfl, rfl⟩

theorem handleCheck_cases (k : Conditions) (reg : Registry) (document : Value) :
    (handleCheck k reg document).2.status = 500
    ∨ ((handleCheck k reg document).2.status = 400 ∧ Untouched reg (handleCheck k reg document).1)
    ∨ ∃ p d, Proposal.create (document.member "proposal") = .ok p ∧ d.mode = effectiveMode reg document
      ∧ reg.Records p d (handleCheck k reg document).1 ∧ (handleCheck k reg document).2 = answerOf d := by
  unfold handleCheck
  rcases modeOf_cases k.depth reg document with ⟨mode, hmode, heffective⟩ | ⟨fault, hmode⟩ | ⟨f, hmode, hforeign⟩
  · simp only [hmode]
    rcases reg.check_cases ⟨document.member "proposal", mode, .absent⟩ k.events with
      ⟨fault, now, hcheck⟩ | ⟨f, houtcome, hforeign⟩ | ⟨p, d, hp, hd, houtcome, hrecords⟩
    · rw [hcheck]
      exact .inr (.inl ⟨rfl, rfl, rfl, rfl⟩)
    · generalize reg.check ⟨document.member "proposal", mode, .absent⟩ k.events = ended at *
      obtain ⟨later, outcome⟩ := ended
      obtain rfl : outcome = .error f := houtcome
      exact .inl (status_refuse_of_isForeign later hforeign)
    · generalize reg.check ⟨document.member "proposal", mode, .absent⟩ k.events = ended at *
      obtain ⟨later, outcome⟩ := ended
      obtain rfl : outcome = d.conclusion.outcome := houtcome
      refine .inr (.inr ⟨p, d, hp, heffective ▸ hd, ?_⟩)
      unfold answerOf Decision.conclusion
      by_cases hrefused : d.mode.enforces ∧ d.overall = .reject
      · rw [if_pos hrefused, if_pos hrefused]
        exact ⟨hrecords, rfl⟩
      · rw [if_neg hrefused, if_neg hrefused]
        exact ⟨hrecords, rfl⟩
  · simp only [hmode]
    exact .inr (.inl ⟨rfl, .refl reg⟩)
  · simp only [hmode]
    exact .inl (status_refuse_of_isForeign reg hforeign)

/-! ## Batches -/

/-- A batch that is answered with decisions, told with their documents. -/
def DeliversBatch (reg : Registry) (document : Value) (later : Registry) (ds : List Decision) : Prop :=
  ∃ documents proposals gained place, document.member "proposals" = .arr documents ∧ Hold documents proposals
    ∧ later.log.history = reg.log.history ++ gained
    ∧ reg.Delivers proposals (effectiveMode reg document) ds gained place

theorem handleCoordinate_cases (k : Conditions) (reg : Registry) (document : Value) :
    (handleCoordinate k reg document).2.status = 500
    ∨ (((handleCoordinate k reg document).2.status = 400 ∨ (handleCoordinate k reg document).2.status = 409)
      ∧ Untouched reg (handleCoordinate k reg document).1)
    ∨ ∃ ds, DeliversBatch reg document (handleCoordinate k reg document).1 ds
      ∧ (handleCoordinate k reg document).1.ledger = reg.ledger
      ∧ (handleCoordinate k reg document).2 = .of 200 (.arr (ds.map Decision.toValue)) := by
  unfold handleCoordinate
  split
  · next documents hdocuments =>
    rcases modeOf_cases k.depth reg document with ⟨mode, hmode, heffective⟩ | ⟨fault, hmode⟩ | ⟨f, hmode, hforeign⟩
    · simp only [hmode]
      cases hanswer : reg.coordinate documents mode .absent k.events with
      | mk later answer =>
        cases answer with
        | ok ds =>
          obtain ⟨hledger, proposals, gained, place, hhold, hhistory, hdelivers⟩ :=
            delivers_of_coordinate (congrArg Prod.snd hanswer)
          rw [hanswer] at hledger hhistory
          have hbatch : DeliversBatch reg document later ds :=
            ⟨documents, proposals, gained, place, hdocuments, hhold, hhistory, heffective ▸ hdelivers⟩
          exact .inr (.inr ⟨ds, hbatch, hledger, rfl⟩)
        | error f =>
          rcases coordinate_error_cases (congrArg Prod.snd hanswer) with
            hforeign | ⟨⟨now, hlater⟩, ⟨fault, rfl⟩ | ⟨cycle, rfl⟩⟩
          · exact .inl (status_refuse_of_isForeign later hforeign)
          · obtain rfl : later = { reg with elapsed := now } := (congrArg Prod.fst hanswer).symm.trans hlater
            exact .inr (.inl ⟨.inl rfl, rfl, rfl, rfl⟩)
          · obtain rfl : later = { reg with elapsed := now } := (congrArg Prod.fst hanswer).symm.trans hlater
            exact .inr (.inl ⟨.inr rfl, rfl, rfl, rfl⟩)
    · simp only [hmode]
      exact .inr (.inl ⟨.inl rfl, .refl reg⟩)
    · simp only [hmode]
      exact .inl (status_refuse_of_isForeign reg hforeign)
  · exact .inr (.inl ⟨.inl rfl, .refl reg⟩)

/-! ## Sign-off -/

/-- The body says who signs. -/
def NamesApprover (document : Value) (approver : Text) : Prop :=
  document.member "approver" = .str approver ∧ approver ≠ .whole ""

theorem handleAcknowledge_cases (reg : Registry) (id : String) (document : Value) :
    ((∀ approver, ¬NamesApprover document approver) ∧ (handleAcknowledge reg id document).2.status = 400
      ∧ (handleAcknowledge reg id document).1 = reg)
    ∨ ∃ approver, NamesApprover document approver
      ∧ ((∃ a, (reg.acknowledge (.str id) (.str approver) (noteOf document)).2 = .ok a
          ∧ (handleAcknowledge reg id document).2.status = 200)
        ∨ ∃ f, (reg.acknowledge (.str id) (.str approver) (noteOf document)).2 = .error f
          ∧ (handleAcknowledge reg id document).2.status ≠ 200
          ∧ ((handleAcknowledge reg id document).2.status = 500 ∨ (handleAcknowledge reg id document).1 = reg)) := by
  unfold handleAcknowledge NamesApprover
  cases document.member "approver" with
  | str approver =>
    by_cases hempty : approver = .whole ""
    · simp only [if_pos hempty]
      exact .inl ⟨fun _ h => h.2 (Value.str.inj h.1 ▸ hempty), rfl, trivial⟩
    · simp only [if_neg hempty]
      refine .inr ⟨approver, ⟨rfl, hempty⟩, ?_⟩
      rcases reg.acknowledge_cases (.str id) (.str approver) (noteOf document) with
        ⟨f, -, h⟩ | ⟨r, notice, -, ⟨-, h⟩ | ⟨time, -, h⟩⟩
      · rw [h]
        refine .inr ⟨f, rfl, status_refuse_ne reg f, ?_⟩
        cases f with
        | policy e => exact .inr rfl
        | _ => exact .inl rfl
      · rw [h]
        exact .inr ⟨_, rfl, status_refuse_ne _ _, .inl rfl⟩
      · rw [h]
        exact .inl ⟨_, rfl, rfl⟩
  | _ => exact .inl ⟨fun _ h => (by cases h.1), rfl, rfl⟩

/-! ## Requests -/

/-- What the answer to a request that is posted tells of what has been done. -/
structure Accords (reg : Registry) (r : Request) (later : Registry) (x : Response) : Prop where
  refused : x.status = 400 ∨ x.status = 404 ∨ x.status = 409 → Untouched reg later
  /-- The record of the decision that is told is the one that the log has gained. -/
  checked : r.routing = .found .check → x.status = 200 ∨ x.status = 422 → ∃ document p d, r.document = .ok document
    ∧ Proposal.create (document.member "proposal") = .ok p ∧ reg.Records p d later ∧ d.mode = effectiveMode reg document
    ∧ (x.status = 422 ↔ d.mode = .enforce ∧ d.overall = .reject)
    ∧ (x.status = 200 → x.body = d.toValue.normal) ∧ (x.status = 422 → x.body.member "decision" = d.toValue.normal)
  /-- All decisions are told, in the order of the documents, rejections among them. -/
  coordinated : r.routing = .found .coordinate → x.status ≠ 422
    ∧ (x.status = 200 → ∃ document ds, r.document = .ok document
    ∧ DeliversBatch reg document later ds ∧ later.ledger = reg.ledger
    ∧ x.body = .arr (ds.map fun d => d.toValue.normal))
  acknowledged : ∀ id, r.routing = .found (.acknowledge id) → reg.clock.now?.isSome → (x.status = 200 ↔
    (∃ document approver, r.document = .ok document ∧ NamesApprover document approver) ∧ reg.Audits id .escalateHuman)

section Answered

variable {r : Request} {x : Response}

theorem answer_of_post (hpost : r.method = "POST") (k : Conditions) (reg : Registry) :
    answer k reg r = dispatch k reg r := by
  unfold answer
  rw [if_neg (by rw [hpost]; decide), if_neg (by rw [hpost]; decide)]

theorem route_of_post (hpost : r.method = "POST") {route : Route} (h : r.routing = .found route) :
    route = .check ∨ route = .coordinate ∨ ∃ id, route = .acknowledge id := by
  have hget : ¬r.method = "GET" := by
    rw [hpost]
    decide
  unfold Request.routing at h
  simp only [if_pos hpost, if_neg hget] at h
  split at h
  · cases h
  · split at h
    · split at h
      · cases h
      · split at h
        · cases h
        · cases h
          exact .inr (.inr ⟨_, rfl⟩)
    all_goals cases h
    · exact .inl rfl
    · exact .inr (.inl rfl)

theorem route_eq {route route' : Route} (h : r.routing = .found route) (h' : r.routing = .found route') :
    route' = route :=
  Routing.found.inj (h'.symm.trans h)

theorem accords_check (hroute : r.routing = .found .check) (hdocument : r.document = .ok document) :
    Accords reg r (handleCheck k reg document).1 (handleCheck k reg document).2 where
  refused hstatus := by
    rcases handleCheck_cases k reg document with h | ⟨-, h⟩ | ⟨p, d, -, -, -, hanswer⟩
    · omega
    · exact h
    · rw [hanswer] at hstatus
      rcases answerOf_cases d with ⟨-, h, -⟩ | ⟨-, h, -⟩ <;> omega
  checked _ hstatus := by
    rcases handleCheck_cases k reg document with h | ⟨h, -⟩ | ⟨p, d, hp, hmode, hrecords, hanswer⟩
    · omega
    · omega
    · refine ⟨document, p, d, hdocument, hp, hrecords, hmode, ?_⟩
      rw [hanswer]
      rcases answerOf_cases d with ⟨hrefused, hstatus, htold⟩ | ⟨hkept, hstatus, htold⟩
      · exact ⟨iff_of_true hstatus hrefused, by omega, fun _ => htold⟩
      · exact ⟨iff_of_false (by omega) hkept, fun _ => htold, by omega⟩
  coordinated h := by cases route_eq hroute h
  acknowledged id h := by cases route_eq hroute h

theorem accords_coordinate (hroute : r.routing = .found .coordinate) (hdocument : r.document = .ok document) :
    Accords reg r (handleCoordinate k reg document).1 (handleCoordinate k reg document).2 where
  refused hstatus := by
    rcases handleCoordinate_cases k reg document with h | ⟨-, h⟩ | ⟨ds, -, -, hanswer⟩
    · omega
    · exact h
    · have h200 : (handleCoordinate k reg document).2.status = 200 := by
        rw [hanswer]
        rfl
      omega
  checked h := by cases route_eq hroute h
  coordinated _ := by
    rcases handleCoordinate_cases k reg document with h | ⟨h, -⟩ | ⟨ds, hds, hledger, hanswer⟩
    · exact ⟨by omega, by omega⟩
    · exact ⟨by omega, by omega⟩
    · have hbody : (handleCoordinate k reg document).2.body = .arr (ds.map fun d => d.toValue.normal) := by
        rw [hanswer]
        show Value.arr (Value.normalItems (ds.map Decision.toValue)) = _
        rw [Value.normalItems_eq_map, List.map_map]
        rfl
      have hstatus : (handleCoordinate k reg document).2.status ≠ 422 := by
        rw [hanswer]
        exact (by decide : 200 ≠ 422)
      exact ⟨hstatus, fun _ => ⟨document, ds, hdocument, hds, hledger, hbody⟩⟩
  acknowledged id h := by cases route_eq hroute h

theorem accords_acknowledge {s : Session} {gained : List Decision} (haudited : s.IsAudited gained) {id : String}
    (hroute : r.routing = .found (.acknowledge id)) (hdocument : r.document = .ok document) :
    Accords s.registry r (handleAcknowledge s.registry id document).1
      (handleAcknowledge s.registry id document).2 where
  refused hstatus := by
    have hsame : (handleAcknowledge s.registry id document).1 = s.registry := by
      rcases handleAcknowledge_cases s.registry id document with ⟨-, -, h⟩ | ⟨approver, -, ⟨a, -, h⟩ | ⟨f, -, -, h | h⟩⟩
      · exact h
      · omega
      · omega
      · exact h
    rw [hsame]
    exact .refl _
  checked h := by cases route_eq hroute h
  coordinated h := by cases route_eq hroute h
  acknowledged id' h hclock := by
    obtain rfl : id' = id := Route.acknowledge.inj (route_eq hroute h)
    rcases handleAcknowledge_cases s.registry id' document with
      ⟨hnobody, h400, -⟩ | ⟨approver, hnames, ⟨a, ha, h200⟩ | ⟨f, hf, hrefused, -⟩⟩
    · refine iff_of_false (by omega) ?_
      rintro ⟨⟨document', approver, hdocument', hnames⟩, -⟩
      exact hnobody approver (Except.ok.inj (hdocument'.symm.trans hdocument) ▸ hnames)
    · have hescalated := (haudited.acknowledge_iff approver (noteOf document) hclock).1 ⟨a, ha⟩
      exact iff_of_true h200 ⟨⟨document, approver, hdocument, hnames⟩, hescalated⟩
    · refine iff_of_false hrefused fun h => ?_
      obtain ⟨a, ha⟩ := (haudited.acknowledge_iff approver (noteOf document) hclock).2 h.2
      cases ha.symm.trans hf

theorem accords_of_unread (hunread : ∀ route, r.routing = .found route → ∀ document, r.document ≠ .ok document)
    (hstatus : x.status = 500 ∨ (x.status = 400 ∨ x.status = 404) ∧ later = reg) : Accords reg r later x where
  refused hrefused := by
    rcases hstatus with h | ⟨-, rfl⟩
    · omega
    · exact .refl _
  checked _ _ := by omega
  coordinated _ := ⟨by omega, fun _ => by omega⟩
  acknowledged id hroute _ := by
    refine iff_of_false (by omega) ?_
    rintro ⟨⟨document, approver, hdocument, -⟩, -⟩
    exact hunread _ hroute document hdocument

theorem accords_refuseBody {fault : BodyFault} (hdocument : r.document = .error fault) :
    Accords reg r (refuseBody reg fault).1 (refuseBody reg fault).2 := by
  refine accords_of_unread (fun _ _ document h => by cases h.symm.trans hdocument) ?_
  cases fault with
  | malformed => exact .inr ⟨.inl rfl, rfl⟩
  | tooLarge => exact .inl rfl
  | unsupportedCharset name => exact .inl rfl

theorem accords_answer {s : Session} {gained : List Decision} (haudited : s.IsAudited gained)
    (hpost : r.method = "POST") :
    Accords s.registry r (answer k s.registry r).1 (answer k s.registry r).2 := by
  rw [answer_of_post hpost]
  unfold dispatch
  cases hdocument : r.document with
  | error fault => exact accords_refuseBody hdocument
  | ok document =>
    cases hroute : r.routing with
    | unreadable segment => exact accords_of_unread (fun _ h => by cases h.symm.trans hroute) (.inl rfl)
    | unknown => exact accords_of_unread (fun _ h => by cases h.symm.trans hroute) (.inr ⟨.inr rfl, rfl⟩)
    | found route =>
      rcases route_of_post hpost hroute with rfl | rfl | ⟨id, rfl⟩
      · exact accords_check hroute hdocument
      · exact accords_coordinate hroute hdocument
      · exact accords_acknowledge haudited hroute hdocument

end Answered

/-! ## Services -/

section Service

variable {s : Session}

theorem goesOnTo_refuse (h : s.GoesOnTo reg []) (f : Failure) : s.GoesOnTo (refuse reg f).1 [] := by
  cases f with
  | policy e => exact h
  | _ => exact h.write _ _

variable (hidle : s.IsIdle)
include hidle

theorem goesOnTo_same : s.GoesOnTo s.registry [] := Session.goesOnTo_run [] hidle

theorem goesOnTo_refuseBody (fault : BodyFault) : s.GoesOnTo (refuseBody s.registry fault).1 [] := by
  cases fault with
  | malformed => exact goesOnTo_same hidle
  | _ => exact (goesOnTo_same hidle).write _ _

theorem goesOnTo_handleCheck (k : Conditions) (document : Value) :
    s.GoesOnTo (handleCheck k s.registry document).1 [] := by
  unfold handleCheck
  split
  · exact goesOnTo_refuse (goesOnTo_same hidle) _
  · next mode _ =>
    have hcheck := (hidle.goesOnTo_check ⟨document.member "proposal", mode, .absent⟩ k.events).untold
    split
    · next later d hanswer => rwa [hanswer] at hcheck
    · next later f hanswer =>
      rw [hanswer] at hcheck
      exact goesOnTo_refuse hcheck f

theorem goesOnTo_handleCoordinate (k : Conditions) (document : Value) :
    s.GoesOnTo (handleCoordinate k s.registry document).1 [] := by
  unfold handleCoordinate
  split
  · next proposals _ =>
    split
    · exact goesOnTo_refuse (goesOnTo_same hidle) _
    · next mode _ =>
      have hcoordinate := (hidle.goesOnTo_coordinate proposals mode .absent k.events).untold
      split
      · next later ds hanswer => rwa [hanswer] at hcoordinate
      · next later f hanswer =>
        rw [hanswer] at hcoordinate
        exact goesOnTo_refuse hcoordinate f
  · exact goesOnTo_refuse (goesOnTo_same hidle) _

theorem goesOnTo_handleAcknowledge (id : String) (document : Value) :
    s.GoesOnTo (handleAcknowledge s.registry id document).1 [] := by
  unfold handleAcknowledge
  split
  · next approver _ =>
    split
    · exact goesOnTo_same hidle
    · have hsigned : s.GoesOnTo (s.registry.acknowledge (.str id) (.str approver) (noteOf document)).1 [] :=
        Session.goesOnTo_run [.acknowledged (.str id) (.str approver) (noteOf document)]
          ⟨hidle.underWay, hidle.filed, hidle.answered⟩
      split
      · next later a hanswer => rwa [hanswer] at hsigned
      · next later f hanswer =>
        rw [hanswer] at hsigned
        exact goesOnTo_refuse hsigned f
  · exact goesOnTo_same hidle

theorem goesOnTo_handleVerify : s.GoesOnTo (handleVerify s.registry).1 [] := by
  have hverified : s.GoesOnTo (s.registry.verify Audit.firstSequence Audit.lastSequence).1 [] :=
    Session.goesOnTo_run [.verified Audit.firstSequence Audit.lastSequence]
      ⟨hidle.underWay, hidle.filed, hidle.answered⟩
  unfold handleVerify
  split
  · next later finding hanswer => rwa [hanswer] at hverified
  · next later f hanswer =>
    rw [hanswer] at hverified
    exact goesOnTo_refuse hverified f

theorem goesOnTo_dispatch (k : Conditions) (r : Request) : s.GoesOnTo (dispatch k s.registry r).1 [] := by
  unfold dispatch
  split
  · exact goesOnTo_refuseBody hidle _
  · next document _ =>
    split
    · next route _ =>
      cases route with
      | check => exact goesOnTo_handleCheck hidle k document
      | coordinate => exact goesOnTo_handleCoordinate hidle k document
      | acknowledge id => exact goesOnTo_handleAcknowledge hidle id document
      | audit =>
        rw [answerRoute, handleAudit]
        split
        · exact goesOnTo_same hidle
        · exact goesOnTo_refuse (goesOnTo_same hidle) _
      | verify => exact goesOnTo_handleVerify hidle
      | metrics => exact goesOnTo_same hidle
    · exact (goesOnTo_same hidle).write _ _
    · exact goesOnTo_same hidle

/-- **A request is more that happens in the session** that the service is. -/
theorem goesOnTo_answer (k : Conditions) (r : Request) : s.GoesOnTo (answer k s.registry r).1 [] := by
  unfold answer
  split
  · exact goesOnTo_same hidle
  · split
    · exact goesOnTo_dispatch hidle k _
    · exact goesOnTo_dispatch hidle k r

end Service

/-- **What a client can conclude from a status.**  Evaluations are asked for, cancelled and concluded in any order,
over records of decisions with ids of their own, and at any moment of that somebody posts a request.  A refusal as the
client's own mistake has changed neither the log nor the metrics nor the ledger; a check that is answered, be it with
a violation, has left exactly the record of the decision that is told; a batch that is answered has left one record
for each of its documents; and a decision is signed if somebody is named who signs it and it is on record as
escalated.  Whatever requests come in while no evaluation is in progress, the service is in such a state again. -/
theorem answer_accords (k : Conditions) {start : Registry} (hfresh : start.HasFreshIds)
    (occurrences : List Session.Occurrence) :
    let s := (Session.opened start).run occurrences
    (∀ r : Request, r.method = "POST" → Accords s.registry r (answer k s.registry r).1 (answer k s.registry r).2)
    ∧ (s.IsIdle → ∀ r, s.GoesOnTo (answer k s.registry r).1 []) := by
  obtain ⟨gained, haudited⟩ := Session.exists_isAudited hfresh occurrences
  exact ⟨fun r hpost => accords_answer haudited hpost, fun hidle => goesOnTo_answer hidle k⟩

/-- A cancelled evaluation is escalated, and so it can be signed. -/
theorem cancelled_accords :
    let start := Registry.start (.ofValue (Settings.merged (.obj []))) (some .empty) (.startingAt Clock.defaultStart)
    let occurrences : List Session.Occurrence :=
      [.asked ⟨.obj (namedMembers "p1" []), none, .absent⟩, .cancelled 0 "enough", .checked 0, .answered, .resumed]
    let s := (Session.opened start).run occurrences
    let k : Conditions := ⟨4000, [(0, 5.0)]⟩
    let r : Request := ⟨"POST", "/decisions/" ++ decisionId 1 ++ "/acknowledge", "application/json",
      "\x7b\"approver\":\"ada\"\x7d"⟩
    Accords s.registry r (answer k s.registry r).1 (answer k s.registry r).2 ∧ (answer k s.registry r).2.status = 200
      ∧ s.registry.Audits (decisionId 1) .escalateHuman := by
  intro start occurrences s k r
  have hfresh : start.HasFreshIds := ⟨[], rfl, List.nodup_nil, List.forall_mem_nil _⟩
  have hlimit : TimeLimit.ofValue (Value.absent.orElse (.ofOption .num start.settings.timeoutMs)) = .ok none := rfl
  have hprepare : start.prepare ⟨.obj (namedMembers "p1" []), none, .absent⟩ = .ok _ :=
    prepare_eq_ok (create_namedMembers rfl) hlimit
  have hs : s = Session.run _ [.cancelled 0 "enough", .checked 0, .answered, .resumed] := Session.run_asked hprepare _
  have hroute : r.routing = .found (.acknowledge (decisionId 1)) := by decide +kernel
  have hended : s.registry.clock.now?.isSome ∧ (answer k s.registry r).2.status = 200 := by
    rw [hs]
    decide +kernel
  obtain ⟨hclock, hstatus⟩ := hended
  have haccords := (answer_accords k hfresh occurrences).1 r rfl
  exact ⟨haccords, hstatus, ((haccords.acknowledged _ hroute hclock).1 hstatus).2⟩

end PolicyGates.Http
