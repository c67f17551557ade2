import PolicyGates.Proofs.AtRest
import PolicyGates.Proofs.Double.Products
import PolicyGates.Proofs.Identity
/-!
# The order of the records and the order of time

A decision is stamped when it is drawn up, and its record is numbered when the log takes it, which may be much later:
in between it waits in line behind whatever else was handed to the log.  But nothing comes between drawing a decision
up and handing it over, and the log answers in the order of the line (`Session.moves`).  So the decisions on record,
and after them those that wait, are always some of those that were drawn up, in the order in which they were
(`Watched.IsTimely.step`): a refusal leaves one out and changes no order.  Over a clock that shows a later instant at
every look, the numbers of the records, the instants of their decisions and the numbers of their ids then tell of one
and the same order (`Watched.order_of_records`).

The clock may be any: it shows one of the given times at every look (`Watched`).  That of a registry is a special case
(`Watched.run_session`), and it advances if it starts at a whole number of milliseconds (`Clock.advances_of_whole`).
-/
namespace PolicyGates

/-! ## Clocks that advance -/

namespace Clock

/-- What is shown at a later look is a later instant, as long as there are instants to show. -/
def Advances (times : Nat → Clock) : Prop :=
  ∀ m n a b, m < n → (times m).now? = some a → (times n).now? = some b → a.milliseconds < b.milliseconds

open Double

theorem toNat_of_now? {k n : Nat} {t : Instant} (h : now? ⟨Float.ofNat k, n⟩ = some t) :
    t.milliseconds.toNat = k + n := by
  unfold now? Instant.ofFloat? at h
  dsimp only at h
  split at h
  · next hrange =>
    obtain ⟨z, hz, rfl⟩ := Option.map_eq_some_iff.1 h
    have hfinite := isFinite_of_le (by decide) (by decide) (isNaN_of_le hrange.1).2 hrange.1 hrange.2
    obtain ⟨hk, hn⟩ := isFinite_of_isFinite_add hfinite
    -- the greatest instant lies below `2^53`, so a sum in range is an exact one
    have hle : k + n ≤ limit := by
      by_contra hc
      have hbelow : Float.ofNat (min k limit) + Float.ofNat (limit - min k limit) ≤ Float.ofNat k + Float.ofNat n :=
        add_le_add (isFinite_ofNat (by omega)) hk (isFinite_ofNat (by omega)) hn
          (ofNat_le_ofNat (Nat.min_le_left _ _)) (ofNat_le_ofNat (by omega))
      rw [ofNat_add_ofNat (by omega), show min k limit + (limit - min k limit) = limit by omega] at hbelow
      exact absurd (le_trans hbelow hrange.2) (by decide +kernel)
    rw [ofNat_add_ofNat hle] at hz
    have hcount := toCount_of_level (isFinite_ofNat hle) (level_ofNat_of_le hle)
    rwa [Decimal.toCount, hz] at hcount
  · cases h

/-- **A clock that starts at a whole number of milliseconds advances.** -/
theorem advances_of_whole (k readings : Nat) : Advances fun n => ⟨Float.ofNat k, readings + n⟩ := by
  intro m n a b hmn ha hb
  have hm := toNat_of_now? ha
  have hn := toNat_of_now? hb
  omega

theorem defaultStart_eq : defaultStart = Float.ofNat 1767225600000 := by decide +kernel

end Clock

/-! ## What can become of the line -/

namespace Registry

variable (reg : Registry)

theorem drawUp_clock (p : Proposal) (mode : Mode) (r : Run) (spent : Float) :
    ((reg.announceCancellation p r).drawUp p mode r spent).1.clock = reg.clock.tick
    ∧ ∀ d, ((reg.announceCancellation p r).drawUp p mode r spent).2 = .ok d → reg.clock.now? = some d.timestamp := by
  obtain ⟨console, ha⟩ := announceCancellation_eq reg p r
  rw [ha]
  unfold drawUp
  dsimp only
  split
  · next time hnow =>
    refine ⟨rfl, fun d hd => ?_⟩
    cases hd
    exact hnow
  · exact ⟨rfl, fun d hd => by cases hd⟩

theorem acknowledge_clock (decisionId approver note : Value) :
    (reg.acknowledge decisionId approver note).1.clock = reg.clock
    ∨ (reg.acknowledge decisionId approver note).1.clock = reg.clock.tick := by
  rcases reg.acknowledge_cases decisionId approver note with ⟨f, -, h⟩ | ⟨r, notice, -, ⟨-, h⟩ | ⟨time, -, h⟩⟩
  all_goals rw [h]
  · exact .inl rfl
  · exact .inr rfl
  · exact .inr rfl

theorem verify_clock (first last : Value) : (reg.verify first last).1.clock = reg.clock := by
  unfold verify
  split
  · rfl
  · dsimp only
    split <;> rfl

theorem resolveBreach_clock (operator : Value) :
    ((reg.resolveBreach operator).toOption.getD reg).clock = reg.clock := by
  unfold resolveBreach
  cases reg.log.breach with
  | none => rfl
  | some f => cases operator.quote <;> rfl

theorem resume_clock (a : Answer) : (reg.resume a).1.clock = reg.clock := by
  cases hrecord : a.record with
  | error f => simp only [resume, hrecord]
  | ok r =>
    obtain ⟨console, hresumed⟩ := reg.resume_of_ok hrecord
    rw [hresumed]

end Registry

namespace Session

open Registry

/-- The decision that is drawn up when something happens, if one is. -/
def drawn? (s : Session) : Occurrence → Option Decision
  | .checked place =>
    match s.underWay[place]? with
    | none => none
    | some e =>
      match e.progress.check (s.registry.circumstances e.proposal e.mode) e.proposal.toValue e.cancellation with
      | .running _ => none
      | .ended r b => ((s.registry.announceCancellation e.proposal r).drawUp e.proposal e.mode r b.spent).2.toOption
  | _ => none

/-- The decisions that wait for the log to take them, in the order in which it will. -/
def waiting (s : Session) : List Decision := s.filed.map Filing.decision

/-- Afterwards one more decision waits, at the end of the line: it has got the instant that the clock showed and the
next id. -/
structure Draws (s s' : Session) (d : Decision) : Prop where
  waiting : s'.waiting = s.waiting ++ [d]
  history : s'.registry.log.history = s.registry.log.history
  now : s.registry.clock.now? = some d.timestamp
  clock : s'.registry.clock = s.registry.clock.tick
  id : d.decisionId = decisionId (s.registry.issued + 1)
  issued : s'.registry.issued = s.registry.issued + 1

/-- Afterwards the decision that came first waits no longer: the log has taken a record of it, or has refused. -/
structure Answers (s s' : Session) (d : Decision) : Prop where
  waiting : s.waiting = d :: s'.waiting
  history : s'.registry.log.history = s.registry.log.history
    ∨ ∃ r, s'.registry.log.history = s.registry.log.history ++ [r] ∧ r.decision = d.toValue
  clock : s'.registry.clock = s.registry.clock
  issued : s'.registry.issued = s.registry.issued

/-- Neither the line nor the records have changed. -/
structure Idles (s s' : Session) : Prop where
  waiting : s'.waiting = s.waiting
  history : s'.registry.log.history = s.registry.log.history
  clock : s'.registry.clock = s.registry.clock ∨ s'.registry.clock = s.registry.clock.tick
  issued : s.registry.issued ≤ s'.registry.issued

theorem Idles.refl (s : Session) : s.Idles s := ⟨rfl, rfl, .inl rfl, Nat.le_refl _⟩

variable (s : Session)

theorem idles_of_spares {reg : Registry} (h : s.registry.Spares reg) (hclock : reg.clock = s.registry.clock) :
    s.Idles { s with registry := reg } := ⟨rfl, h.history, .inl hclock, Nat.le_of_eq h.issued.symm⟩

theorem draws_or_idles (p : Proposal) (mode : Mode) (r : Run) (spent : Float) :
    (∃ d, ((s.registry.announceCancellation p r).drawUp p mode r spent).2.toOption = some d
      ∧ s.Draws (s.file p mode r spent) d)
    ∨ ((s.registry.announceCancellation p r).drawUp p mode r spent).2.toOption = none
      ∧ s.Idles (s.file p mode r spent) := by
  obtain ⟨hlog, -, hissued, hid⟩ := s.registry.drawUp_frame p mode r spent
  obtain ⟨hclock, hnow⟩ := s.registry.drawUp_clock p mode r spent
  unfold file
  cases hup : (s.registry.announceCancellation p r).drawUp p mode r spent with
  | mk reg made =>
    rw [hup] at hlog hissued hid hclock hnow
    cases made with
    | error f => exact .inr ⟨rfl, rfl, congrArg _ hlog, .inr hclock,
      Nat.le_of_lt (Nat.lt_of_succ_le (Nat.le_of_eq hissued.symm))⟩
    | ok d => exact .inl ⟨d, rfl, List.map_append, congrArg _ hlog, hnow d rfl, hclock, hid d rfl, hissued⟩

theorem answers_or_idles : (∃ d, s.Answers (s.step .answered) d) ∨ s.Idles (s.step .answered) := by
  cases hfiled : s.filed with
  | nil =>
    rw [step, hfiled]
    exact .inr (.refl s)
  | cons f rest =>
    cases hlog : s.registry.log.append (.str (Audit.hashOf f.proposal.toValue)) f.decision.toValue with
    | mk log record =>
      rw [step_answered hfiled hlog]
      refine .inl ⟨f.decision, by rw [waiting, hfiled]; rfl, ?_, rfl, rfl⟩
      obtain ⟨hgained, hnew⟩ := Audit.Log.append_gains hlog
      cases record with
      | error f => exact .inl (hgained.trans (List.append_nil _))
      | ok r => exact .inr ⟨r, hgained, (hnew r rfl).2⟩

theorem idles_resumed : s.Idles (s.step .resumed) := by
  cases hanswered : s.answered with
  | nil =>
    rw [step, hanswered]
    exact .refl s
  | cons a rest =>
    rw [step_resumed hanswered]
    have h := s.idles_of_spares (s.registry.spares_resume a) (s.registry.resume_clock a)
    exact ⟨h.waiting, h.history, h.clock, h.issued⟩

/-- **One step draws a decision up and puts it in line, or it draws none up**, and then it takes at most the first one
out of the line and puts at most that one on record. -/
theorem moves (o : Occurrence) : (∃ d, s.drawn? o = some d ∧ s.Draws (s.step o) d)
    ∨ s.drawn? o = none ∧ ((∃ d, s.Answers (s.step o) d) ∨ s.Idles (s.step o)) := by
  cases o with
  | asked r =>
    refine .inr ⟨rfl, .inr ?_⟩
    rw [step]
    split <;> exact ⟨rfl, rfl, .inl rfl, Nat.le_refl _⟩
  | cancelled place reason =>
    refine .inr ⟨rfl, .inr ?_⟩
    rw [step]
    split <;> exact ⟨rfl, rfl, .inl rfl, Nat.le_refl _⟩
  | checked place =>
    rw [step, drawn?]
    cases he : s.underWay[place]? with
    | none => exact .inr ⟨rfl, .inr (.refl s)⟩
    | some e =>
      dsimp only
      cases hcheck : e.progress.check (s.registry.circumstances e.proposal e.mode) e.proposal.toValue
        e.cancellation with
      | running q => exact .inr ⟨rfl, .inr ⟨rfl, rfl, .inl rfl, Nat.le_refl _⟩⟩
      | ended r b =>
        rcases draws_or_idles { s with underWay := s.underWay.eraseIdx place } e.proposal e.mode r b.spent with
          ⟨d, hd, h⟩ | ⟨hnone, h⟩
        · exact .inl ⟨d, hd, h.waiting, h.history, h.now, h.clock, h.id, h.issued⟩
        · exact .inr ⟨hnone, .inr ⟨h.waiting, h.history, h.clock, h.issued⟩⟩
  | answered => exact .inr ⟨rfl, s.answers_or_idles⟩
  | resumed => exact .inr ⟨rfl, .inr s.idles_resumed⟩
  | decided refusals =>
    exact .inr ⟨rfl, .inr (s.idles_of_spares ⟨(s.registry.keeps_decided refusals).history, rfl, rfl⟩ rfl)⟩
  | acknowledged decisionId approver note =>
    obtain ⟨hlog, hissued⟩ := s.registry.acknowledge_frame decisionId approver note
    exact .inr ⟨rfl, .inr ⟨rfl, congrArg _ hlog, s.registry.acknowledge_clock decisionId approver note,
      Nat.le_of_eq hissued.symm⟩⟩
  | verified first last =>
    exact .inr ⟨rfl, .inr (s.idles_of_spares (s.registry.spares_verify first last)
      (s.registry.verify_clock first last))⟩
  | resolved operator =>
    exact .inr ⟨rfl, .inr (s.idles_of_spares (s.registry.spares_resolveBreach operator)
      (s.registry.resolveBreach_clock operator))⟩
  | elapsed now => exact .inr ⟨rfl, .inr (s.idles_of_spares ⟨rfl, rfl, rfl⟩ rfl)⟩
  | wrote level text => exact .inr ⟨rfl, .inr (s.idles_of_spares ⟨rfl, rfl, rfl⟩ rfl)⟩

theorem step_clock (o : Occurrence) :
    (s.step o).registry.clock = s.registry.clock ∨ (s.step o).registry.clock = s.registry.clock.tick := by
  rcases s.moves o with ⟨d, -, hd⟩ | ⟨-, ⟨d, hd⟩ | hidle⟩
  · exact .inr hd.clock
  · exact .inl hd.clock
  · exact hidle.clock

end Session

/-! ## Sessions and their clocks -/

/-- The first decision was stamped earlier, and its id was given out earlier. -/
structure Decision.Precedes (d e : Decision) : Prop where
  timestamp : d.timestamp.milliseconds < e.timestamp.milliseconds
  id : ∃ k l, k < l ∧ d.decisionId = Registry.decisionId k ∧ e.decisionId = Registry.decisionId l

/-- A session whose clock shows what it likes. -/
structure Watched where
  session : Session
  /-- How many times somebody looked at the clock. -/
  looks : Nat
  /-- The decisions that were drawn up, oldest first. -/
  drawn : List Decision

namespace Watched

open Session Registry

def opened (reg : Registry) : Watched := ⟨.opened reg, 0, []⟩

/-- The session, where the clock shows what it does at the next look. -/
def current (times : Nat → Clock) (w : Watched) : Session :=
  { w.session with registry := { w.session.registry with clock := times w.looks } }

/-- What happens in the session, with the looks that it takes and the decision that it draws up. -/
def step (times : Nat → Clock) (w : Watched) (o : Occurrence) : Watched :=
  let after := (w.current times).step o
  { session := after
    looks := w.looks + (after.registry.clock.readings - (times w.looks).readings)
    drawn := w.drawn ++ ((w.current times).drawn? o).toList }

def run (times : Nat → Clock) (w : Watched) (occurrences : List Occurrence) : Watched :=
  occurrences.foldl (step times) w

variable {times : Nat → Clock} {before : List Audit.Record} {w : Watched}

/-- The decisions of the records that the log has gained and those that wait after them are some of those drawn up, in
that order; each of these has the instant of a look and an id that was given out, and they have them in their
order. -/
structure IsTimely (times : Nat → Clock) (before : List Audit.Record) (w : Watched) : Prop where
  isSound : w.session.registry.log.IsSound
  line : ∃ gained ds, w.session.registry.log.history = before ++ gained
    ∧ gained.map Audit.Record.decision = ds.map Decision.toValue
    ∧ (ds ++ w.session.waiting).Sublist w.drawn
  stamped : ∀ d ∈ w.drawn, ∃ m k, m < w.looks ∧ (times m).now? = some d.timestamp ∧ k ≤ w.session.registry.issued
    ∧ d.decisionId = Registry.decisionId k
  ordered : w.drawn.Pairwise Decision.Precedes

theorem isTimely_opened {reg : Registry} (h : reg.log.IsSound) : IsTimely times reg.log.history (opened reg) where
  isSound := h
  line := ⟨[], [], (List.append_nil _).symm, rfl, .slnil⟩
  stamped d hd := by cases hd
  ordered := .nil

namespace IsTimely

theorem later (h : w.IsTimely times before) {looks issued : Nat} (hlooks : w.looks ≤ looks)
    (hissued : w.session.registry.issued ≤ issued) {d : Decision} (hd : d ∈ w.drawn) :
    ∃ m k, m < looks ∧ (times m).now? = some d.timestamp ∧ k ≤ issued ∧ d.decisionId = Registry.decisionId k := by
  obtain ⟨m, k, hm, hnow, hk, hid⟩ := h.stamped d hd
  exact ⟨m, k, Nat.lt_of_lt_of_le hm hlooks, hnow, Nat.le_trans hk hissued, hid⟩

theorem draw (hadvances : Clock.Advances times) (h : w.IsTimely times before) {o : Occurrence} {d : Decision}
    (hdrawn : (w.current times).drawn? o = some d) (hd : (w.current times).Draws ((w.current times).step o) d) :
    (w.step times o).IsTimely times before := by
  obtain ⟨gained, ds, hhistory, hgained, hline⟩ := h.line
  have hlooks : (w.step times o).looks = w.looks + 1 := by
    show w.looks + (((w.current times).step o).registry.clock.readings - _) = _
    rw [hd.clock]
    exact congrArg (w.looks + ·) (Nat.add_sub_cancel_left _ 1)
  have hall : (w.step times o).drawn = w.drawn ++ [d] := by
    show w.drawn ++ ((w.current times).drawn? o).toList = _
    rw [hdrawn, Option.toList_some]
  have hissued : (w.step times o).session.registry.issued = w.session.registry.issued + 1 := hd.issued
  refine ⟨isSound_step (s := w.current times) h.isSound o, ⟨gained, ds, hd.history.trans hhistory, hgained, ?_⟩, ?_, ?_⟩
  · rw [hall, show (w.step times o).session.waiting = w.session.waiting ++ [d] from hd.waiting, ← List.append_assoc]
    exact hline.append (.refl _)
  · rw [hall, hlooks, hissued]
    refine List.forall_mem_append.2
      ⟨fun e he => h.later (Nat.le_succ _) (Nat.le_succ _) he, List.forall_mem_singleton.2 ?_⟩
    exact ⟨w.looks, _, Nat.lt_succ_self _, hd.now, Nat.le_refl _, hd.id⟩
  · rw [hall]
    refine List.pairwise_append.2 ⟨h.ordered, List.pairwise_singleton _ _, fun e he d' hd' => ?_⟩
    obtain rfl := List.mem_singleton.1 hd'
    obtain ⟨m, k, hm, hnow, hk, hid⟩ := h.stamped e he
    exact ⟨hadvances m w.looks _ _ hm hnow hd.now, k, _, Nat.lt_succ_of_le hk, hid, hd.id⟩

/-- Where nothing is drawn up, it only matters that the line and the records go on as they should. -/
theorem keep (h : w.IsTimely times before) {o : Occurrence} (hdrawn : (w.current times).drawn? o = none)
    (hissued : w.session.registry.issued ≤ ((w.current times).step o).registry.issued)
    (hline : ∃ gained ds, ((w.current times).step o).registry.log.history = before ++ gained
      ∧ gained.map Audit.Record.decision = ds.map Decision.toValue
      ∧ (ds ++ ((w.current times).step o).waiting).Sublist w.drawn) :
    (w.step times o).IsTimely times before := by
  have hall : (w.step times o).drawn = w.drawn := by
    show w.drawn ++ ((w.current times).drawn? o).toList = _
    rw [hdrawn, Option.toList_none, List.append_nil]
  refine ⟨isSound_step (s := w.current times) h.isSound o, ?_, ?_, ?_⟩
  · rw [hall]
    exact hline
  · rw [hall]
    exact fun d hd => h.later (Nat.le_add_right _ _) hissued hd
  · rw [hall]
    exact h.ordered

/-- **Whatever happens, decisions are drawn up in the order of time and taken in the order in which they were drawn
up.** -/
theorem step (hadvances : Clock.Advances times) (h : w.IsTimely times before) (o : Occurrence) :
    (w.step times o).IsTimely times before := by
  obtain ⟨gained, ds, hhistory, hgained, hline⟩ := h.line
  rcases (w.current times).moves o with ⟨d, hdrawn, hd⟩ | ⟨hdrawn, ⟨d, hd⟩ | hidle⟩
  · exact h.draw hadvances hdrawn hd
  · rw [show w.session.waiting = d :: ((w.current times).step o).waiting from hd.waiting] at hline
    refine h.keep hdrawn (Nat.le_of_eq hd.issued.symm) ?_
    rcases hd.history with hsame | ⟨r, hmore, hr⟩
    · -- a decision that is refused is left out of those on record
      exact ⟨gained, ds, hsame.trans hhistory, hgained,
        (List.Sublist.append_left (List.sublist_cons_self _ _) ds).trans hline⟩
    · refine ⟨gained ++ [r], ds ++ [d], ?_, ?_, by rwa [List.append_assoc]⟩
      · rw [hmore, ← List.append_assoc]
        exact congrArg (· ++ [r]) hhistory
      · rw [List.map_append, List.map_append, hgained, List.map_singleton, List.map_singleton, hr]
  · exact h.keep hdrawn hidle.issued
      ⟨gained, ds, hidle.history.trans hhistory, hgained, by rw [hidle.waiting]; exact hline⟩

theorem run (hadvances : Clock.Advances times) (h : w.IsTimely times before) (occurrences : List Occurrence) :
    (w.run times occurrences).IsTimely times before := by
  induction occurrences generalizing w with
  | nil => exact h
  | cons o rest ih => exact ih (h.step hadvances o)

end IsTimely

/-- Two decisions that are found in this order are drawn up in this order. -/
theorem IsTimely.precedes (h : w.IsTimely times before) {d e : Decision} (hde : [d, e].Sublist w.drawn) :
    d.Precedes e :=
  List.pairwise_iff_forall_sublist.1 h.ordered hde

theorem exists_decision_of_map {gained : List Audit.Record} {ds : List Decision}
    (h : gained.map Audit.Record.decision = ds.map Decision.toValue) {i : Nat} {x : Audit.Record}
    (hx : gained[i]? = some x) :
    ∃ d, ds[i]? = some d ∧ x.decision = d.toValue := by
  have hi := congrArg (·[i]?) h
  simp only [List.getElem?_map, hx, Option.map_some] at hi
  obtain ⟨d, hd, heq⟩ := Option.map_eq_some_iff.1 hi.symm
  exact ⟨d, hd, heq.symm⟩

theorem sublist_pair {α : Type} {l : List α} {i j : Nat} {x y : α} (hij : i < j) (hx : l[i]? = some x)
    (hy : l[j]? = some y) :
    [x, y].Sublist l := by
  obtain ⟨hi, rfl⟩ := List.getElem?_eq_some_iff.1 hx
  obtain ⟨hj, rfl⟩ := List.getElem?_eq_some_iff.1 hy
  exact List.pairwise_iff_getElem.1 (List.pairwise_iff_forall_sublist.2 id) i j hi hj hij

/-- **The order of the records is that of time.**  In a session over a clock that shows a later instant at every look,
whatever is asked for, cancelled, refused by the store or acknowledged, and in whatever order: the records that the
log has gained are numbered on from those before, each is that of a decision that was drawn up, and of any two the one
with the smaller number is that of the decision that was drawn up first, at an earlier instant, and with an id that
was given out earlier. -/
theorem order_of_records {reg : Registry} {store : Option Audit.Store} (hlog : reg.log = .opened store)
    (hbefore : Audit.IsChain reg.log.history) (hadvances : Clock.Advances times) (occurrences : List Occurrence) :
    ∃ gained : List Audit.Record,
      ((opened reg).run times occurrences).session.registry.log.history = reg.log.history ++ gained
      ∧ (∀ (i : Nat) (x : Audit.Record), gained[i]? = some x →
        x.sequenceNumber = .num (Double.counted (reg.log.history.length + i + 1))
          ∧ ∃ d ∈ ((opened reg).run times occurrences).drawn, x.decision = d.toValue)
      ∧ ∀ x ∈ gained, ∀ y ∈ gained, ∀ a b, x.sequenceNumber = .num a → y.sequenceNumber = .num b → a < b →
          ∃ d e, x.decision = d.toValue ∧ y.decision = e.toValue
            ∧ [d, e].Sublist ((opened reg).run times occurrences).drawn ∧ d.Precedes e := by
  have hopened : IsTimely times reg.log.history (opened reg) := isTimely_opened (isSound_opened hlog hbefore)
  have h := hopened.run hadvances occurrences
  obtain ⟨gained, ds, hhistory, hgained, hline⟩ := h.line
  have hdrawn := (List.sublist_append_left ds _).trans hline
  have hnumber : ∀ (i : Nat) (x : Audit.Record), gained[i]? = some x →
      x.sequenceNumber = .num (Double.counted (reg.log.history.length + i + 1)) := by
    intro i x hx
    have hcontinues := h.isSound.chain (reg.log.history.length + i) x
    rw [hhistory, List.getElem?_append_right (Nat.le_add_right _ _), Nat.add_sub_cancel_left,
      Nat.zero_add] at hcontinues
    exact (hcontinues hx).sequenceNumber
  refine ⟨gained, hhistory, fun i x hx => ⟨hnumber i x hx, ?_⟩, fun x hx y hy a b ha hb hab => ?_⟩
  · obtain ⟨d, hd, heq⟩ := exists_decision_of_map hgained hx
    exact ⟨d, hdrawn.subset (List.mem_of_getElem? hd), heq⟩
  · obtain ⟨i, hi⟩ := List.getElem?_of_mem hx
    obtain ⟨j, hj⟩ := List.getElem?_of_mem hy
    rw [hnumber i x hi] at ha
    rw [hnumber j y hj] at hb
    cases ha
    cases hb
    have hlt := (Double.ofNat_lt_counted (Nat.min_le_right _ _)).1 hab
    obtain ⟨d, hd, hxd⟩ := exists_decision_of_map hgained hi
    obtain ⟨e, he, hye⟩ := exists_decision_of_map hgained hj
    have hde := (sublist_pair (by omega) hd he).trans hdrawn
    exact ⟨d, e, hxd, hye, hde, h.precedes hde⟩

/-! ## The clock of the registry -/

/-- A watched session whose clock shows at every look what the clock of the session does. -/
theorem run_eq_of_own {times : Nat → Clock} {start : Float} {readings : Nat}
    (htimes : ∀ n, times n = ⟨start, readings + n⟩) (hclock : w.session.registry.clock = times w.looks)
    (occurrences : List Occurrence) :
    (w.run times occurrences).session = w.session.run occurrences := by
  induction occurrences generalizing w with
  | nil => rfl
  | cons o rest ih =>
    have hcurrent : w.current times = w.session := by
      rw [current, ← hclock]
    have hstep : (w.step times o).session = w.session.step o := congrArg (Session.step · o) hcurrent
    refine (ih (w := w.step times o) ?_).trans (by rw [hstep]; rfl)
    show _ = times (w.looks + ((w.step times o).session.registry.clock.readings - (times w.looks).readings))
    rw [hstep, ← hclock]
    rcases w.session.step_clock o with hsame | htick
    · rw [hsame, Nat.sub_self, hclock]
      rfl
    · rw [htick, hclock, htimes, htimes, Clock.tick]
      simp only [Clock.mk.injEq, true_and]
      omega

/-- **A session is one whose clock shows at every look what its own does.** -/
theorem run_session (reg : Registry) (occurrences : List Occurrence) :
    ((opened reg).run (fun n => ⟨reg.clock.start, reg.clock.readings + n⟩) occurrences).session
      = (Session.opened reg).run occurrences := run_eq_of_own (fun _ => rfl) rfl occurrences

/-- Three evaluations are under way at once.  The decision on the second is drawn up first, then those on the third
and on the first; the record of the third is refused, and that of the first is taken after the first record has been
signed. -/
theorem refused_keeps_order :
    let reg := Registry.start (.ofValue (Settings.merged (.obj []))) (some ⟨[], [false, true], 0⟩)
      (.startingAt Clock.defaultStart)
    let occurrences : List Occurrence :=
      [.asked ⟨.obj (namedMembers "p1" []), none, .absent⟩,
       .asked ⟨.obj (namedMembers "p2" []), some .observe, .absent⟩,
       .asked ⟨.obj (namedMembers "p3" []), none, .absent⟩, .checked 0, .cancelled 1 "enough", .checked 1,
       .cancelled 1 "enough", .checked 1, .cancelled 0 "enough", .checked 0, .answered,
       .acknowledged (.str (decisionId 1 : Text)) (.str "ada") .absent, .answered, .resumed, .answered, .resumed]
    let s := (Session.opened reg).run occurrences
    ∃ (x y : Audit.Record) (d e : Decision), s.registry.log.history = [x, y] ∧ x.sequenceNumber = .num 1.0
      ∧ y.sequenceNumber = .num 2.0
      ∧ x.decision = d.toValue ∧ y.decision = e.toValue ∧ d.Precedes e := by
  intro reg occurrences s
  have hlimit : TimeLimit.ofValue (Value.absent.orElse (.ofOption .num reg.settings.timeoutMs)) = .ok none := rfl
  have hprepared : ∀ {id : String} (mode : Option Mode),
    Schema.Fields.issues Proposal.fields (namedMembers id []) = [] →
      reg.prepare ⟨.obj (namedMembers id []), mode, .absent⟩
        = .ok ⟨.ofValue (.obj (namedMembers id [])), mode.getD reg.settings.mode, none, []⟩ :=
    fun mode h => prepare_eq_ok (create_namedMembers h) hlimit
  have hlength : s.registry.log.history.length = 2 := by
    show ((Session.opened reg).run (_ :: _ :: _ :: _)).registry.log.history.length = 2
    rw [run_asked (hprepared none rfl), run_asked (hprepared (some .observe) rfl), run_asked (hprepared none rfl)]
    decide +kernel
  have hadvances : Clock.Advances fun n => ⟨reg.clock.start, reg.clock.readings + n⟩ := by
    rw [show reg.clock.start = _ from Clock.defaultStart_eq]
    exact Clock.advances_of_whole _ _
  have hlog : reg.log = .opened (some ⟨[], [false, true], 0⟩) := rfl
  obtain ⟨gained, hhistory, hnumbered, hordered⟩ :=
    order_of_records hlog (Audit.chainFrom_nil _ _) hadvances occurrences
  rw [run_session] at hhistory
  obtain ⟨x, y, rfl⟩ := List.length_eq_two.1 (show gained.length = 2 from congrArg List.length hhistory ▸ hlength)
  have hx := (hnumbered 0 x rfl).1
  have hy := (hnumbered 1 y rfl).1
  obtain ⟨d, e, hd, he, -, hde⟩ := hordered x (by simp) y (by simp) _ _ hx hy (by decide +kernel)
  exact ⟨x, y, d, e, hhistory, hx.trans (congrArg _ (by decide)), hy.trans (congrArg _ (by decide)), hd, he, hde⟩

end Watched

end PolicyGates
