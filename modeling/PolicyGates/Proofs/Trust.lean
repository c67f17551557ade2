import Mathlib.Data.List.DropRight
import PolicyGates.Proofs.Rejection
/-!
# Trust in the log

Whatever is done with a log, one deed does one of three things to its breach (`breach_perform`): it lifts it, it puts
a finding of its own in its place, or it leaves it alone.  So the breach is the last of the findings since somebody
lifted one (`breach_performAll`), and the log is trusted if there are none: `trust_exact`.
-/
namespace PolicyGates

/-! ## Verifications that come to no finding -/

namespace Audit

theorem flaw?_wantsText (r : Record) (l : Link) : WantsText (r.flaw? l) := by
  unfold Record.flaw?
  refine .ite (l.next.quote_wantsText.bind fun _ => r.sequenceNumber.quote_wantsText.bind fun _ => .ok _) ?_
  exact .ite (.ok _) (.ite (.ok _) (.ite (.ok _) (.ok _)))

theorem link_wantsText (r : Record) : WantsText r.link := (r.sequenceNumber.plus_wantsText _).bind fun _ => .ok _

/-- **All that keeps a verification from a finding is a value without a text.** -/
theorem walk_wantsText (first last : Value) (l : Link) (checked : Nat) (history : List Record) :
    WantsText (walk first last l checked history) := by
  induction history generalizing l checked with
  | nil => exact .ok _
  | cons r rest ih =>
    have hrest : ∀ checked, WantsText (r.link >>= fun l' => walk first last l' checked rest) := fun checked =>
      (link_wantsText r).bind fun l' => ih l' checked
    rw [walk]
    refine (Value.compare_wantsText _ _ _ _).bind fun beyond => .ite (.ok _) ?_
    refine (Value.compare_wantsText _ _ _ _).bind fun within => .ite ?_ (hrest checked)
    refine (flaw?_wantsText r l).bind fun flaw => ?_
    cases flaw with
    | some flaw => exact .ok _
    | none => exact hrest (checked + 1)

/-! ## Appends -/

theorem Log.breach_put (l : Log) (r : Record) : (l.put r).breach = l.breach := by
  unfold put
  cases l.store with
  | none => rfl
  | some s =>
    dsimp only
    rcases s.append r with ⟨s', _ | _⟩ <;> rfl

theorem Log.breach_append (l : Log) (proposalHash decision : Value) :
    (l.append proposalHash decision).1.breach = l.breach := by
  rw [append_eq_put]
  cases l.nextRecord proposalHash decision with
  | error f => rfl
  | ok r => exact l.lookedUp.breach_put r

end Audit

/-! ## What is done -/

/-- What is done with a log; others may do anything to its store. -/
inductive Deed where
  | append (proposalHash decision : Value)
  | verify (first last : Value)
  | assertIntact (first last : Value)
  | resolveBreach (operator : Value)
  | edit (store : Audit.Store)

namespace Deed

/-- The numbers between which the deed looks through the log. -/
def range? : Deed → Option (Value × Value)
  | verify first last => some (first, last)
  | assertIntact first last => some (first, last)
  | _ => none

/-- A breach is lifted by somebody who can be named, as by any text. -/
def lifts : Deed → Bool
  | resolveBreach operator => operator.quote.isOk
  | _ => false

end Deed

namespace Registry

def perform (reg : Registry) : Deed → Registry
  | .append proposalHash decision => { reg with log := (reg.log.append proposalHash decision).1 }
  | .verify first last => (reg.verify first last).1
  | .assertIntact first last => (reg.assertIntact first last).1
  | .resolveBreach operator => (reg.resolveBreach operator).toOption.getD reg
  | .edit store => { reg with log := { reg.log with store := reg.log.store.map fun _ => store } }

def performAll (reg : Registry) (deeds : List Deed) : Registry := deeds.foldl perform reg

/-- What a look through the log finds if the chain is broken. -/
def broken? (reg : Registry) (first last : Value) : Option Audit.Finding :=
  (Audit.verify first last reg.log.history).toOption.filter fun f => !f.valid

/-- The breach that a deed comes upon. -/
def comesUpon? (reg : Registry) (d : Deed) : Option Audit.Finding :=
  d.range?.bind fun range => reg.broken? range.1 range.2

/-- The breaches that several deeds come upon, one after the other. -/
def breaches (reg : Registry) : List Deed → List Audit.Finding
  | [] => []
  | d :: rest => (reg.comesUpon? d).toList ++ (reg.perform d).breaches rest

variable {reg : Registry} {d : Deed} {deeds more : List Deed} {f : Audit.Finding} {first last : Value}

theorem performAll_append (reg : Registry) (deeds more : List Deed) :
    reg.performAll (deeds ++ more) = (reg.performAll deeds).performAll more := List.foldl_append

theorem breaches_append (reg : Registry) (deeds more : List Deed) :
    reg.breaches (deeds ++ more) = reg.breaches deeds ++ (reg.performAll deeds).breaches more := by
  induction deeds generalizing reg with
  | nil => rfl
  | cons d rest ih =>
    rw [List.cons_append, breaches, breaches, ih, List.append_assoc]
    rfl

/-- What was come upon at all was come upon by some deed, after those before it. -/
theorem mem_breaches : f ∈ reg.breaches deeds ↔
    ∃ before look after, deeds = before ++ look :: after ∧ (reg.performAll before).comesUpon? look = some f := by
  constructor
  · intro h
    induction deeds generalizing reg with
    | nil => cases h
    | cons d rest ih =>
      rcases List.mem_append.1 h with hd | hrest
      · exact ⟨[], d, rest, rfl, Option.mem_toList.1 hd⟩
      · obtain ⟨before, look, after, rfl, hlook⟩ := ih hrest
        exact ⟨d :: before, look, after, rfl, hlook⟩
  · rintro ⟨before, look, after, rfl, hlook⟩
    rw [breaches_append, breaches, hlook]
    exact List.mem_append_right _ List.mem_cons_self

/-! ## What it does to the breach -/

theorem answer_verify (reg : Registry) (first last : Value) :
    (reg.verify first last).2 = Audit.verify first last reg.log.history := by
  unfold verify Audit.Log.verify
  cases Audit.verify first last reg.log.history <;> rfl

theorem breach_verify (reg : Registry) (first last : Value) :
    (reg.verify first last).1.log.breach = (reg.broken? first last).or reg.log.breach := by
  unfold verify Audit.Log.verify broken?
  cases Audit.verify first last reg.log.history with
  | error e => rfl
  | ok f =>
    obtain ⟨valid, link, reason, checked⟩ := f
    cases valid <;> rfl

theorem breach_resolveBreach (reg : Registry) (operator : Value) :
    ((reg.resolveBreach operator).toOption.getD reg).log.breach
      = if operator.quote.isOk then none else reg.log.breach := by
  unfold resolveBreach
  cases hbreach : reg.log.breach with
  | none => exact (ite_self none).symm
  | some f =>
    cases operator.quote with
    | ok name => rfl
    | error e => exact hbreach

/-- **A deed lifts the breach, or puts another one in its place, or leaves it alone.** -/
theorem breach_perform (reg : Registry) (d : Deed) :
    (reg.perform d).log.breach = if d.lifts then none else (reg.comesUpon? d).or reg.log.breach := by
  cases d with
  | append proposalHash decision => exact reg.log.breach_append proposalHash decision
  | verify first last => exact reg.breach_verify first last
  | assertIntact first last => exact reg.breach_verify first last
  | resolveBreach operator => exact reg.breach_resolveBreach operator
  | edit store => rfl

/-- **The breach is the last one that somebody came upon since one was lifted.** -/
theorem breach_performAll (h : reg.log.breach = none) (deeds : List Deed) :
    (reg.performAll deeds).log.breach =
      ((reg.performAll (deeds.rdropWhile fun d => !d.lifts)).breaches
        (deeds.rtakeWhile fun d => !d.lifts)).getLast? := by
  induction deeds using List.reverseRecOn with
  | nil => exact h
  | append_singleton deeds d ih =>
    have hstep : (reg.performAll (deeds ++ [d])).log.breach
        = if d.lifts then none else ((reg.performAll deeds).comesUpon? d).or (reg.performAll deeds).log.breach := by
      rw [performAll_append]
      exact breach_perform (reg.performAll deeds) d
    cases hd : d.lifts with
    | true =>
      rw [hstep, hd, List.rtakeWhile_concat_neg _ _ _ (by simp [hd])]
      rfl
    | false =>
      rw [hstep, hd, List.rtakeWhile_concat_pos _ _ _ (by simp [hd]), List.rdropWhile_concat_pos _ _ _ (by simp [hd]),
        breaches_append, ← performAll_append, List.rdropWhile_append_rtakeWhile, List.getLast?_append, ← ih]
      rw [breaches, breaches, List.append_nil]
      cases (reg.performAll deeds).comesUpon? d <;> rfl

theorem isTrusted_eq_false_iff (l : Audit.Log) : l.isTrusted = false ↔ l.breach ≠ none := by
  unfold Audit.Log.isTrusted
  cases l.breach <;> simp

theorem isTrusted_performAll_of_not_lifts (h : reg.log.isTrusted = false) (hmore : ∀ d ∈ more, d.lifts = false) :
    (reg.performAll more).log.isTrusted = false := by
  induction more generalizing reg with
  | nil => exact h
  | cons d rest ih =>
    obtain ⟨hd, hrest⟩ := List.forall_mem_cons.1 hmore
    refine ih ((isTrusted_eq_false_iff _).2 ?_) hrest
    rw [breach_perform, hd]
    cases reg.comesUpon? d with
    | none => exact (isTrusted_eq_false_iff _).1 h
    | some f => exact Option.some_ne_none f

/-- **The call fails with a finding exactly if it comes to one that is not valid.** -/
theorem assertIntact_eq_broken : (reg.assertIntact first last).2 = .error (.policy (.auditChainBroken f)) ↔
    Audit.verify first last reg.log.history = .ok f ∧ f.valid = false := by
  unfold assertIntact
  dsimp only
  rw [answer_verify]
  cases hverify : Audit.verify first last reg.log.history with
  | error e =>
    obtain rfl := Audit.walk_wantsText _ _ _ _ _ e hverify
    constructor
    · rintro ⟨⟩
    · rintro ⟨hf, -⟩
      cases hf
  | ok g =>
    obtain ⟨valid, link, reason, checked⟩ := g
    cases valid with
    | true =>
      constructor
      · rintro ⟨⟩
      · rintro ⟨hf, hvalid⟩
        rw [← Except.ok.inj hf] at hvalid
        cases hvalid
    | false =>
      constructor
      · rintro ⟨⟩
        exact ⟨rfl, rfl⟩
      · rintro ⟨hf, -⟩
        rw [← Except.ok.inj hf]
        rfl

/-- **How long a log is distrusted.**  Whatever is done with it, and whatever others make of its store meanwhile, a
log is distrusted exactly if somebody has come upon a breach since one was last lifted, or since the log was opened;
the breach that it remembers is the last of these.  A look through a range answers for that range alone, and fails
with a broken chain exactly if it finds the chain broken there.  And nothing restores trust but lifting the breach. -/
theorem trust_exact (settings : Settings) (store : Option Audit.Store) (clock : Clock) (deeds : List Deed) :
    let opened := start settings store clock
    let resolved := deeds.rdropWhile fun d => !d.lifts
    let since := deeds.rtakeWhile fun d => !d.lifts
    let reg := opened.performAll deeds
    (reg.log.isTrusted = false ↔ ∃ before look after f, since = before ++ look :: after
        ∧ (opened.performAll (resolved ++ before)).comesUpon? look = some f)
    ∧ reg.log.breach = ((opened.performAll resolved).breaches since).getLast?
    ∧ (∀ first last, (reg.verify first last).2 = Audit.verify first last reg.log.history)
    ∧ (∀ first last f, (reg.assertIntact first last).2 = .error (.policy (.auditChainBroken f)) ↔
        Audit.verify first last reg.log.history = .ok f ∧ f.valid = false)
    ∧ ∀ more, (∀ d ∈ more, d.lifts = false) → reg.log.isTrusted = false →
      (reg.performAll more).log.isTrusted = false := by
  intro opened resolved since reg
  have hbreach : reg.log.breach = ((opened.performAll resolved).breaches since).getLast? := breach_performAll rfl deeds
  refine ⟨?_, hbreach, reg.answer_verify, fun first last f => assertIntact_eq_broken,
    fun more hmore h => isTrusted_performAll_of_not_lifts h hmore⟩
  simp only [performAll_append]
  rw [isTrusted_eq_false_iff, hbreach, Ne, List.getLast?_eq_none_iff, ← Ne]
  constructor
  · intro hne
    obtain ⟨f, hf⟩ := List.exists_mem_of_ne_nil _ hne
    obtain ⟨before, look, after, hsince, hlook⟩ := mem_breaches.1 hf
    exact ⟨before, look, after, f, hsince, hlook⟩
  · rintro ⟨before, look, after, f, hsince, hlook⟩
    exact List.ne_nil_of_mem (mem_breaches.2 ⟨before, look, after, hsince, hlook⟩)

/-- A record that links back to nowhere is come upon, and removing it does not restore trust. -/
theorem trust_after_removal :
    let astray : Audit.Record := ⟨.num 1.0, .absent, .ofText "", .absent, .ofText "", .null⟩
    let opened := start .standard (some ⟨[astray], [], 0⟩) (Clock.startingAt Clock.defaultStart)
    let deeds := [.verify Audit.firstSequence Audit.lastSequence, .edit .empty,
      .assertIntact Audit.firstSequence Audit.lastSequence, .append (.str "") .null]
    (opened.performAll deeds).log.isTrusted = false
    ∧ (opened.performAll (deeds ++ [.resolveBreach (.str "operator")])).log.breach = none := by
  intro astray opened deeds
  have hlook : (opened.comesUpon? (.verify Audit.firstSequence Audit.lastSequence)).isSome = true := by decide +kernel
  obtain ⟨f, hf⟩ := Option.isSome_iff_exists.1 hlook
  exact ⟨(trust_exact _ _ _ deeds).1.2 ⟨[], _, _, f, rfl, hf⟩, (trust_exact _ _ _ (deeds ++ [_])).2.1⟩

end Registry

end PolicyGates
