import PolicyGates.Run
/-!
# What the gates tell of any document

Gates are handed documents that nobody has checked.  Whatever a document holds, a gate gives its opinion, or something
in the document or the settings is of no use to it; neither is a matter of the policy (`judge_yields`,
`cost_yields`).  So there is one result that is told of a gate (`told`), in every mode and on every budget that is not
closed, except where the budget cannot pay for it (`evaluate_cases`), and only then is it said that it could not
(`told_isPaid`).
-/
namespace PolicyGates

/-! ## What comes out of values -/

/-- Whatever comes out has the property, and whatever goes wrong is not put down to a budget that is too small. -/
structure Yields {α : Type} (r : Except Failure α) (P : α → Prop) : Prop where
  ok : ∀ a, r = .ok a → P a
  error : ∀ f, r = .error f → Progress.isExhaustion f = false

namespace Yields

variable {α β : Type} {P : α → Prop}

theorem pure {a : α} (h : P a) : Yields (Pure.pure a) P where
  ok b hb := Except.ok.inj hb ▸ h
  error f hf := by cases hf

theorem fail {f : Failure} (h : Progress.isExhaustion f = false) : Yields (.error f) P where
  ok a ha := by cases ha
  error e he := Except.error.inj he ▸ h

theorem bind {r : Except Failure β} {Q : β → Prop} {f : β → Except Failure α} (hr : Yields r Q)
    (hf : ∀ b, Q b → Yields (f b) P) :
    Yields (r >>= f) P := by
  cases r with
  | error g => exact fail (hr.error g rfl)
  | ok b => exact hf b (hr.ok b rfl)

theorem map {r : Except Failure β} {Q : β → Prop} {f : β → α} (hr : Yields r Q) (hf : ∀ b, Q b → P (f b)) :
    Yields (r.map f) P := by
  cases r with
  | error g => exact fail (hr.error g rfl)
  | ok b => exact pure (hf b (hr.ok b rfl))

theorem ite {c : Prop} [Decidable c] {r r' : Except Failure α} (h : Yields r P) (h' : Yields r' P) :
    Yields (if c then r else r') P := by
  split
  · exact h
  · exact h'

theorem foldlM {f : β → α → Except Failure β} (hf : ∀ b a, Yields (f b a) fun _ => True) (as : List α) (b : β) :
    Yields (as.foldlM f b) fun _ => True := by
  induction as generalizing b with
  | nil => exact pure trivial
  | cons a rest ih =>
    rw [List.foldlM_cons]
    exact (hf b a).bind fun b' _ => ih b'

theorem anyM {f : α → Except Failure Bool} (hf : ∀ a, Yields (f a) fun _ => True) (as : List α) :
    Yields (as.anyM f) fun _ => True := by
  induction as with
  | nil => exact pure trivial
  | cons a rest ih =>
    rw [List.anyM]
    refine (hf a).bind fun b _ => ?_
    cases b with
    | true => exact pure trivial
    | false => exact ih

theorem filterM {f : α → Except Failure Bool} (hf : ∀ a, Yields (f a) fun _ => True) (as : List α) :
    Yields (as.filterM f) fun _ => True := by
  -- what was found before is carried along
  have haux : ∀ found, Yields (List.filterAuxM f as found) fun _ => True := by
    induction as with
    | nil => exact fun found => pure trivial
    | cons a rest ih => exact fun found => (hf a).bind fun _ _ => ih _
  exact (haux []).bind fun _ _ => pure trivial

end Yields

namespace Value

theorem isExhaustion_lacks (v : Value) (name operation : String) :
    Progress.isExhaustion (v.lacks name operation) = false := by
  unfold lacks
  split <;> rfl

theorem ask_yields (v : Value) (key : String) : Yields (v.ask key) fun _ => True := by
  unfold ask
  exact .ite (.fail rfl) (.pure trivial)

theorem quote_yields (v : Value) : Yields v.quote fun _ => True := by
  unfold quote
  split
  · exact .pure trivial
  · exact .fail rfl

theorem number_yields (v : Value) : Yields v.number fun _ => True := by
  unfold number
  split
  · exact .pure trivial
  · exact .pure trivial
  · exact .pure trivial
  · exact .pure trivial
  · exact v.quote_yields.map fun _ _ => trivial

theorem plus_yields (a b : Value) : Yields (a.plus b) fun _ => True := by
  unfold plus
  exact .ite (a.quote_yields.bind fun _ _ => b.quote_yields.bind fun _ _ => .pure trivial)
    (a.number_yields.bind fun _ _ => b.number_yields.bind fun _ _ => .pure trivial)

theorem times_yields (a b : Value) : Yields (a.times b) fun _ => True :=
  a.number_yields.bind fun _ _ => b.number_yields.bind fun _ _ => .pure trivial

theorem compare_yields (texts : Text → Text → Bool) (numbers : Float → Float → Bool) (a b : Value) :
    Yields (compare texts numbers a b) fun _ => True := by
  unfold compare
  exact .ite (a.quote_yields.bind fun _ _ => b.quote_yields.bind fun _ _ => .pure trivial)
    (a.number_yields.bind fun _ _ => b.number_yields.bind fun _ _ => .pure trivial)

end Value

/-! ## Opinions -/

/-- What a text begins with. -/
def Text.Opens (first : Char) (t : Text) : Prop := t.units.head? = some first.toNat

theorem Text.Opens.append {first : Char} {t : Text} (h : t.Opens first) (u : Text) : (t ++ u).Opens first := by
  rw [Text.Opens, Text.units_append, List.head?_append, h]
  rfl

/-- A text that begins neither as what is said of a budget nor as what is said of an error. -/
def Text.IsOwn (t : Text) : Prop := ¬t.Opens 'e' ∧ ¬t.Opens 'g'

theorem Text.Opens.not_opens {first other : Char} {t : Text} (h : t.Opens first) (hne : first ≠ other) :
    ¬t.Opens other :=
  fun ho => hne (Char.ext (UInt32.toNat_inj.1 (Option.some.inj (h.symm.trans ho))))

theorem Text.Opens.isOwn {first : Char} {t : Text} (h : t.Opens first) (hne : first ≠ 'e' ∧ first ≠ 'g') : t.IsOwn :=
  ⟨h.not_opens hne.1, h.not_opens hne.2⟩

namespace Gate

/-- What a gate may say: only the last one leaves a proposal to people, only the one for viability power speaks of
that, and no failure is put down to the budget or to an error. -/
structure Voices (g : Gate) (o : Opinion) : Prop where
  escalate : o.outcome = .escalate → g = .humanEscalation
  viabilityPowerDelta : o.viabilityPowerDelta ≠ .absent → g = .viabilityPower
  message : o.outcome = .fail → o.message.IsOwn

variable {g : Gate}

theorem voices_pass (g : Gate) (message : Text) : g.Voices (.pass message) :=
  ⟨fun h => (by cases h), fun h => absurd rfl h, fun h => (by cases h)⟩

theorem voices_fail {first : Char} {message : Text} (h : message.Opens first) (hne : first ≠ 'e' ∧ first ≠ 'g')
    (g : Gate) :
    g.Voices (.fail message) :=
  ⟨fun h => (by cases h), fun h => absurd rfl h, fun _ => h.isOwn hne⟩

theorem voices_escalate (message : Text) : humanEscalation.Voices (.escalate message) :=
  ⟨fun _ => rfl, fun h => absurd rfl h, fun h => (by cases h)⟩

/-! ## What each gate says -/

theorem netEnergy_yields (p : Value) : Yields (netEnergy p) fun _ => True :=
  (p.ask_yields _).bind fun _ _ => (p.ask_yields _).bind fun _ _ => (Value.plus_yields _ _).bind fun _ _ =>
    (p.ask_yields _).bind fun _ _ => Value.plus_yields _ _

theorem judgeSolvency_yields (p : Value) : Yields (judgeSolvency p) thermodynamicSolvency.Voices := by
  have hnet : Text.Opens 't' "thermodynamically insolvent: E_net " := rfl
  have hinvested : Text.Opens 't' "thermodynamically insolvent: E_invested " := rfl
  refine (netEnergy_yields p).bind fun net _ => net.quote_yields.bind fun _ _ =>
    (Value.compare_yields ..).bind fun _ _ => .ite ?_ ?_
  · exact .pure (voices_fail ((hnet.append _).append _) (by decide) _)
  · refine (p.ask_yields _).bind fun _ _ => (p.ask_yields _).bind fun _ _ => (Value.quote_yields _).bind fun _ _ =>
      (Value.quote_yields _).bind fun _ _ => (Value.compare_yields ..).bind fun _ _ => .ite ?_ ?_
    · exact .pure (voices_fail (((hinvested.append _).append _).append _) (by decide) _)
    · exact .pure (voices_pass _ _)

theorem countsAsModel_yields (v : Value) : Yields (countsAsModel v) fun _ => True := by
  unfold countsAsModel
  split
  · exact .pure trivial
  · exact .fail (Value.isExhaustion_lacks _ _ _)

theorem judgeVariety_yields (p : Value) : Yields (judgeVariety p) cognitiveVariety.Voices := by
  refine (p.ask_yields _).bind fun models _ => ?_
  split
  · refine (Yields.filterM countsAsModel_yields _).bind fun _ _ => .ite ?_ ?_
    · exact .pure (voices_fail (show Text.Opens 'N' "No dissenting or alternative model declared" from rfl)
        (by decide) _)
    · exact .pure (voices_pass _ _)
  · exact .fail (Value.isExhaustion_lacks _ _ _)

theorem judgeHardware_yields (settings p : Value) : Yields (judgeHardware settings p) hardwareViability.Voices := by
  have hlimit : Text.Opens 'H' "Hard resource limit: estimated memory " := rfl
  refine (settings.ask_yields _).bind fun _ _ => (p.ask_yields _).bind fun _ _ => (Value.quote_yields _).bind fun _ _ =>
    (Value.quote_yields _).bind fun _ _ => (Value.compare_yields ..).bind fun _ _ => .ite ?_ ?_
  · exact .pure (voices_fail ((((hlimit.append _).append _).append _).append _) (by decide) _)
  · exact .pure (voices_pass _ _)

end Gate

namespace Evidence

theorem weight_yields (item : Value) : Yields (weight item) fun _ => True :=
  (item.ask_yields _).bind fun _ _ => .ite ((Value.quote_yields _).bind fun _ _ => .pure trivial) (.pure trivial)

theorem total_yields (items : List Value) : Yields (total items) fun _ => True :=
  .foldlM (fun sum item => (weight_yields item).bind fun w _ => sum.plus_yields w.toValue) items _

theorem meets_yields (threshold item : Value) : Yields (meets threshold item) fun _ => True :=
  (item.ask_yields _).bind fun _ _ => Value.compare_yields ..

end Evidence

theorem Phase.threshold_yields (phase : Value) : Yields (Phase.threshold phase) fun _ => True :=
  phase.quote_yields.bind fun _ _ => .pure trivial

theorem EvidenceScore.of_yields (items phase : Value) : Yields (EvidenceScore.of items phase) fun _ => True := by
  refine (items.ask_yields _).bind fun _ _ => .ite (.pure trivial) ?_
  split
  · exact (Evidence.total_yields _).bind fun _ _ => (Value.number_yields _).bind fun _ _ =>
      (Phase.threshold_yields phase).bind
      fun threshold _ => (Yields.anyM (Evidence.meets_yields threshold) _).bind fun _ _ => .pure trivial
  · exact .fail (Value.isExhaustion_lacks _ _ _)

namespace Gate

theorem judgeEvidence_yields (settings phase p : Value) :
    Yields (judgeEvidence settings phase p) evidenceSufficiency.Voices := by
  have hfail : Text.Opens 'I' "Insufficient evidence: " := rfl
  refine (p.ask_yields _).bind fun _ _ => (EvidenceScore.of_yields _ phase).bind fun _ _ =>
    (settings.ask_yields _).bind fun _ _ =>
    (Value.compare_yields ..).bind fun _ _ => (Value.quote_yields _).bind fun _ _ =>
      phase.quote_yields.bind fun _ _ => .ite ?_ ?_
  · exact .pure (voices_pass _ _)
  · exact .pure (voices_fail (hfail.append _) (by decide) _)

theorem voices_viability {outcome : Outcome} {message : Text} (delta : Value) (hescalate : outcome ≠ .escalate)
    (hmessage : outcome = .fail → message.IsOwn) : viabilityPower.Voices ⟨outcome, message, delta⟩ :=
  ⟨fun h => absurd h hescalate, fun _ => rfl, hmessage⟩

theorem judgeViability_yields (settings p : Value) : Yields (judgeViability settings p) viabilityPower.Voices := by
  have hfail : Text.Opens 'V' "VP accrual of " := rfl
  refine (settings.ask_yields _).bind fun _ _ => (p.ask_yields _).bind fun _ _ => (Value.quote_yields _).bind fun _ _ =>
    (Value.quote_yields _).bind fun _ _ => (p.ask_yields _).bind fun _ _ =>
      (Value.compare_yields ..).bind fun _ _ => .ite ?_ ?_
  · exact .pure (voices_viability _ (by decide) (by simp))
  · refine (Value.compare_yields ..).bind fun _ _ => .ite ((Value.quote_yields _).bind fun _ _ => .pure ?_) ?_
    · exact voices_viability _ (by decide) fun _ =>
        (((((hfail.append _).append _).append _).append _).append _).isOwn (by decide)
    · exact .pure (voices_viability _ (by decide) (by simp))

theorem judgeImpact_yields (settings p : Value) : Yields (judgeImpact settings p) humanEscalation.Voices := by
  refine (settings.ask_yields _).bind fun _ _ => (p.ask_yields _).bind fun _ _ => (Value.quote_yields _).bind fun _ _ =>
    (Value.quote_yields _).bind fun _ _ => (Value.compare_yields ..).bind fun _ _ => .ite ?_ ?_
  · exact .pure (voices_escalate _)
  · exact .pure (voices_pass _ _)

/-- **Whatever the document, a gate says what it may or comes to nothing**, and the policy is not to blame for that. -/
theorem judge_yields (g : Gate) (settings phase p : Value) : Yields (g.judge settings phase p) g.Voices := by
  cases g with
  | thermodynamicSolvency => exact judgeSolvency_yields p
  | cognitiveVariety => exact judgeVariety_yields p
  | hardwareViability => exact judgeHardware_yields settings p
  | evidenceSufficiency => exact judgeEvidence_yields settings phase p
  | viabilityPower => exact judgeViability_yields settings p
  | humanEscalation => exact judgeImpact_yields settings p

theorem surcharge_yields (g : Gate) (costs p : Value) : Yields (g.surcharge costs p) fun _ => True := by
  cases g with
  | evidenceSufficiency =>
    exact (p.ask_yields _).bind fun _ _ => (Value.ask_yields _ _).bind fun _ _ => (costs.ask_yields _).bind fun _ _ =>
      Value.times_yields _ _
  | _ => exact .pure trivial

theorem cost_yields (g : Gate) (settings p : Value) : Yields (g.cost settings p) fun _ => True :=
  (settings.ask_yields _).bind fun costs _ => (costs.ask_yields _).bind fun _ _ =>
    (Value.ask_yields _ _).bind fun _ _ =>
    (g.surcharge_yields costs p).bind fun _ _ => Value.plus_yields _ _

end Gate

/-! ## Prices -/

namespace Budget

/-- The energy that an amount stands for, if a budget takes such amounts at all. -/
def payable (closed : Bool) : Value → Except Failure Float
  | .num x =>
    if closed then .error (.policy .budgetClosed)
    else if !x.isFinite ∨ x < 0.0 then .error (.policy (.unchargeable (Decimal.text x)))
    else .ok x
  | v => if closed then .error (.policy .budgetClosed) else v.quote.bind
    (fun shown => .error (.policy (.unchargeable shown)))

theorem chargeAny_eq (b : Budget) (amount : Value) :
    b.chargeAny amount = (payable b.closed amount).bind fun x =>
      if b.maxTokens < b.spent + x then .error (.policy (.budgetExceeded x b.remaining))
      else .ok { b with spent := b.spent + x } := by
  by_cases hclosed : b.closed = true
  · cases amount with
    | num x =>
      simp only [chargeAny, payable, charge_of_closed hclosed, if_pos hclosed]
      rfl
    | _ =>
      simp only [chargeAny, payable, if_pos hclosed]
      rfl
  · cases amount with
    | num x =>
      simp only [chargeAny, charge, payable, if_neg hclosed]
      by_cases hamount : (!x.isFinite) = true ∨ x < 0.0
      · simp only [if_pos hamount]
        rfl
      · simp only [if_neg hamount]
        by_cases hfits : b.maxTokens < b.spent + x
        · simp only [if_pos hfits, Except.bind]
        · simp only [if_neg hfits, Except.bind]
    | _ =>
      simp only [chargeAny, payable, if_neg hclosed]
      cases Value.quote _ <;> rfl

theorem payable_of_closed (amount : Value) : payable true amount = .error (.policy .budgetClosed) := by
  cases amount <;> rfl

/-- Only numbers are payable, and only from a budget that is open.  What is not payable is not beyond a budget that is
too small, it is beyond all of them. -/
theorem payable_yields (closed : Bool) (amount : Value) :
    Yields (payable closed amount) fun x => closed = false ∧ amount = .num x := by
  cases closed with
  | true =>
    rw [payable_of_closed]
    exact .fail rfl
  | false =>
    cases amount with
    | num x => exact .ite (.fail rfl) (.pure ⟨rfl, rfl⟩)
    | _ => exact (Value.quote_yields _).bind fun _ _ => .fail rfl

end Budget

/-! ## Results -/

namespace GateResult

/-- Told of a gate that the budget could not pay, in the very words. -/
def IsUnpaid (x : GateResult) : Prop :=
  ∃ requested remaining, x = Progress.refusal x.gate (.policy (.budgetExceeded requested remaining))

/-- Told of a gate that could not be paid for at all, or could not make sense of what it was handed. -/
def IsErratic (x : GateResult) : Prop := ∃ f, Progress.isExhaustion f = false ∧ x = Progress.refusal x.gate f

/-- A result that a gate came to. -/
structure IsJudged (x : GateResult) (g : Gate) : Prop where
  gate : x.gate = g
  voices : g.Voices ⟨x.outcome, x.message, x.viabilityPowerDelta⟩

/-- A result that is told of a gate whether it came to one or not, as long as the budget was not too small. -/
structure IsPaid (x : GateResult) (g : Gate) : Prop where
  gate : x.gate = g
  escalate : x.outcome = .escalate → g = .humanEscalation
  viabilityPowerDelta : x.viabilityPowerDelta ≠ .absent → g = .viabilityPower
  message : x.outcome = .fail → ¬x.message.Opens 'e'

theorem IsJudged.isPaid {x : GateResult} {g : Gate} (h : x.IsJudged g) : x.IsPaid g :=
  ⟨h.gate, h.voices.escalate, h.voices.viabilityPowerDelta, fun hfail => (h.voices.message hfail).1⟩

theorem IsErratic.outcome {x : GateResult} (h : x.IsErratic) : x.outcome = .fail := by
  obtain ⟨f, -, hx⟩ := h
  rw [hx]
  rfl

/-- **An error is told as one.** -/
theorem IsErratic.message {x : GateResult} (h : x.IsErratic) : x.message.Opens 'g' := by
  obtain ⟨f, hf, hx⟩ := h
  have hwords : Text.Opens 'g' "gate error: " := rfl
  rw [hx, Progress.refusal, hf]
  exact hwords.append _

theorem isErratic_refusal (g : Gate) {f : Failure} (h : Progress.isExhaustion f = false) :
    (Progress.refusal g f).IsErratic :=
  ⟨f, h, rfl⟩

theorem IsJudged.not_isErratic {x : GateResult} {g : Gate} (h : x.IsJudged g) : ¬x.IsErratic :=
  fun he => (h.voices.message he.outcome).2 he.message

/-- An error does not make a gate one that was not paid for. -/
theorem IsErratic.isPaid {x : GateResult} (h : x.IsErratic) : x.IsPaid x.gate where
  gate := rfl
  escalate hescalate := by
    rw [h.outcome] at hescalate
    cases hescalate
  viabilityPowerDelta hdelta := by
    obtain ⟨f, -, hx⟩ := h
    exact absurd (by rw [hx]; rfl) hdelta
  message _ := h.message.not_opens (by decide)

theorem IsUnpaid.outcome {x : GateResult} (h : x.IsUnpaid) : x.outcome = .fail := by
  obtain ⟨requested, remaining, hx⟩ := h
  rw [hx]
  rfl

theorem IsUnpaid.energySpent {x : GateResult} (h : x.IsUnpaid) : x.energySpent = 0.0 := by
  obtain ⟨requested, remaining, hx⟩ := h
  rw [hx]
  rfl

theorem isUnpaid_refusal (g : Gate) (requested remaining : Float) :
    (Progress.refusal g (.policy (.budgetExceeded requested remaining))).IsUnpaid :=
  ⟨requested, remaining, rfl⟩

theorem IsPaid.not_isUnpaid {x : GateResult} {g : Gate} (h : x.IsPaid g) : ¬x.IsUnpaid := by
  intro hu
  obtain ⟨requested, remaining, hx⟩ := id hu
  have hwords : Text.Opens 'e' "energy budget exceeded: " := rfl
  refine h.message hu.outcome ?_
  rw [hx]
  exact hwords.append _

end GateResult

namespace Gate

/-- What a gate comes to once it is paid for, if the price can be paid at all. -/
def attempt (g : Gate) (c : Circumstances) (p : Value) (closed : Bool) : Except Failure GateResult := do
  let energy ← Budget.payable closed (← g.cost c.settings p)
  g.finding c p energy

/-- What is told of a gate once it is paid for. -/
def told (c : Circumstances) (p : Value) (closed : Bool) (g : Gate) : GateResult :=
  match g.attempt c p closed with
  | .ok x => x
  | .error f => Progress.refusal g f

theorem told_of_ok {g : Gate} {c : Circumstances} {p : Value} {closed : Bool} {x : GateResult}
    (h : g.attempt c p closed = .ok x) :
    told c p closed g = x := by
  rw [told, h]

theorem told_of_error {g : Gate} {c : Circumstances} {p : Value} {closed : Bool} {f : Failure}
    (h : g.attempt c p closed = .error f) :
    told c p closed g = Progress.refusal g f := by
  rw [told, h]

variable (g : Gate) (c : Circumstances) (p : Value)

theorem finding_yields (energy : Float) : Yields (g.finding c p energy) (·.IsJudged g) :=
  (g.judge_yields c.settings c.phase p).bind fun _ ho => .pure ⟨rfl, ho⟩

theorem attempt_yields (closed : Bool) : Yields (g.attempt c p closed) (·.IsJudged g) :=
  (g.cost_yields c.settings p).bind fun cost _ => (Budget.payable_yields closed cost).bind fun energy _ =>
    g.finding_yields c p energy

/-- **What is told of a gate that was paid for** names the gate, and never says that it was not. -/
theorem told_isPaid (closed : Bool) : (told c p closed g).IsPaid g := by
  -- a gate is told of by its own message or by one that says `gate error`, and neither begins as the budget's does
  have h := g.attempt_yields c p closed
  cases hattempt : g.attempt c p closed with
  | ok x =>
    rw [told_of_ok hattempt]
    exact (h.ok x hattempt).isPaid
  | error f =>
    rw [told_of_error hattempt]
    exact (GateResult.isErratic_refusal g (h.error f hattempt)).isPaid

/-- It is told as an error exactly if the gate came to nothing. -/
theorem told_isErratic_iff (closed : Bool) : (told c p closed g).IsErratic ↔ ∃ f, g.attempt c p closed = .error f := by
  have h := g.attempt_yields c p closed
  cases hattempt : g.attempt c p closed with
  | ok x =>
    rw [told_of_ok hattempt]
    exact ⟨fun he => absurd he (h.ok x hattempt).not_isErratic, fun ⟨f, hf⟩ => (by cases hf)⟩
  | error f =>
    rw [told_of_error hattempt]
    exact ⟨fun _ => ⟨f, rfl⟩, fun _ => GateResult.isErratic_refusal g (h.error f hattempt)⟩

/-- **A gate is not paid for, or it comes to what it comes to on every budget that is open or closed like this one.** -/
theorem evaluate_cases (b : Budget) :
    (b.closed = false ∧ ∃ requested remaining, g.evaluate c p b
      = (b, .error (.policy (.budgetExceeded requested remaining))))
    ∨ ∃ b', b'.closed = b.closed ∧ g.evaluate c p b = (b', g.attempt c p b.closed) := by
  unfold evaluate attempt
  cases g.cost c.settings p with
  | error f => exact .inr ⟨b, rfl, rfl⟩
  | ok cost =>
    simp only [Budget.chargeAny_eq, bind, Except.bind]
    cases hpay : Budget.payable b.closed cost with
    | error f => exact .inr ⟨b, rfl, rfl⟩
    | ok energy =>
      obtain ⟨hopen, rfl⟩ := (Budget.payable_yields b.closed cost).ok energy hpay
      by_cases hfits : b.maxTokens < b.spent + energy
      · simp only [if_pos hfits]
        exact .inl ⟨hopen, energy, b.remaining, rfl⟩
      · simp only [if_neg hfits]
        exact .inr ⟨{ b with spent := b.spent + energy }, rfl, rfl⟩

end Gate

end PolicyGates
