import PolicyGates.Proofs.Leniency
/-!
# The two accounts of a decision

What a decision consumed is read off its budget, and what each gate spent is written into its result, in another
place.  The two agree: the budget's counter is the sum of the results in their order (`Accounts.isCounter`), since a
gate that was charged reports its price and one that was not reports nothing and leaves the counter alone
(`GateResult.IsToldOn.spending`).  So it is for every decision, however its run ended (`Registry.Decides.account`).
-/
namespace PolicyGates

open Schema Double

/-- What results say was spent, in their order. -/
def energyOf (results : List GateResult) : Float := results.foldl (fun sum x => sum + x.energySpent) 0.0

theorem energyOf_concat (results : List GateResult) (x : GateResult) :
    energyOf (results ++ [x]) = energyOf results + x.energySpent := by
  simp [energyOf, List.foldl_append]

section Checked

variable {s : Settings} {phase : Phase} {p : Proposal} {cap : Float}

/-- The budget of a proposal at the turn of a gate, as the results so far tell it. -/
def budgetAfter (cap : Float) (results : List GateResult) : Budget :=
  { Budget.fresh cap with spent := energyOf results }

/-- What becomes of a gate's charge: it is taken and reported, and the counter goes on by it; or it is refused,
nothing is reported and the counter stays. -/
inductive GateResult.IsSpending (price cap : Float) (before : List GateResult) (x : GateResult) : Prop
  | charged (hjudged : ¬x.IsUnpaid ∧ ¬x.IsErratic) (henergy : x.energySpent = price)
    (hcharge : (budgetAfter cap before).charge price = .ok (budgetAfter cap (before ++ [x])))
  | refused (hrefused : x.IsUnpaid ∨ x.IsErratic) (henergy : x.energySpent = 0.0)
    (hcharge : ∃ e, (budgetAfter cap before).charge price = .error e)
      (hsame : energyOf (before ++ [x]) = energyOf before)

structure IsCounter (cap : Float) (results : List GateResult) : Prop where
  isSum : IsSum (energyOf results)
  energyOf_le : energyOf results ≤ cap

theorem isCounter_nil (hcap : 0.0 ≤ cap) : IsCounter cap [] := ⟨isSum_zero, hcap⟩

theorem IsCounter.isOpen {results : List GateResult} (h : IsCounter cap results) (hcap : cap.isFinite = true) :
    (budgetAfter cap results).IsOpen :=
  ⟨rfl, isNaN_of_isFinite hcap, isNaN_of_isFinite h.isSum.isFinite⟩

/-- **What a gate reports is what it was charged**, and the counter goes on by that. -/
theorem GateResult.IsToldOn.spending (hs : s.IsChecked) (hcap : cap.isFinite = true) {before : List GateResult}
    {x : GateResult} (hcounter : IsCounter cap before) (h : x.IsToldOn s phase p (budgetAfter cap before)) :
    x.IsSpending (x.gate.price s p) cap before ∧ IsCounter cap (before ++ [x]) := by
  have hopen := hcounter.isOpen hcap
  -- a result that reports nothing leaves the counter where it was
  have hsame : x.energySpent = 0.0 → energyOf (before ++ [x]) = energyOf before := by
    intro h0
    rw [energyOf_concat, h0, hcounter.isSum.add_zero]
  cases h with
  | judged hprice hfits hresult hjudged =>
    have h0 := Gate.zero_le_price hs hprice
    have hsum : energyOf (before ++ [x])
      = energyOf before + x.gate.price s p := by rw [energyOf_concat, hresult.energySpent]
    have hfinite : (energyOf before + x.gate.price s p).isFinite = true :=
      isFinite_of_le (by decide) hcap (isNaN_of_le hfits).1
        (zero_le_add hcounter.isSum.isFinite hprice hcounter.isSum.zero_le h0) hfits
    refine ⟨.charged ⟨hjudged.isPaid.not_isUnpaid, hjudged.not_isErratic⟩ hresult.energySpent ?_, ?_⟩
    · rw [Budget.charge_eq hopen hprice h0, if_pos hfits]
      exact congrArg (fun spent => Except.ok ({ Budget.fresh cap with spent := spent } : Budget)) hsum.symm
    · refine ⟨?_, ?_⟩
      · rw [hsum]
        exact hcounter.isSum.add hprice h0 hfinite
      · rw [hsum]
        exact hfits
  | unpaid hprice hbeyond hx =>
    have hunpaid : x.IsUnpaid := ⟨_, _, hx⟩
    have henergy := hunpaid.energySpent
    have hcharge := Budget.charge_eq hopen hprice (Gate.zero_le_price hs hprice)
    rw [if_neg hbeyond] at hcharge
    refine ⟨.refused (.inl hunpaid) henergy ⟨_, hcharge⟩ (hsame henergy), ?_⟩
    · exact ⟨hsame henergy ▸ hcounter.isSum, hsame henergy ▸ hcounter.energyOf_le⟩
  | unchargeable hprice hgate hx =>
    have henergy : x.energySpent = 0.0 := by rw [hx]; rfl
    have herratic : x.IsErratic := ⟨_, rfl, hx⟩
    refine ⟨.refused (.inr herratic) henergy ?_ (hsame henergy), ?_⟩
    · cases hcharge : (budgetAfter cap before).charge (x.gate.price s p) with
      | error e => exact ⟨e, rfl⟩
      | ok b => exact absurd (Budget.charge_eq_ok_iff.1 hcharge).2.1 hprice
    · exact ⟨hsame henergy ▸ hcounter.isSum, hsame henergy ▸ hcounter.energyOf_le⟩

/-! ## The results of a run -/

/-- **The budget's counter is the sum of the results**, as long as each of them could be paid. -/
theorem Accounts.isCounter (hs : s.IsChecked) (hcap : cap.isFinite = true) (hcap0 : 0.0 ≤ cap)
    {results : List GateResult} (h : Accounts s phase p (.fresh cap) results) (hpaid : ∀ x ∈ results, ¬x.IsUnpaid) :
    IsCounter cap results ∧ (Budget.fresh cap).chargedFor s p (results.map GateResult.gate)
      = budgetAfter cap results := by
  induction results using List.reverseRecOn with
  | nil => exact ⟨isCounter_nil hcap0, rfl⟩
  | append_singleton before x ih =>
    obtain ⟨hcounter, hcharged⟩ := ih h.of_append fun y hy => hpaid y (List.mem_append_left _ hy)
    have htold := h before x [] rfl
    rw [hcharged] at htold
    obtain ⟨hspending, hcounter'⟩ := htold.spending hs hcap hcounter
    refine ⟨hcounter', ?_⟩
    rw [List.map_append, List.map_singleton, Budget.chargedFor_concat, hcharged]
    cases hspending with
    | charged hjudged henergy hcharge =>
      obtain ⟨-, hprice, -, -, hafter⟩ := Budget.charge_eq_ok_iff.1 hcharge
      rw [if_pos hprice, hafter]
    | refused hrefused henergy hcharge hsame =>
      have herratic : x.IsErratic :=
        hrefused.resolve_left (hpaid x (List.mem_append_right _ (List.mem_singleton_self x)))
      rw [if_neg (htold.isErratic_iff.1 herratic), budgetAfter, budgetAfter, hsame]

/-- **Each result is told of a charge on the budget as the results before it tell it.** -/
theorem Run.IsCharged.isSpending (hs : s.IsChecked) (hcap : cap.isFinite = true) (hcap0 : 0.0 ≤ cap) {r : Run}
    {left : Budget} (h : r.IsCharged s phase p (.fresh cap) left) {before after : List GateResult} {x : GateResult}
    (hresults : r.results = before ++ x :: after) :
    IsCounter cap before
      ∧ (Budget.fresh cap).chargedFor s p (before.map GateResult.gate) = budgetAfter cap before
      ∧ x.IsSpending (x.gate.price s p) cap before ∧ IsCounter cap (before ++ [x]) := by
  have haccounts : Accounts s phase p (.fresh cap) (before ++ x :: after) := hresults ▸ h.accounts
  -- nothing comes after a result that could not be paid
  have hpaid : ∀ y ∈ before, ¬y.IsUnpaid := by
    intro y hy hunpaid
    obtain ⟨first, rest, hsplit⟩ := List.append_of_mem hy
    have hend := (h.isUnpaid_iff (hresults.trans (by rw [hsplit, List.append_assoc, List.cons_append]))).1 hunpaid
    simp at hend
  obtain ⟨hcounter, hcharged⟩ := haccounts.of_append.isCounter hs hcap hcap0 hpaid
  have htold := haccounts before x after rfl
  rw [hcharged] at htold
  exact ⟨hcounter, hcharged, htold.spending hs hcap hcounter⟩

/-- What is left of the budget is what all of the results tell. -/
theorem Run.IsCharged.left_eq (hs : s.IsChecked) (hcap : cap.isFinite = true) (hcap0 : 0.0 ≤ cap) {r : Run}
    {left : Budget} (h : r.IsCharged s phase p (.fresh cap) left) :
    left = budgetAfter cap r.results ∧ IsCounter cap r.results := by
  constructor
  · by_cases hending : r.ending = .exhausted
    · obtain ⟨before, x, hresults, -, hunpaid, hleft⟩ := h.exhausted hending
      obtain ⟨hcounter, hcharged, -, -⟩ := h.isSpending hs hcap hcap0 hresults
      rw [hleft, hcharged, hresults, budgetAfter, budgetAfter, energyOf_concat, hunpaid.energySpent,
        hcounter.isSum.add_zero]
    · obtain ⟨hpaid, hleft⟩ := h.paid hending
      rw [hleft, (h.accounts.isCounter hs hcap hcap0 hpaid).2]
  · rcases List.eq_nil_or_concat r.results with hnil | ⟨before, x, hresults⟩
    · rw [hnil]
      exact isCounter_nil hcap0
    · rw [List.concat_eq_append] at hresults
      rw [hresults]
      exact (h.isSpending hs hcap hcap0 hresults).2.2.2

end Checked

/-! ## Decisions -/

theorem GateResult.toValue_injective : Function.Injective GateResult.toValue := by
  intro x y h
  have hgate : x.gate = y.gate :=
    Gate.name_injective (Text.whole.inj (Value.str.inj (congrArg (Value.member "gate") h)))
  have houtcome : x.outcome = y.outcome := by
    have hname : (x.outcome.name : Text) = y.outcome.name := Value.str.inj (congrArg (Value.member "outcome") h)
    revert hname
    cases x.outcome <;> cases y.outcome <;> decide
  have hmessage : x.message = y.message := Value.str.inj (congrArg (Value.member "message") h)
  have henergy : x.energySpent = y.energySpent := Value.num.inj (congrArg (Value.member "energySpent") h)
  have hdelta : x.viabilityPowerDelta = y.viabilityPowerDelta := congrArg (Value.member "viabilityPowerDelta") h
  obtain ⟨gate, outcome, message, energySpent, delta⟩ := x
  simp only at hgate houtcome hmessage henergy hdelta
  subst hgate houtcome hmessage henergy hdelta
  rfl

theorem Decision.account_of_toValue {d d' : Decision} (h : d.toValue = d'.toValue) :
    d.results = d'.results ∧ d.energyConsumed = d'.energyConsumed :=
  ⟨GateResult.toValue_injective.list_map (Value.arr.inj (congrArg (Value.member "results") h)),
    Value.num.inj (congrArg (Value.member "energyConsumed") h)⟩

namespace Registry

variable {reg : Registry} {document : Value} {mode : Option Mode} {d : Decision} {p : Proposal}

/-- **The two accounts of a decision agree.**  What it consumed is what its results say was spent, added in their
order, and no more than the proposal's budget.  A result that is neither of a budget that could not pay nor of an
error reports what the gate costs, and that much is charged; at any other the charge is refused, nothing is reported,
and the budget stays as it was. -/
theorem Decides.account {overrides : Value} (hsettings : Settings.create overrides = .ok reg.settings)
    (hproposal : Proposal.create document = .ok p) (hd : reg.Decides document mode d) :
    d.energyConsumed = energyOf d.results ∧ d.energyConsumed ≤ p.energyBudgetTokens
    ∧ ∀ before x after, d.results = before ++ x :: after →
      let cost := reg.settings.gateCosts.base x.gate + (if x.gate = .evidenceSufficiency
        then Float.ofNat p.evidenceItems.length * reg.settings.gateCosts.perEvidenceItem else 0.0)
      x.IsSpending cost p.energyBudgetTokens before := by
  have hs := Settings.isChecked_of_create hsettings
  have hp := Proposal.isChecked_of_create hproposal
  have hcap := Decimal.isFinite_of_isWhole (hp.energyBudgetTokens.2 _ List.mem_cons_self)
  obtain ⟨drawn, ⟨r, b, id, time, hends, rfl⟩, htold⟩ := hd.exists_drawn hproposal
  obtain ⟨hresults, hconsumed⟩ := Decision.account_of_toValue htold
  have hcharged := hends.isCharged hs hp (Budget.isOpen_fresh hp.energyBudgetTokens.1)
  obtain ⟨rfl, hcounter⟩ := hcharged.left_eq hs hcap hp.zero_le_energyBudgetTokens
  rw [← hresults, ← hconsumed]
  refine ⟨rfl, hcounter.energyOf_le, fun before x after hsplit => ?_⟩
  exact (hcharged.isSpending hs hcap hp.zero_le_energyBudgetTokens hsplit).2.2.1

/-- Three gates are paid out of four tokens, and the one for evidence, which costs two, is not. -/
theorem spent_three_of_four :
    let document : Value := .obj
      (Members.put (Members.put Proposal.bareMembers "evidenceItems" (.arr [.obj [("tier", .num 1.0)]]))
      "energyBudgetTokens" (.num 4.0))
    let reg := Registry.start (.ofValue (Settings.merged (.obj []))) none (.startingAt Clock.defaultStart)
    ∃ d : Decision, reg.Decides document none d ∧ d.energyConsumed = energyOf d.results ∧ d.energyConsumed ≤ 4.0
      ∧ d.results.map GateResult.energySpent = [1.0, 1.0, 1.0, 0.0] ∧ d.energyConsumed = 3.0 := by
  intro document reg
  have hsettings : Settings.create (.obj []) = .ok reg.settings := rfl
  have hproposal : Proposal.create document = .ok (.ofValue document) := by
    have hfields : (Schema.Fields.issues Proposal.fields document.members).isEmpty = true := by decide +kernel
    exact Proposal.create_obj (List.isEmpty_iff.1 hfields) rfl (by decide)
  have hlog : (Audit.Log.opened none).IsSound := Audit.Log.isSound_unstored
  have haccepts : (Audit.Log.opened none).Accepts := Audit.Log.accepts_unstored
  have hclock : (Clock.startingAt Clock.defaultStart).now?.isSome := by decide +kernel
  have hj : reg.prepare ⟨document, none, .absent⟩ = .ok _ := prepare_eq_ok hproposal rfl
  obtain ⟨d, houtcome, hon, hcancel⟩ := exists_alone hj hlog haccepts hclock (Scheduler.isQuiet_nil _ _ _)
  have hd : reg.Decides document none d := .checked [_] [] 0 .absent rfl (by rw [checkAll_singleton, houtcome]; rfl)
  have hspent : d.results.map GateResult.energySpent = [1.0, 1.0, 1.0, 0.0] := by
    obtain ⟨r, b, id, time, hends, rfl⟩ := hon
    show r.results.map GateResult.energySpent = _
    rw [show r = _ from congrArg Prod.fst (hends.eq_of hcancel).symm]
    decide +kernel
  obtain ⟨hsum, hle, -⟩ := Decides.account hsettings hproposal hd
  refine ⟨d, hd, hsum, hle, hspent, ?_⟩
  rw [hsum, energyOf, ← List.foldl_map, hspent]
  decide

end Registry

end PolicyGates
