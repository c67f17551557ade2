import PolicyGates.Proofs.Alone
import PolicyGates.Proofs.Stopping
/-!
# What runs charge

A gate whose turn comes judges and charges its price, or the budget cannot pay it and the run ends, or its price is
nothing that can be charged (`GateResult.IsToldOn`).  The last happens to the gate for evidence alone, whose price may
be too large to be a finite double though its parts are not; the run then takes it for an error of the gate and goes
on (`Run.of_charges`), where a price that is finite and just as far beyond the budget would have ended it.
-/
namespace PolicyGates

open Schema Double

section Checked

variable (s : Settings) (phase : Phase) (p : Proposal)

/-- The budget after gates have charged it, where a price that is not finite is not charged. -/
def Budget.chargedFor (b : Budget) (gates : List Gate) : Budget :=
  gates.foldl (fun b g => if (g.price s p).isFinite then { b with spent := b.spent + g.price s p } else b) b

/-- What is told of a gate whose turn has come on a budget. -/
inductive GateResult.IsToldOn (b : Budget) (x : GateResult) : Prop
  /-- The gate has judged, at its price. -/
  | judged (hprice : (x.gate.price s p).isFinite = true) (hfits : b.spent + x.gate.price s p ≤ b.maxTokens)
    (hresult : Gate.IsResult s phase p x) (hjudged : x.IsJudged x.gate)
  /-- The budget could not pay. -/
  | unpaid (hprice : (x.gate.price s p).isFinite = true) (hbeyond : ¬b.spent + x.gate.price s p ≤ b.maxTokens)
    (hx : x = Progress.refusal x.gate (.policy (.budgetExceeded (x.gate.price s p) b.remaining)))
  /-- The price is nothing that can be charged. -/
  | unchargeable (hprice : ¬(x.gate.price s p).isFinite = true) (hgate : x.gate = .evidenceSufficiency)
    (hx : x = Progress.refusal x.gate (.policy (.unchargeable (Decimal.text (x.gate.price s p)))))

/-- Each result is told on what the gates before it have left of a budget. -/
def Accounts (b : Budget) (results : List GateResult) : Prop :=
  ∀ before x after, results = before ++ x :: after →
    x.IsToldOn s phase p (b.chargedFor s p (before.map GateResult.gate))

variable {s phase p} {mode : Mode} {b : Budget}

theorem Budget.chargedFor_concat (b : Budget) (gates : List Gate) (g : Gate) :
    b.chargedFor s p (gates ++ [g])
      = if (g.price s p).isFinite then
          { b.chargedFor s p gates with spent := (b.chargedFor s p gates).spent + g.price s p }
        else b.chargedFor s p gates := by
  simp [chargedFor, List.foldl_append]

theorem accounts_nil (b : Budget) : Accounts s phase p b [] := by
  intro before x after h
  simp at h

theorem Accounts.concat {results : List GateResult} (h : Accounts s phase p b results) {x : GateResult}
    (hx : x.IsToldOn s phase p (b.chargedFor s p (results.map GateResult.gate))) :
    Accounts s phase p b (results ++ [x]) := by
  intro before y after hsplit
  rcases split_concat hsplit with ⟨rfl, rfl, rfl⟩ | ⟨after', rfl, hresults⟩
  · exact hx
  · exact h before y after' hresults

theorem Accounts.of_append {results more : List GateResult} (h : Accounts s phase p b (results ++ more)) :
    Accounts s phase p b results := by
  intro before x after hsplit
  exact h before x (after ++ more) (by rw [hsplit, List.append_assoc, List.cons_append])

/-! ## One gate -/

theorem Gate.eq_of_price_not_finite (hs : s.IsChecked) {g : Gate} (h : ¬(g.price s p).isFinite = true) :
    g = .evidenceSufficiency := by
  by_contra hg
  refine h ?_
  unfold price extra
  rw [if_neg hg]
  exact isFinite_add_zero (Decimal.isFinite_of_isWhole ((hs.base g).2 _ List.mem_cons_self))

/-- **A price that is not finite is refused**, and not for want of budget. -/
theorem Gate.evaluate_unchargeable (g : Gate) (hb : b.IsOpen) (hprice : ¬(g.price s p).isFinite = true) :
    g.evaluate ⟨s.toValue, .str phase.name, mode⟩ p.toValue b
      = (b, .error (.policy (.unchargeable (Decimal.text (g.price s p))))) := by
  have hamount : (!(g.price s p).isFinite) = true ∨ g.price s p < 0.0 := .inl (by simpa using hprice)
  unfold evaluate
  simp only [cost_toValue, Budget.chargeAny, Budget.charge, hb.notClosed, if_pos hamount, Bool.false_eq_true, if_false]

/-- **The turn of a gate**: it judges and the run goes on or meets with too little memory; or the budget cannot pay
it, which ends the run; or its price cannot be charged, and the run goes on. -/
theorem Progress.check_open (hs : s.IsChecked) (hp : p.IsChecked) (mode : Mode) {q : Progress} (hq : q.budget.IsOpen)
    {g : Gate} {rest : List Gate} (hahead : q.ahead = g :: rest) :
    ∃ x : GateResult, x.gate = g ∧ x.IsToldOn s phase p q.budget
      ∧ (q.check ⟨s.toValue, .str phase.name, mode⟩ p.toValue none = .ended ⟨q.results ++ [x], .exhausted⟩ q.budget
        ∧ x.IsUnpaid
        ∨ ¬x.IsUnpaid ∧ (q.check ⟨s.toValue, .str phase.name, mode⟩ p.toValue none
              = .ended ⟨q.results ++ [x], .fatal⟩ (q.budget.chargedFor s p [g])
            ∨ q.check ⟨s.toValue, .str phase.name, mode⟩ p.toValue none
              = Step.next (q.budget.chargedFor s p [g]) (q.results ++ [x]) rest)) := by
  simp only [check, hahead]
  by_cases hprice : (g.price s p).isFinite = true
  · obtain ⟨hpaid, hunpaid⟩ := Gate.evaluate_toValue phase hs hp hprice mode hq
    by_cases hfits : q.budget.spent + g.price s p ≤ q.budget.maxTokens
    · obtain ⟨x, rfl, hx, heval⟩ := hpaid hfits
      have hjudged : x.IsJudged x.gate := by
        have hcases := Gate.evaluate_cases x.gate ⟨s.toValue, .str phase.name, mode⟩ p.toValue q.budget
        rw [heval] at hcases
        rcases hcases with ⟨-, _, _, hc⟩ | ⟨b', -, hc⟩
        · cases (Prod.mk.inj hc).2
        · exact (x.gate.attempt_yields _ _ _).ok x (Prod.mk.inj hc).2.symm
      refine ⟨x, rfl, .judged hprice hfits hx hjudged, .inr ⟨hjudged.isPaid.not_isUnpaid, ?_⟩⟩
      · simp only [heval, Budget.chargedFor, List.foldl_cons, List.foldl_nil, if_pos hprice]
        by_cases hfatal : x.outcome = .fail ∧ mode.enforces = true ∧ x.gate.isFatal = true
        · exact .inl (if_pos hfatal)
        · exact .inr (if_neg hfatal)
    · have htold : GateResult.IsToldOn s phase p q.budget
          (refusal g (.policy (.budgetExceeded (g.price s p) q.budget.remaining))) := .unpaid hprice hfits rfl
      refine ⟨_, rfl, htold, .inl ⟨?_, GateResult.isUnpaid_refusal _ _ _⟩⟩
      simp only [hunpaid hfits, isExhaustion, if_true]
  · have htold : GateResult.IsToldOn s phase p q.budget
        (refusal g (.policy (.unchargeable (Decimal.text (g.price s p))))) :=
      .unchargeable hprice (Gate.eq_of_price_not_finite hs hprice) rfl
    refine ⟨_, rfl, htold, .inr ⟨?_, .inr ?_⟩⟩
    · exact (GateResult.isErratic_refusal g rfl).isPaid.not_isUnpaid
    · simp only [Gate.evaluate_unchargeable g hq hprice, isExhaustion, Budget.chargedFor, List.foldl_cons,
        List.foldl_nil, if_neg hprice, Bool.false_eq_true, if_false]

/-! ## The whole run -/

/-- A run that is not over and that nobody has cancelled: all that was charged is what its results say. -/
structure Progress.IsCharged (s : Settings) (phase : Phase) (p : Proposal) (b : Budget) (q : Progress) : Prop where
  accounts : Accounts s phase p b q.results
  budget : q.budget = b.chargedFor s p (q.results.map GateResult.gate)
  isOpen : q.budget.IsOpen
  paid : ∀ x ∈ q.results, ¬x.IsUnpaid

/-- A run that is over: the one result that was not paid for, if there is one, is the last. -/
structure Run.IsCharged (s : Settings) (phase : Phase) (p : Proposal) (b : Budget) (r : Run)
    (left : Budget) : Prop where
  accounts : Accounts s phase p b r.results
  paid : r.ending ≠ .exhausted → (∀ x ∈ r.results, ¬x.IsUnpaid)
    ∧ left = b.chargedFor s p (r.results.map GateResult.gate)
  exhausted : r.ending = .exhausted → ∃ before x, r.results = before ++ [x] ∧ (∀ y ∈ before, ¬y.IsUnpaid) ∧ x.IsUnpaid
    ∧ left = b.chargedFor s p (before.map GateResult.gate)

theorem Budget.IsOpen.chargedFor (hb : b.IsOpen) (gates : List Gate) : (b.chargedFor s p gates).IsOpen := by
  induction gates using List.reverseRecOn with
  | nil => exact hb
  | append_singleton gates g ih =>
    rw [chargedFor_concat]
    split
    · next hprice => exact ih.spend hprice
    · exact ih

namespace Progress.IsCharged

variable {q q' : Progress} {x : GateResult} {g : Gate}

theorem fresh (hb : b.IsOpen) : IsCharged s phase p b (.fresh b) := ⟨accounts_nil b, rfl, hb, List.forall_mem_nil _⟩

theorem passes (h : IsCharged s phase p b q) (hx : x.IsToldOn s phase p q.budget) (hpaid : ¬x.IsUnpaid)
    (ahead : List Gate) :
    IsCharged s phase p b ⟨q.budget.chargedFor s p [x.gate], q.results ++ [x], ahead⟩ where
  accounts := h.accounts.concat (h.budget ▸ hx)
  budget := by
    rw [List.map_append, List.map_singleton, Budget.chargedFor_concat, ← h.budget]
    simp [Budget.chargedFor]
  isOpen := h.isOpen.chargedFor _
  paid := List.forall_mem_append.2 ⟨h.paid, List.forall_mem_singleton.2 hpaid⟩

theorem isCharged (h : IsCharged s phase p b q) {ending : Ending} (hending : ending ≠ .exhausted) :
    Run.IsCharged s phase p b ⟨q.results, ending⟩ q.budget :=
  ⟨h.accounts, fun _ => ⟨h.paid, h.budget⟩, fun he => absurd he hending⟩

/-- **A check keeps the account or closes it.** -/
theorem check (hs : s.IsChecked) (hp : p.IsChecked) (mode : Mode) (h : IsCharged s phase p b q)
    (cancellation : Option Text) :
    (∃ q', q.check ⟨s.toValue, .str phase.name, mode⟩ p.toValue cancellation = .running q' ∧ IsCharged s phase p b q')
    ∨ ∃ r left, q.check ⟨s.toValue, .str phase.name, mode⟩ p.toValue cancellation = .ended r left
      ∧ r.IsCharged s phase p b left := by
  cases hahead : q.ahead with
  | nil =>
    refine .inr ⟨⟨q.results, .completed⟩, q.budget, ?_, h.isCharged (by decide)⟩
    rw [Progress.check, hahead]
  | cons g rest =>
    cases cancellation with
    | some reason =>
      refine .inr ⟨⟨q.results, .cancelled g reason⟩, q.budget, ?_, h.isCharged (by simp)⟩
      rw [Progress.check, hahead]
    | none =>
      obtain ⟨x, rfl, hx, ⟨hc, hunpaid⟩ | ⟨hpaid, hc | hc⟩⟩ := Progress.check_open hs hp mode h.isOpen hahead
      · refine .inr ⟨_, _, hc, h.accounts.concat (h.budget ▸ hx), fun hne => absurd rfl hne, fun _ => ?_⟩
        exact ⟨q.results, x, rfl, h.paid, hunpaid, h.budget⟩
      · exact .inr ⟨_, _, hc, (h.passes hx hpaid rest).isCharged (by decide)⟩
      · have hpassed := h.passes hx hpaid rest
        cases rest with
        | nil => exact .inr ⟨_, _, hc, hpassed.isCharged (by decide)⟩
        | cons g' rest => exact .inl ⟨_, hc, hpassed⟩

theorem finish (hs : s.IsChecked) (hp : p.IsChecked) (mode : Mode) (cancellation : Nat → Option Text) (checks n : Nat)
    (h : IsCharged s phase p b q) (hahead : q.ahead.length = checks) :
    (Progress.finish ⟨s.toValue, .str phase.name, mode⟩ p.toValue cancellation checks n q).1.IsCharged s phase p b
      (Progress.finish ⟨s.toValue, .str phase.name, mode⟩ p.toValue cancellation checks n q).2 := by
  -- each check that goes on lowers the number of gates ahead by one
  induction checks generalizing n q with
  | zero => exact h.isCharged (by decide)
  | succ checks ih =>
    rcases h.check hs hp mode (cancellation n) with ⟨q', hc, hq'⟩ | ⟨r, left, hc, hr⟩
    · rw [Progress.finish, hc]
      have hlength := (Progress.ahead_of_running (Progress.check_none_of_running hc)).2
      exact ih (n + 1) hq' (by omega)
    · rw [Progress.finish, hc]
      exact hr

end Progress.IsCharged

theorem Progress.Reaches.isCharged (hs : s.IsChecked) (hp : p.IsChecked) (hb : b.IsOpen) {q : Progress}
    (h : Progress.Reaches ⟨s.toValue, .str phase.name, mode⟩ p.toValue (.fresh b) q) : q.IsCharged s phase p b := by
  induction h with
  | start => exact .fresh hb
  | check _ hc ih =>
    obtain ⟨q', hq', hcharged⟩ | ⟨r, left, hended, -⟩ := ih.check hs hp mode none
    · rw [hc] at hq'
      cases hq'
      exact hcharged
    · rw [hc] at hended
      cases hended

theorem Progress.EndsIn.isCharged (hs : s.IsChecked) (hp : p.IsChecked) (hb : b.IsOpen) {r : Run} {left : Budget}
    (h : Progress.EndsIn ⟨s.toValue, .str phase.name, mode⟩ p.toValue (.fresh b) r left) :
    r.IsCharged s phase p b left := by
  obtain ⟨q, cancellation, hreach, hend⟩ := h
  obtain ⟨q', hq', -⟩ | ⟨r', left', hended, hcharged⟩ := (hreach.isCharged hs hp hb).check hs hp mode cancellation
  · rw [hend] at hq'
    cases hq'
  · rw [hend] at hended
    cases hended
    exact hcharged

/-- **The account of a run**, on an open budget and with any cancellation. -/
theorem Run.of_isCharged (hs : s.IsChecked) (hp : p.IsChecked) (phase : Phase) (mode : Mode) (hb : b.IsOpen)
    (cancellation : Nat → Option Text) :
    (Run.of ⟨s.toValue, .str phase.name, mode⟩ p.toValue b cancellation).1.IsCharged s phase p b
      (Run.of ⟨s.toValue, .str phase.name, mode⟩ p.toValue b cancellation).2 :=
  (Progress.IsCharged.fresh hb).finish hs hp mode cancellation _ 0 rfl

theorem GateResult.IsToldOn.isErratic_iff {x : GateResult} (h : x.IsToldOn s phase p b) :
    x.IsErratic ↔ ¬(x.gate.price s p).isFinite = true := by
  cases h with
  | judged hprice _ _ hjudged => exact iff_of_false hjudged.not_isErratic (not_not_intro hprice)
  | unpaid hprice _ hx =>
    have hunpaid : x.IsUnpaid := ⟨_, _, hx⟩
    exact iff_of_false hunpaid.not_isErratic (not_not_intro hprice)
  | unchargeable hprice _ hx => exact iff_of_true ⟨_, rfl, hx⟩ hprice

theorem Run.IsCharged.isUnpaid_iff {r : Run} {left : Budget} (h : r.IsCharged s phase p b left)
    {before after : List GateResult} {x : GateResult} (hresults : r.results = before ++ x :: after) :
    x.IsUnpaid ↔ after = [] ∧ r.ending = .exhausted := by
  constructor
  · intro hx
    by_cases hending : r.ending = .exhausted
    · obtain ⟨before', y, hsplit, hpaid, -⟩ := h.exhausted hending
      rcases split_concat (hsplit.symm.trans hresults) with ⟨-, -, hafter⟩ | ⟨after', -, hbefore⟩
      · exact ⟨hafter, hending⟩
      · exact absurd hx (hpaid x (by rw [hbefore]; simp))
    · exact absurd hx ((h.paid hending).1 x (by rw [hresults]; simp))
  · rintro ⟨rfl, hending⟩
    obtain ⟨before', y, hsplit, -, hunpaid, -⟩ := h.exhausted hending
    rw [hsplit] at hresults
    rwa [← List.singleton_inj.1 (List.append_inj_right' hresults rfl)]

theorem Run.Ends.cancelled_of_isErratic {r : Run} {c : Circumstances} {document : Value} {closed : Bool}
    (h : r.Ends c document closed) {before : List GateResult} {x : GateResult} (hresults : r.results = before ++ [x])
    (hgate : x.gate = .evidenceSufficiency) (hx : x.IsErratic) :
    ∃ reason, r.ending = .cancelled .viabilityPower reason := by
  have hprefix := h.gates_prefix
  rw [hresults, List.map_append, List.map_singleton, hgate] at hprefix
  obtain ⟨hnumber, -⟩ := Gate.number_eq_of_prefix hprefix
  have hlength : r.results.length = 4 := by
    rw [List.length_map] at hnumber
    rw [hresults, List.length_append, List.length_singleton, ← hnumber]
    rfl
  have hends := h.endsBy
  cases hending : r.ending with
  | completed =>
    rw [hending] at hends
    have := hends.1
    omega
  | fatal =>
    rw [hending] at hends
    have := hends.1
    omega
  | exhausted =>
    rw [hending] at hends
    obtain ⟨-, paid, y, hsplit, -, -, hunpaid, -⟩ := hends
    rw [hresults] at hsplit
    rw [← List.singleton_inj.1 (List.append_inj_right' hsplit rfl)] at hunpaid
    exact absurd hx hunpaid.not_isErratic
  | cancelled g reason =>
    rw [hending] at hends
    obtain ⟨-, hg, -⟩ := hends
    rw [hlength] at hg
    have hnext : g = .viabilityPower := Gate.number_injective hg
    exact ⟨reason, by rw [hnext]⟩

end Checked

/-- **What becomes of a gate that fails.**  In a run of a checked proposal with checked settings on an open budget, in
any mode and with any cancellation, each gate whose turn comes has judged and was charged, or the budget could not pay
it, or its price was nothing that can be charged.  So a failure is the gate's own verdict; or it says that the budget
was exceeded, is the last of the run and shows in its flag; or it is told as an error, which happens exactly at a gate
for evidence whose price is not finite.  Such a price is beyond every budget too, but the run goes on to the next
gate, unless it is cancelled before that. -/
theorem Run.of_charges {overrides document : Value} {s : Settings} {p : Proposal}
    (hsettings : Settings.create overrides = .ok s) (hproposal : Proposal.create document = .ok p) (phase : Phase)
    (mode : Mode) {b : Budget} (hb : b.IsOpen) (cancellation : Nat → Option Text) :
    let run := Run.of ⟨s.toValue, .str phase.name, mode⟩ p.toValue b cancellation
    (∀ before x after, run.1.results = before ++ x :: after →
      x.IsToldOn s phase p (b.chargedFor s p (before.map GateResult.gate))
      ∧ (x.outcome = .fail →
        (Gate.IsResult s phase p x ∧ ¬x.gate.IsMet s phase p ∧ ¬x.IsUnpaid ∧ ¬x.IsErratic)
        ∨ (x.IsUnpaid ∧ after = [] ∧ run.1.toValue.member "budgetExhausted" = .bool true)
        ∨ (x.IsErratic ∧ x.gate = .evidenceSufficiency ∧ x.energySpent = 0.0))
      ∧ (x.IsErratic ↔ ¬(x.gate.price s p).isFinite = true)
      ∧ (x.IsErratic → after = [] → ∃ reason, run.1.ending = .cancelled .viabilityPower reason))
    ∧ run.2 = b.chargedFor s p
      ((if run.1.ending = .exhausted then run.1.results.dropLast else run.1.results).map GateResult.gate) := by
  intro run
  have hs := Settings.isChecked_of_create hsettings
  have hp := Proposal.isChecked_of_create hproposal
  have hends : run.1.Ends ⟨s.toValue, .str phase.name, mode⟩ p.toValue false :=
    hb.notClosed ▸ Run.of_ends _ _ b cancellation
  have hcharged : run.1.IsCharged s phase p b run.2 := Run.of_isCharged hs hp phase mode hb cancellation
  refine ⟨fun before x after hresults => ?_, ?_⟩
  · have hmem : x ∈ run.1.results := by
      rw [hresults]
      simp
    have htold := hcharged.accounts before x after hresults
    have herratic := htold.isErratic_iff
    have hunpaid := hcharged.isUnpaid_iff hresults
    refine ⟨htold, fun hfail => ?_, herratic, fun he hafter => ?_⟩
    · cases htold with
      | judged hprice _ hresult hjudged =>
        refine .inl ⟨hresult, fun hmet => ?_, hjudged.isPaid.not_isUnpaid, hjudged.not_isErratic⟩
        rw [hresult.outcome.1.2 hmet] at hfail
        cases hfail
      | unpaid hprice hbeyond hx =>
        obtain ⟨hafter, hending⟩ := hunpaid.1 ⟨_, _, hx⟩
        exact .inr (.inl ⟨⟨_, _, hx⟩, hafter, by rw [(Run.flags_toValue _).2, hending]; rfl⟩)
      | unchargeable hprice hgate hx =>
        exact .inr (.inr ⟨herratic.2 hprice, hgate, by rw [hx]; rfl⟩)
    · subst hafter
      refine hends.cancelled_of_isErratic hresults ?_ he
      exact Gate.eq_of_price_not_finite hs (herratic.1 he)
  · by_cases hending : run.1.ending = .exhausted
    · obtain ⟨before, x, hresults, -, -, hleft⟩ := hcharged.exhausted hending
      rw [if_pos hending, hresults, List.dropLast_concat]
      exact hleft
    · rw [if_neg hending]
      exact (hcharged.paid hending).2

/-- The price for two items of evidence is infinite, and the run goes on to the two gates after that for evidence. -/
theorem Run.unchargeable_goes_on :
    let overrides : Value := .obj [("gateCosts", .obj [("perEvidenceItem", .num 1e308)])]
    let item : Value := .obj [("tier", .num 1.0)]
    let document : Value := .obj (Members.put Proposal.bareMembers "evidenceItems" (.arr [item, item]))
    let s := Settings.ofValue (Settings.merged overrides)
    let p := Proposal.ofValue document
    let run := Run.of ⟨s.toValue, .str Phase.genesis.name, .enforce⟩ p.toValue (.fresh 100.0) fun _ => none
    Settings.create overrides = .ok s ∧ Proposal.create document = .ok p ∧ (Budget.fresh 100.0).IsOpen
    ∧ ∃ before x after, run.1.results = before ++ x :: after ∧ x.IsErratic ∧ x.outcome = .fail ∧ after.length = 2
      ∧ x = Progress.refusal .evidenceSufficiency (.policy (.unchargeable "Infinity"))
      ∧ run.1.toValue.member "budgetExhausted" = .bool false := by
  intro overrides item document s p run
  have hissues : (Settings.issues (Settings.merged overrides)).isEmpty = true := by decide +kernel
  have hchecked : Settings.ofChecked (Settings.merged overrides) = .ok s :=
    Settings.ofChecked_eq_ok.2 ⟨List.isEmpty_iff.1 hissues, rfl⟩
  have hsettings : Settings.create overrides = .ok s := by simp only [Settings.create, overrides, hchecked]
  have hfields : (Schema.Fields.issues Proposal.fields document.members).isEmpty = true := by decide +kernel
  have hproposal : Proposal.create document = .ok p :=
    Proposal.create_obj (List.isEmpty_iff.1 hfields) rfl (by decide)
  have hopen : (Budget.fresh 100.0).IsOpen := Budget.isOpen_fresh (by decide)
  have hlength : 3 < run.1.results.length := by decide +kernel
  have hresults : run.1.results = run.1.results.take 3 ++ run.1.results[3] :: run.1.results.drop 4 := by
    rw [← List.drop_eq_getElem_cons hlength, List.take_append_drop]
  have hgate : run.1.results[3]?.map GateResult.gate = some .evidenceSufficiency := by decide +kernel
  rw [List.getElem?_eq_getElem hlength, Option.map_some, Option.some_inj] at hgate
  have hprice : ¬(Gate.evidenceSufficiency.price s p).isFinite = true := by decide +kernel
  have hshown : Decimal.text (Gate.evidenceSufficiency.price s p) = "Infinity" := by decide +kernel
  have hending : run.1.ending = .completed := by decide +kernel
  have hafter : (run.1.results.drop 4).length = 2 := by decide +kernel
  have hflag : run.1.toValue.member "budgetExhausted" = .bool false := by rw [run.1.flags_toValue.2, hending]; rfl
  obtain ⟨htold, -, herratic, -⟩ :=
    (Run.of_charges hsettings hproposal .genesis .enforce hopen fun _ => none).1 _ _ _ hresults
  rw [hgate] at herratic
  have hrefused := herratic.2 hprice
  refine ⟨hsettings, hproposal, hopen, _, _, _, hresults, hrefused, hrefused.outcome, hafter, ?_, hflag⟩
  cases htold with
  | judged hfinite => exact absurd (hgate ▸ hfinite) hprice
  | unpaid hfinite => exact absurd (hgate ▸ hfinite) hprice
  | unchargeable _ _ hx =>
    rw [hgate, hshown] at hx
    exact hx

end PolicyGates
