import Mathlib.Data.List.Induction
import PolicyGates.Proofs.Alone
import PolicyGates.Proofs.Charges
import PolicyGates.Proofs.Double.Products
import PolicyGates.Proofs.Rejection
/-!
# Leniency

Settings and a phase may be relaxed in several respects at once (`Relaxes`).  Whatever a gate asked for before it
still gets (`Relaxes.isMet`), what it costs is no more than before (`Relaxes.price`), and so is what gates cost
together, as it is added up in doubles (`Relaxes.prices`).  An approval means that every gate got what it asked for
and was paid (`Decision.IsOn.isApprovable`), so it stays one on a budget that is not smaller, whatever the modes are
(`approves_of_relaxed`).
-/
namespace PolicyGates

open Schema Double

/-- The place of a phase in the order of growth. -/
def Phase.stage (phase : Phase) : Nat := all.idxOf phase

theorem Phase.weakestTier_le {phase phase' : Phase} (h : phase'.stage ≤ phase.stage) :
    phase.weakestTier.number ≤ phase'.weakestTier.number := by
  revert h
  cases phase <;> cases phase' <;> decide

/-- The second settings and phase are at least as lenient as the first in every respect. -/
structure Relaxes (s : Settings) (phase : Phase) (s' : Settings) (phase' : Phase) : Prop where
  memoryLimitBytes : s.memoryLimitBytes ≤ s'.memoryLimitBytes
  escalationThreshold : s.escalationThreshold ≤ s'.escalationThreshold
  evidenceScoreThreshold : s'.evidenceScoreThreshold ≤ s.evidenceScoreThreshold
  rAbsoluteThreshold : s'.rAbsoluteThreshold ≤ s.rAbsoluteThreshold
  base : ∀ g, s'.gateCosts.base g ≤ s.gateCosts.base g
  perEvidenceItem : s'.gateCosts.perEvidenceItem ≤ s.gateCosts.perEvidenceItem
  phase : phase'.stage ≤ phase.stage

/-! ## Conditions and prices -/

namespace Relaxes

variable {s s' : Settings} {phase phase' : Phase} {p : Proposal} {tokens : Float} (h : Relaxes s phase s' phase')
include h

/-- **A gate gets what it asks for under settings that are no less lenient.** -/
theorem isMet (hp : p.IsChecked) {g : Gate} (hg : g.IsMet s phase p) :
    g.IsMet s' phase' { p with energyBudgetTokens := tokens } := by
  cases g with
  | thermodynamicSolvency => exact hg
  | cognitiveVariety => exact hg
  | hardwareViability => exact lt_of_lt_of_le hp.estimatedMemoryBytes.1 hg h.memoryLimitBytes
  | evidenceSufficiency =>
    obtain ⟨hsome, hheavy, e, he, htier⟩ := hg
    exact ⟨hsome, Double.le_trans h.evidenceScoreThreshold hheavy, e, he,
      Nat.le_trans htier (Phase.weakestTier_le h.phase)⟩
  | viabilityPower => exact hg.imp_left (Double.le_trans h.rAbsoluteThreshold)
  | humanEscalation => exact Double.le_trans hg h.escalationThreshold

variable (hs : s.IsChecked) (hs' : s'.IsChecked)
include hs hs'

theorem extra {g : Gate} (hextra : (g.extra s p).isFinite = true) :
    (g.extra s' p).isFinite = true ∧ 0.0 ≤ g.extra s' p ∧ g.extra s' p ≤ g.extra s p := by
  unfold Gate.extra at hextra ⊢
  by_cases hg : g = .evidenceSufficiency
  · rw [if_pos hg] at hextra
    rw [if_pos hg, if_pos hg]
    have hzero := hs.perEvidenceItem.least_le (List.mem_cons_of_mem _ List.mem_cons_self) (by decide)
    have hzero' := hs'.perEvidenceItem.least_le (List.mem_cons_of_mem _ List.mem_cons_self) (by decide)
    have hcount := isCount_ofNat (isFinite_of_isFinite_mul hextra).1
    have hitem := isCount_of_isWhole (hs.perEvidenceItem.2 _ List.mem_cons_self) hzero
    have hitem' := isCount_of_isWhole (hs'.perEvidenceItem.2 _ List.mem_cons_self) hzero'
    have hle := hcount.mul_le_mul hitem' hitem h.perEvidenceItem
    have hnumber := (isNaN_of_le hle).1
    have hpositive := zero_le_mul (isNaN_ofNat _) hs'.perEvidenceItem.1 hnumber
      (zero_le_ofNat p.evidenceItems.length) hzero'
    exact ⟨isFinite_of_le (by decide) hextra hnumber hpositive hle, hpositive, hle⟩
  · rw [if_neg hg, if_neg hg]
    exact ⟨by decide, by decide, by decide⟩

/-- **A gate costs no more under settings that are no less lenient.** -/
theorem price {g : Gate} (hprice : (g.price s p).isFinite = true) :
    (g.price s' p).isFinite = true ∧ g.price s' p ≤ g.price s p := by
  obtain ⟨hbase, hextra⟩ := isFinite_of_isFinite_add hprice
  obtain ⟨hextra', hzero, hle⟩ := h.extra hs hs' hextra
  have hbase' := Decimal.isFinite_of_isWhole ((hs'.base g).2 _ List.mem_cons_self)
  have hbase0 := (hs'.base g).least_le (List.mem_cons_of_mem _ List.mem_cons_self) (by decide)
  have hsum : g.price s' p ≤ g.price s p := Double.add_le_add hbase' hbase hextra' hextra (h.base g) hle
  exact ⟨isFinite_of_le (by decide) hprice (isNaN_of_le hsum).1 (zero_le_add hbase' hextra' hbase0 hzero) hsum, hsum⟩

/-- **What gates cost together is no more than before**, as long as a budget pays for it. -/
theorem prices (hp : p.IsChecked) (hprices : HasFinitePrices s p) {gates : List Gate} (hpays : Pays s p gates) :
    (pricesOf s p gates).isFinite = true ∧ (pricesOf s' p gates).isFinite = true ∧ 0.0 ≤ pricesOf s' p gates
      ∧ pricesOf s' p gates ≤ pricesOf s p gates := by
  induction gates using List.reverseRecOn with
  | nil =>
    have hzero : (0.0 : Float).isFinite = true ∧ (0.0 : Float) ≤ 0.0 := by decide
    exact ⟨hzero.1, hzero.1, hzero.2, hzero.2⟩
  | append_singleton gates g ih =>
    obtain ⟨hpays, hfits⟩ := pays_concat_iff.1 hpays
    obtain ⟨hsum, hsum', hzero, hle⟩ := ih hpays
    obtain ⟨hprice', hprice⟩ := h.price hs hs' (hprices g)
    have hadd := Double.add_le_add hsum' hsum hprice' (hprices g) hle hprice
    have hzero' := zero_le_add hsum' hprice' hzero (Gate.zero_le_price hs' hprice')
    have hcap := Decimal.isFinite_of_isWhole (hp.energyBudgetTokens.2 _ List.mem_cons_self)
    have hfinite := isFinite_of_le (by decide) hcap (isNaN_of_le hfits).1 (Double.le_trans hzero' hadd) hfits
    rw [pricesOf_concat, pricesOf_concat]
    exact ⟨hfinite, isFinite_of_le (by decide) hfinite (isNaN_of_le hadd).1 hzero' hadd, hzero', hadd⟩

theorem pays (hp : p.IsChecked) (hprices : HasFinitePrices s p) (hbudget : p.energyBudgetTokens ≤ tokens)
    {gates : List Gate} (hpays : Pays s p gates) :
    Pays s' { p with energyBudgetTokens := tokens } gates := by
  intro first hfirst
  obtain ⟨-, -, -, hle⟩ := h.prices hs hs' hp hprices (hpays.of_prefix hfirst)
  exact Double.le_trans hle (Double.le_trans (hpays first hfirst) hbudget)

end Relaxes

/-! ## Verdicts -/

theorem Run.outcome_ne_fail {r : Run} (h : r.verdict = .approve) : ∀ x ∈ r.results, x.outcome ≠ .fail := by
  intro x hx hfail
  have hmem : x.gate ∈ r.failed := List.mem_map_of_mem (List.mem_filter.2 ⟨hx, by rw [hfail]; rfl⟩)
  unfold verdict at h
  split at h
  · cases h
  · split at h
    · next hnone => rw [List.isEmpty_iff.1 hnone] at hmem; cases hmem
    · cases h

section Checked

variable {s : Settings} {phase : Phase} {p : Proposal} {mode : Mode} {r : Run} {b : Budget} (hs : s.IsChecked)
  (hp : p.IsChecked)
  (h : Progress.EndsIn ⟨s.toValue, .str phase.name, mode⟩ p.toValue (.fresh (.fresh p.energyBudgetTokens)) r b)
  (hcancel : r.isCancelled = false)

theorem Run.Ends.gates_of_approve {c : Circumstances} {document : Value} {closed : Bool}
    (hends : r.Ends c document closed) (hcancel : r.isCancelled = false) (happrove : r.verdict = .approve) :
    r.results.map GateResult.gate = Gate.all := by
  have hpassed := r.outcome_ne_fail happrove
  cases hends with
  | completed _ hresults => rw [hresults, gates_told]
  | cancelled _ _ _ hending =>
    rw [Run.isCancelled, hending] at hcancel
    cases hcancel
  | exhausted passed g requested remaining _ _ hresults =>
    refine absurd rfl (hpassed (Progress.refusal g (.policy (.budgetExceeded requested remaining))) ?_)
    rw [hresults]
    simp
  | fatal passed _ _ hstops hresults =>
    refine absurd hstops.outcome (hpassed _ ?_)
    rw [hresults]
    simp

include hs hp h hcancel

/-- **An approval takes prices that can be charged.** -/
theorem Progress.EndsIn.hasFinitePrices (happrove : r.verdict = .approve) : HasFinitePrices s p := by
  have hcharged := Run.of_isCharged hs hp phase mode (Budget.isOpen_fresh hp.energyBudgetTokens.1) fun _ => none
  rw [h.eq_of hcancel] at hcharged
  intro g
  have hmem : g ∈ r.results.map GateResult.gate := by
    rw [h.ends.gates_of_approve hcancel happrove]
    cases g <;> decide
  obtain ⟨x, hx, rfl⟩ := List.mem_map.1 hmem
  obtain ⟨before, after, hresults⟩ := List.append_of_mem hx
  have hpaid : ¬x.IsErratic := fun he => r.outcome_ne_fail happrove x hx he.outcome
  rwa [(hcharged.accounts before x after hresults).isErratic_iff, not_not] at hpaid

theorem Progress.EndsIn.isApprovable (happrove : r.verdict = .approve) : Registry.IsApprovable s phase p :=
  (h.isSettled hs hp (h.hasFinitePrices hs hp hcancel happrove) hcancel).verdict_eq_approve_iff.1 happrove

end Checked

/-! ## Decisions -/

/-- Two decisions that are delivered alike, or told alike in a violation, are the same document. -/
theorem Decision.toValue_of_outcome {d d' : Decision} (h : d.conclusion.outcome = d'.conclusion.outcome) :
    d.toValue = d'.toValue := by
  unfold conclusion at h
  by_cases hd : d.mode.enforces ∧ d.overall = .reject
  · by_cases hd' : d'.mode.enforces ∧ d'.overall = .reject
    · rw [if_pos hd, if_pos hd'] at h
      simp only [Conclusion.outcome, Except.error.injEq, Failure.policy.injEq,
        PolicyError.constraintViolation.injEq] at h
      exact h
    · rw [if_pos hd, if_neg hd'] at h
      cases h
  · by_cases hd' : d'.mode.enforces ∧ d'.overall = .reject
    · rw [if_neg hd, if_pos hd'] at h
      cases h
    · rw [if_neg hd, if_neg hd'] at h
      cases h
      rfl

theorem Decision.alike_of_toValue {d d' : Decision} (h : d.toValue = d'.toValue) :
    d.overall = d'.overall ∧ d.cancelled = d'.cancelled := by
  have hname : (d.overall.name : Text) = d'.overall.name := Value.str.inj (congrArg (Value.member "overall") h)
  refine ⟨?_, Value.bool.inj (congrArg (Value.member "cancelled") h)⟩
  revert hname
  cases d.overall <;> cases d'.overall <;> decide

theorem Decision.outcome_ne_foreign (d : Decision) {f : Failure} (hf : f.IsForeign) :
    d.conclusion.outcome ≠ .error f := by
  intro h
  unfold conclusion at h
  split at h
  · exact hf _ (Except.error.inj h).symm
  · cases h

namespace Registry

/-- A registry comes to a decision on a document, which is checked together with others or coordinated in a batch. -/
inductive Decides (reg : Registry) (document : Value) (mode : Option Mode) (d : Decision) : Prop
  | checked (requests : List Request) (events : List Event) (i : Nat) (timeoutMs : Value)
    (hrequest : requests[i]? = some ⟨document, mode, timeoutMs⟩)
    (houtcome : (reg.checkAll requests events).2[i]? = some d.conclusion.outcome)
  | coordinated (documents : List Value) (timeoutMs : Value) (events : List Event) (i : Nat) (ds : List Decision)
    (hds : (reg.coordinate documents mode timeoutMs events).2 = .ok ds) (hdocument : documents[i]? = some document)
    (hdecision : ds[i]? = some d)

variable {reg reg' : Registry} {document document' : Value} {mode mode' : Option Mode} {d d' : Decision}
  {p p' : Proposal}

/-- **Whoever asks for it, a decision is told as one on a run of the proposal's own.** -/
theorem Decides.exists_drawn (h : reg.Decides document mode d) (hp : Proposal.create document = .ok p) :
    ∃ drawn : Decision, drawn.IsOn reg p (mode.getD reg.settings.mode) ∧ drawn.toValue = d.toValue := by
  cases h with
  | checked requests events i timeoutMs hrequest houtcome =>
    cases hj : reg.prepare ⟨document, mode, timeoutMs⟩ with
    | ok j =>
      obtain ⟨c, hc, hconcluded⟩ := exists_isConcluded requests events hrequest hj
      obtain ⟨hcreate, hmode, -⟩ := of_prepare hj
      obtain rfl : p = j.proposal := Except.ok.inj (hp.symm.trans hcreate)
      have hsame : c.outcome = d.conclusion.outcome := Option.some.inj (hc.symm.trans houtcome)
      cases hdecision : c.decision? with
      | ok drawn =>
        obtain ⟨hon, rfl⟩ := hconcluded.isOn hdecision
        rw [hmode] at hon
        exact ⟨drawn, hon, Decision.toValue_of_outcome hsame⟩
      | error f =>
        obtain rfl := Conclusion.eq_failed hdecision
        obtain ⟨later, r, b, -, -, hfailed⟩ := hconcluded
        exact absurd hsame.symm (d.outcome_ne_foreign (isForeign_of_conclude hfailed.symm))
    | error f =>
      have hprepared : (requests.map reg.prepare)[i]?
        = some (.error f) := by rw [List.getElem?_map, hrequest, Option.map_some, hj]
      have hsame := Option.some.inj ((outcomes_getElem?_error _ hprepared 0).symm.trans houtcome)
      exact absurd hsame.symm (d.outcome_ne_foreign (isForeign_of_prepare hp hj))
  | coordinated documents timeoutMs events i ds hds hdocument hdecision =>
    obtain ⟨proposals, ordered, jobs, hread, horder, hjobs⟩ := exists_of_coordinate hds
    obtain ⟨drawn, hdrawn, hon, -⟩ := decision_of_coordinate hread horder hjobs hds hdocument hp
    obtain rfl : drawn = d := Option.some.inj (hdrawn.symm.trans hdecision)
    exact ⟨drawn, hon, rfl⟩

theorem Decides.exists_isOn (h : reg.Decides document mode d) (hp : Proposal.create document = .ok p) :
    ∃ drawn : Decision, drawn.IsOn reg p (mode.getD reg.settings.mode) ∧ drawn.overall = d.overall
      ∧ drawn.cancelled = d.cancelled := by
  obtain ⟨drawn, hon, htold⟩ := h.exists_drawn hp
  exact ⟨drawn, hon, Decision.alike_of_toValue htold⟩

/-- **Lenient settings approve what strict ones approve.**  Take two evaluations that nobody cancels, each in a
registry of its own with checked settings, in any mode, alone, among others or in a batch, of proposals that differ at
most in their budgets.  If the second has settings and a phase that are at least as lenient in every respect and a
budget that is no smaller, and the first comes to an approval, then so does the second. -/
theorem approves_of_relaxed {overrides overrides' : Value} (hsettings : Settings.create overrides = .ok reg.settings)
    (hsettings' : Settings.create overrides' = .ok reg'.settings) (hproposal : Proposal.create document = .ok p)
    (hproposal' : Proposal.create document' = .ok p')
    (hsame : p' = { p with energyBudgetTokens := p'.energyBudgetTokens })
    (hbudget : p.energyBudgetTokens ≤ p'.energyBudgetTokens)
    (hrelaxes : Relaxes reg.settings (reg.phaseOf p) reg'.settings (reg'.phaseOf p'))
    (hd : reg.Decides document mode d) (hd' : reg'.Decides document' mode' d') (hcancel : d.cancelled = false)
    (hcancel' : d'.cancelled = false) (happrove : d.overall = .approve) :
    d'.overall = .approve := by
  have hs := Settings.isChecked_of_create hsettings
  have hs' := Settings.isChecked_of_create hsettings'
  have hp := Proposal.isChecked_of_create hproposal
  have hp' := Proposal.isChecked_of_create hproposal'
  obtain ⟨drawn, ⟨r, b, id, time, hends, rfl⟩, hoverall, hcancelled⟩ := hd.exists_isOn hproposal
  obtain ⟨drawn', ⟨r', b', id', time', hends', rfl⟩, hoverall', hcancelled'⟩ := hd'.exists_isOn hproposal'
  have hspared : r.isCancelled = false := hcancelled.trans hcancel
  have hverdict : r.verdict = .approve := hoverall.trans happrove
  obtain ⟨hmet, hpays⟩ := hends.isApprovable hs hp hspared hverdict
  have hprices := hends.hasFinitePrices hs hp hspared hverdict
  obtain ⟨tokens, rfl⟩ : ∃ tokens, p' = { p with energyBudgetTokens := tokens } := ⟨_, hsame⟩
  have hsettled : r'.IsSettled reg'.settings (reg'.phaseOf p) { p with energyBudgetTokens := tokens }
    (mode'.getD reg'.settings.mode) :=
    hends'.isSettled hs' hp' (fun g => (hrelaxes.price hs hs' (hprices g)).1) (hcancelled'.trans hcancel')
  rw [← hoverall']
  exact hsettled.verdict_eq_approve_iff.2
    ⟨fun g => hrelaxes.isMet hp (hmet g), hrelaxes.pays hs hs' hp hprices hbudget hpays⟩

/-- One piece of evidence is enough under the standard settings, and so it is where less is asked for and nothing is
enforced. -/
theorem observed_approves :
    let document (tokens : Float) : Value :=
      .obj (Members.put (Members.put Proposal.bareMembers "evidenceItems" (.arr [.obj [("tier", .num 1.0)]]))
      "energyBudgetTokens" (.num tokens))
    let overrides : Value := .obj [("mode", .str "observe"), ("evidenceScoreThreshold", .num 0.5),
      ("gateCosts", .obj [("perEvidenceItem", .num 0.0)])]
    let reg := Registry.start (.ofValue (Settings.merged (.obj []))) none (.startingAt Clock.defaultStart)
    let reg' := Registry.start (.ofValue (Settings.merged overrides)) none (.startingAt Clock.defaultStart)
    ∃ d d' : Decision, reg.Decides (document 100.0) none d ∧ reg'.Decides (document 200.0) none d'
      ∧ d.cancelled = false ∧ d'.cancelled = false ∧ d.overall = .approve ∧ d'.overall = .approve := by
  intro document overrides reg reg'
  have hsettings : Settings.create (.obj []) = .ok reg.settings := rfl
  have hsettings' : Settings.create overrides = .ok reg'.settings := by
    have hissues : (Settings.issues (Settings.merged overrides)).isEmpty = true := by decide +kernel
    have hchecked := Settings.ofChecked_eq_ok.2 ⟨List.isEmpty_iff.1 hissues, rfl⟩
    simp only [Settings.create, overrides, hchecked]
    rfl
  have hproposal : ∀ tokens ∈ [100.0, 200.0], Proposal.create (document tokens) = .ok (.ofValue (document tokens)) := by
    intro tokens htokens
    have hplain : ∀ k ∈ (document tokens).members.keys, Members.index? k = none := by
      rw [show (document tokens).members.keys = (document 100.0).members.keys from rfl]
      decide
    have hfields : (Schema.Fields.issues Proposal.fields (document tokens).members).isEmpty = true := by
      revert tokens
      decide +kernel
    exact Proposal.create_obj (List.isEmpty_iff.1 hfields) rfl hplain
  have hlog : (Audit.Log.opened none).IsSound := Audit.Log.isSound_unstored
  have haccepts : (Audit.Log.opened none).Accepts := Audit.Log.accepts_unstored
  have hclock : (Clock.startingAt Clock.defaultStart).now?.isSome := by decide +kernel
  have hj : reg.prepare ⟨document 100.0, none, .absent⟩ = .ok _ := prepare_eq_ok (hproposal 100.0 (by simp)) rfl
  have hj' : reg'.prepare ⟨document 200.0, none, .absent⟩ = .ok _ := prepare_eq_ok (hproposal 200.0 (by simp)) rfl
  obtain ⟨d, houtcome, hon, hcancel⟩ := exists_alone hj hlog haccepts hclock (Scheduler.isQuiet_nil _ _ _)
  obtain ⟨d', houtcome', hon', hcancel'⟩ := exists_alone hj' hlog haccepts hclock (Scheduler.isQuiet_nil _ _ _)
  have hd : reg.Decides (document 100.0) none d :=
    .checked [_] [] 0 .absent rfl (by rw [checkAll_singleton, houtcome]; rfl)
  have hd' : reg'.Decides (document 200.0) none d' :=
    .checked [_] [] 0 .absent rfl (by rw [checkAll_singleton, houtcome']; rfl)
  have happrove : d.overall = .approve := by
    obtain ⟨r, b, id, time, hends, rfl⟩ := hon
    show r.verdict = .approve
    rw [show r = _ from congrArg Prod.fst (hends.eq_of hcancel).symm]
    decide +kernel
  refine ⟨d, d', hd, hd', hcancel, hcancel', happrove, ?_⟩
  refine approves_of_relaxed hsettings hsettings' (hproposal 100.0 (by simp))
    (hproposal 200.0 (by simp)) rfl ?_ ?_ hd hd' hcancel hcancel' happrove
  · decide +kernel
  · exact ⟨by decide +kernel, by decide +kernel, by decide +kernel, by decide +kernel,
      fun g => by cases g <;> decide +kernel, by decide +kernel, by decide +kernel⟩

end Registry

end PolicyGates
