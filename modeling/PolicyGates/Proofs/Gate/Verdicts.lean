import PolicyGates.Gate.Verdicts
import PolicyGates.Proofs.Budget
import PolicyGates.Proofs.Evidence
/-!
# What the gates say of checked proposals

A gate looks at documents.  Given those of a checked proposal and of checked settings it always comes to a result
(`evaluate_toValue`), and the result depends on one condition, `IsMet`, which says in numbers what the gate asks for.
What the gate costs is a number too (`cost_toValue`), and not a negative one if it is finite (`zero_le_price`).
-/
namespace PolicyGates

open Schema Double

namespace Gate

variable (s : Settings) (phase : Phase) (p : Proposal)

/-! ## What a gate asks for -/

/-- What the gate asks for. -/
def IsMet : Gate → Prop
  | .thermodynamicSolvency => 0.0 < p.netEnergy ∧ p.eInvested < p.eProduction
  | .cognitiveVariety => ∃ m ∈ p.alternativeModels, Text.trim m.plain.toList ≠ []
  | .hardwareViability => p.estimatedMemoryBytes < s.memoryLimitBytes
  | .evidenceSufficiency =>
    p.evidenceItems ≠ [] ∧ s.evidenceScoreThreshold ≤ meanWeight p.evidenceItems ∧ HoldsTier phase p.evidenceItems
  | .viabilityPower => s.rAbsoluteThreshold ≤ p.rAbsolute ∨ (p.viabilityPowerClaim == 0.0) = true
  | .humanEscalation => p.impactScore ≤ s.escalationThreshold

/-- What the gate says: where its condition is not met it fails the proposal, or leaves it to people. -/
def Says (g : Gate) (o : Outcome) : Prop :=
  (o = .pass ↔ g.IsMet s phase p) ∧ (o = .escalate ↔ g = .humanEscalation ∧ ¬g.IsMet s phase p)

/-- The viability power that may be accrued. -/
def accrued : Float := if s.rAbsoluteThreshold ≤ p.rAbsolute then p.viabilityPowerClaim else 0.0

/-- What the gate says of viability power; nothing, unless it is there for that. -/
def delta (g : Gate) : Value := if g = .viabilityPower then .num (accrued s p) else .absent

/-- What the gate costs beyond its base price. -/
def extra (g : Gate) : Float :=
  if g = .evidenceSufficiency then Float.ofNat p.evidenceItems.length * s.gateCosts.perEvidenceItem else 0.0

/-- What the gate costs. -/
def price (g : Gate) : Float := s.gateCosts.base g + g.extra s p

variable {s phase p}

theorem says_pass {g : Gate} (h : g.IsMet s phase p) : g.Says s phase p .pass :=
  ⟨⟨fun _ => h, fun _ => rfl⟩, (by intro hc; cases hc), fun hc => absurd h hc.2⟩

theorem says_fail {g : Gate} (h : ¬g.IsMet s phase p) (hg : g ≠ .humanEscalation) : g.Says s phase p .fail :=
  ⟨⟨(by intro hc; cases hc), fun hc => absurd hc h⟩, (by intro hc; cases hc), fun hc => absurd hc.1 hg⟩

theorem says_escalate (h : ¬humanEscalation.IsMet s phase p) : humanEscalation.Says s phase p .escalate :=
  ⟨⟨(by intro hc; cases hc), fun hc => absurd hc h⟩, fun _ => ⟨rfl, h⟩, fun _ => rfl⟩

/-! ## The checks -/

/-- The gate comes to an opinion, which is the right one. -/
def Opines (s : Settings) (phase : Phase) (p : Proposal) (g : Gate) (r : Except Failure Opinion) : Prop :=
  ∃ o, r = .ok o ∧ g.Says s phase p o.outcome ∧ o.viabilityPowerDelta = g.delta s p

theorem isNaN_netEnergy (hp : p.IsChecked) : p.netEnergy.isNaN = false :=
  isNaN_add (isNaN_add hp.eIndustrial.1 (hp.eEcosystem.isFinite_of_finite List.mem_cons_self))
    (hp.eInteraction.isFinite_of_finite List.mem_cons_self)

theorem judgeSolvency_opines (hp : p.IsChecked) : thermodynamicSolvency.Opines s phase p (judgeSolvency p.toValue) := by
  have h : judgeSolvency p.toValue
      = if decide (p.netEnergy ≤ 0.0) then .ok (.fail _)
        else if decide (p.eProduction ≤ p.eInvested) then .ok (.fail _) else .ok (.pass _) := rfl
  rw [h]
  split
  · next hn =>
    rw [decide_eq_true_eq, ← not_lt_iff (by decide) (isNaN_netEnergy hp)] at hn
    exact ⟨_, rfl, says_fail (fun hc => hn hc.1) (by decide), rfl⟩
  · next hn =>
    rw [decide_eq_true_eq, not_le_iff (isNaN_netEnergy hp) (by decide)] at hn
    split
    · next ht =>
      rw [decide_eq_true_eq, ← not_lt_iff hp.eInvested.1 hp.eProduction.1] at ht
      exact ⟨_, rfl, says_fail (fun hc => ht hc.2) (by decide), rfl⟩
    · next ht =>
      rw [decide_eq_true_eq, not_le_iff hp.eProduction.1 hp.eInvested.1] at ht
      exact ⟨_, rfl, says_pass ⟨hn, ht⟩, rfl⟩

theorem judgeHardware_opines (hs : s.IsChecked) (hp : p.IsChecked) :
    hardwareViability.Opines s phase p (judgeHardware s.toValue p.toValue) := by
  have h : judgeHardware s.toValue p.toValue
      = if decide (s.memoryLimitBytes ≤ p.estimatedMemoryBytes) then .ok (.fail _) else .ok (.pass _) := rfl
  rw [h]
  split
  · next hm =>
    rw [decide_eq_true_eq, ← not_lt_iff hp.estimatedMemoryBytes.1 hs.memoryLimitBytes.1] at hm
    exact ⟨_, rfl, says_fail hm (by decide), rfl⟩
  · next hm =>
    rw [decide_eq_true_eq, not_le_iff hs.memoryLimitBytes.1 hp.estimatedMemoryBytes.1] at hm
    exact ⟨_, rfl, says_pass hm, rfl⟩

theorem judgeImpact_opines (hs : s.IsChecked) (hp : p.IsChecked) :
    humanEscalation.Opines s phase p (judgeImpact s.toValue p.toValue) := by
  have h : judgeImpact s.toValue p.toValue
      = if decide (s.escalationThreshold < p.impactScore) then .ok (.escalate _) else .ok (.pass _) := rfl
  rw [h]
  split
  · next hi =>
    rw [decide_eq_true_eq, ← not_le_iff hp.impactScore.1 hs.escalationThreshold.1] at hi
    exact ⟨_, rfl, says_escalate hi, rfl⟩
  · next hi =>
    rw [decide_eq_true_eq, not_lt_iff hs.escalationThreshold.1 hp.impactScore.1] at hi
    exact ⟨_, rfl, says_pass hi, rfl⟩

theorem claim_beq_zero (hp : p.IsChecked) : (p.viabilityPowerClaim == 0.0) = true ↔ ¬0.0 < p.viabilityPowerClaim := by
  have hn := hp.viabilityPowerClaim.1
  have h0 := hp.viabilityPowerClaim.least_le (List.mem_cons_of_mem _ List.mem_cons_self) (by decide)
  rw [le_iff (by decide) hn] at h0
  rw [beq_iff hn (by decide), lt_iff (by decide) hn]
  omega

theorem judgeViability_opines (hp : p.IsChecked) :
    viabilityPower.Opines s phase p (judgeViability s.toValue p.toValue) := by
  have h : judgeViability s.toValue p.toValue
      = if decide (s.rAbsoluteThreshold ≤ p.rAbsolute) then .ok ⟨.pass, _, .num p.viabilityPowerClaim⟩
        else if decide (0.0 < p.viabilityPowerClaim) then .ok ⟨.fail, _, .num 0.0⟩ else .ok ⟨.pass, _, .num 0.0⟩ := rfl
  rw [h]
  split
  · next hr =>
    rw [decide_eq_true_eq] at hr
    exact ⟨_, rfl, says_pass (.inl hr), by rw [delta, if_pos rfl, accrued, if_pos hr]⟩
  · next hr =>
    rw [decide_eq_true_eq] at hr
    have hdelta : viabilityPower.delta s p = .num 0.0 := by rw [delta, if_pos rfl, accrued, if_neg hr]
    split
    · next hc =>
      rw [decide_eq_true_eq] at hc
      refine ⟨_, rfl, says_fail ?_ (by decide), hdelta.symm⟩
      rintro (hm | hm)
      · exact hr hm
      · exact (claim_beq_zero hp).1 hm hc
    · next hc =>
      rw [decide_eq_true_eq] at hc
      exact ⟨_, rfl, says_pass (.inr ((claim_beq_zero hp).2 hc)), hdelta.symm⟩

theorem filterAuxM_countsAsModel (names : List Text) (found : List Value) :
    List.filterAuxM countsAsModel (names.map .str) found
      = .ok (((names.filter (fun m => !Text.allBlank m.plain)).map .str).reverse ++ found) := by
  induction names generalizing found with
  | nil => rfl
  | cons m rest ih =>
    rw [List.map_cons, List.filterAuxM]
    show List.filterAuxM countsAsModel (rest.map .str) (cond (!Text.allBlank m.plain) (.str m :: found) found) = _
    rw [ih, List.filter_cons]
    cases Text.allBlank m.plain <;> simp

theorem judgeVariety_opines : cognitiveVariety.Opines s phase p (judgeVariety p.toValue) := by
  have hask : p.toValue.ask "alternativeModels" = .ok (.arr (p.alternativeModels.map .str)) := rfl
  have hmodels : (p.alternativeModels.map Value.str).filterM countsAsModel
      = .ok ((p.alternativeModels.filter (fun m => !Text.allBlank m.plain)).map .str) := by
    rw [List.filterM, filterAuxM_countsAsModel]
    simp [bind, Except.bind, pure, Except.pure]
  have hmet : cognitiveVariety.IsMet s phase p ↔ p.alternativeModels.filter (fun m => !Text.allBlank m.plain) ≠ [] := by
    simp [IsMet, List.filter_eq_nil_iff, Text.trim_eq_nil_iff, Text.allBlank]
  unfold judgeVariety
  simp only [hask, bind, Except.bind, hmodels]
  split
  · next h0 =>
    rw [List.length_map, List.length_eq_zero_iff] at h0
    exact ⟨_, rfl, says_fail (fun hc => hmet.1 hc h0) (by decide), rfl⟩
  · next h0 =>
    rw [List.length_map, List.length_eq_zero_iff] at h0
    exact ⟨_, rfl, says_pass (hmet.2 h0), rfl⟩

theorem judgeEvidence_of_score (s : Settings) {score : EvidenceScore}
    (h : EvidenceScore.of (.arr (p.evidenceItems.map EvidenceItem.toValue)) (.str phase.name) = .ok score) :
    ∃ message, judgeEvidence s.toValue (.str phase.name) p.toValue
      = .ok (if score.weightedScore < s.evidenceScoreThreshold
        ∨ score.minTierMet = false then .fail message else .pass message) := by
  have hask : p.toValue.ask "evidenceItems" = .ok (.arr (p.evidenceItems.map EvidenceItem.toValue)) := rfl
  have hthreshold : s.toValue.ask "evidenceScoreThreshold" = .ok (.num s.evidenceScoreThreshold) := rfl
  have hneeded : (Value.num s.evidenceScoreThreshold).quote = .ok (Decimal.text s.evidenceScoreThreshold) := rfl
  have hname : (Value.str (Text.whole phase.name)).quote = .ok (Text.whole phase.name) := rfl
  unfold judgeEvidence
  simp only [hask, bind, Except.bind, h, hthreshold, Value.less_num, hneeded, hname]
  by_cases hl : score.weightedScore < s.evidenceScoreThreshold
  · exact ⟨_, by simp [hl]; rfl⟩
  · cases hm : score.minTierMet with
    | true => exact ⟨_, by simp [hl]; rfl⟩
    | false => exact ⟨_, by simp [hl]; rfl⟩

theorem judgeEvidence_opines (hs : s.IsChecked) (hp : p.IsChecked) :
    evidenceSufficiency.Opines s phase p (judgeEvidence s.toValue (.str phase.name) p.toValue) := by
  by_cases hne : p.evidenceItems = []
  · have hscore : EvidenceScore.of (.arr (p.evidenceItems.map EvidenceItem.toValue)) (.str phase.name)
      = .ok ⟨0.0, false⟩ := by
      rw [hne]
      exact score_nil _
    obtain ⟨m, hm⟩ := judgeEvidence_of_score s hscore
    rw [hm, if_pos (.inr rfl)]
    exact ⟨_, rfl, says_fail (fun hc => hc.1 hne) (by decide), rfl⟩
  · obtain ⟨m, hm⟩ := judgeEvidence_of_score s (score_toValue hne phase)
    have hheavy := not_lt_iff (isNaN_meanWeight hp.weights hne) hs.evidenceScoreThreshold.1
    have hmet : evidenceSufficiency.IsMet s phase p ↔ ¬(meanWeight p.evidenceItems < s.evidenceScoreThreshold
        ∨ p.evidenceItems.any (fun e => e.tier.number ≤ phase.weakestTier.number) = false) := by
      rw [not_or, hheavy, Bool.not_eq_false, List.any_eq_true]
      simp [IsMet, HoldsTier, hne]
    rw [hm]
    split
    · next hc => exact ⟨_, rfl, says_fail (fun hi => hmet.1 hi hc) (by decide), rfl⟩
    · next hc => exact ⟨_, rfl, says_pass (hmet.2 hc), rfl⟩

/-- **Every gate comes to an opinion on a checked proposal, and says what it is there to say.** -/
theorem judge_opines (hs : s.IsChecked) (hp : p.IsChecked) (g : Gate) :
    g.Opines s phase p (g.judge s.toValue (.str phase.name) p.toValue) := by
  cases g with
  | thermodynamicSolvency => exact judgeSolvency_opines hp
  | cognitiveVariety => exact judgeVariety_opines
  | hardwareViability => exact judgeHardware_opines hs hp
  | evidenceSufficiency => exact judgeEvidence_opines hs hp
  | viabilityPower => exact judgeViability_opines hp
  | humanEscalation => exact judgeImpact_opines hs hp

/-! ## Prices -/

theorem cost_toValue (g : Gate) : g.cost s.toValue p.toValue = .ok (.num (g.price s p)) := by
  cases g with
  | evidenceSufficiency =>
    have hlength : (Value.arr (p.evidenceItems.map EvidenceItem.toValue)).ask "length"
      = .ok (.ofCount p.evidenceItems.length) := by
      rw [← List.length_map EvidenceItem.toValue]
      rfl
    have hcount : evidenceSufficiency.surcharge s.gateCosts.toValue p.toValue
        = ((Value.arr (p.evidenceItems.map EvidenceItem.toValue)).ask "length").bind
            (fun count => count.times (.num s.gateCosts.perEvidenceItem)) := rfl
    have hcost : evidenceSufficiency.cost s.toValue p.toValue
        = (evidenceSufficiency.surcharge s.gateCosts.toValue p.toValue).bind
            (fun extra => (Value.num (s.gateCosts.base .evidenceSufficiency)).plus extra) := rfl
    rw [hcost, hcount, hlength]
    rfl
  | _ => rfl

/-- **A finite price is not negative.** -/
theorem zero_le_price (hs : s.IsChecked) {g : Gate} (h : (g.price s p).isFinite = true) : 0.0 ≤ g.price s p := by
  obtain ⟨hbase, hextra⟩ := isFinite_of_isFinite_add h
  have hbase0 := (hs.base g).least_le (List.mem_cons_of_mem _ List.mem_cons_self) (by decide)
  have hextra0 : 0.0 ≤ g.extra s p := by
    unfold extra at hextra ⊢
    split
    · next hg =>
      rw [if_pos hg] at hextra
      exact zero_le_mul (isNaN_ofNat _) hs.perEvidenceItem.1 (isNaN_of_isFinite hextra) (zero_le_ofNat _)
        (hs.perEvidenceItem.least_le (List.mem_cons_of_mem _ List.mem_cons_self) (by decide))
    · decide
  exact zero_le_add hbase hextra hbase0 hextra0

/-! ## Results -/

/-- A result that its gate comes to. -/
structure IsResult (s : Settings) (phase : Phase) (p : Proposal) (r : GateResult) : Prop where
  outcome : r.gate.Says s phase p r.outcome
  energySpent : r.energySpent = r.gate.price s p
  viabilityPowerDelta : r.viabilityPowerDelta = r.gate.delta s p

/-- **A gate that can be paid charges its price and comes to its result, and one that cannot charges nothing.** -/
theorem evaluate_toValue (phase : Phase) (hs : s.IsChecked) (hp : p.IsChecked) {g : Gate}
    (hprice : (g.price s p).isFinite = true) (mode : Mode) {b : Budget} (hb : b.IsOpen) :
    (b.spent + g.price s p ≤ b.maxTokens → ∃ r, r.gate = g ∧ IsResult s phase p r
      ∧ g.evaluate ⟨s.toValue, .str phase.name, mode⟩ p.toValue b = ({ b with spent := b.spent + g.price s p }, .ok r))
    ∧ (¬b.spent + g.price s p ≤ b.maxTokens →
      g.evaluate ⟨s.toValue, .str phase.name, mode⟩ p.toValue b
        = (b, .error (.policy (.budgetExceeded (g.price s p) b.remaining)))) := by
  have hcharge := Budget.charge_eq hb hprice (zero_le_price hs hprice)
  have hopines : g.Opines s phase p (g.judge s.toValue (.str phase.name) p.toValue) := judge_opines hs hp g
  obtain ⟨o, ho, hsaid, hdelta⟩ := hopines
  unfold evaluate
  constructor
  · intro hfits
    simp only [cost_toValue, Budget.chargeAny, hcharge, if_pos hfits]
    refine ⟨⟨g, o.outcome, o.message, g.price s p, o.viabilityPowerDelta⟩, rfl, ⟨hsaid, rfl, hdelta⟩, ?_⟩
    simp only [finding, ho]
    rfl
  · intro hfits
    simp only [cost_toValue, Budget.chargeAny, hcharge, if_neg hfits]

end Gate

end PolicyGates
