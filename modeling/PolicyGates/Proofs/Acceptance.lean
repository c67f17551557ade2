import PolicyGates.Audit.Record
import PolicyGates.Proofs.Checked
import PolicyGates.Proofs.Coordination
import PolicyGates.Proofs.Places
import PolicyGates.Proofs.Value.Document
/-!
# Which documents are proposals

A document is taken as a proposal if it is of the form of one (`Proposal.IsForm`), and then the proposal is what the
document says, completed by what may be left out (`Proposal.Completes`).  What has been taken is of that form again,
so it is taken as it is however often it is checked.  A document that is not taken is told all of its places that are
wrong, and no others (`Proposal.places`, `Proposal.create_exact`).
-/
namespace PolicyGates

open Schema

/-! ## Kinds of values -/

namespace Schema

def IsText (v : Value) : Prop := ∃ t, v = .str t

def IsFilledText (v : Value) : Prop := ∃ t, v = .str t ∧ t ≠ .whole ""

def IsOneOf (names : List String) (v : Value) : Prop := ∃ s ∈ names, v = .str (.whole s)

def IsNumber (D : Float → Prop) (v : Value) : Prop := ∃ x, v = .num x ∧ D x

/-- From zero to one. -/
def IsPortion (x : Float) : Prop := 0.0 ≤ x ∧ x ≤ 1.0

def IsTally (x : Float) : Prop := Decimal.isWhole x = true ∧ 0.0 ≤ x

def IsPositiveTally (x : Float) : Prop := Decimal.isWhole x = true ∧ 0.0 < x

def IsAmount (x : Float) : Prop := x.isFinite = true ∧ 0.0 ≤ x

def IsTier (v : Value) : Prop := ∃ t : Tier, v = .ofCount t.number

def IsList (D : Value → Prop) (v : Value) : Prop := ∃ vs, v = .arr vs ∧ ∀ w ∈ vs, D w

def IsOptional (D : Value → Prop) (v : Value) : Prop := v = .absent ∨ D v

/-- The check looks at the value itself only, and passes those of a kind. -/
structure Judges (c : Check) (D : Value → Prop) : Prop where
  flat : IsFlat c
  passes : ∀ v, c v = [] ↔ D v

theorem Judges.told_eq {c : Check} {D : Value → Prop} (h : Judges c D) : told c = Places.outside D :=
  told_of_flat h.flat h.passes

theorem judges_text : Judges text IsText := by
  refine ⟨isFlat_text, fun v => ?_⟩
  cases v with
  | str t => exact iff_of_true rfl ⟨t, rfl⟩
  | _ => exact iff_of_false (expected_ne_nil _ _) fun ⟨t, h⟩ => by cases h

theorem judges_filledText : Judges filledText IsFilledText := by
  refine ⟨isFlat_filledText, fun v => ?_⟩
  cases v with
  | str t =>
    simp only [filledText, IsFilledText, Value.str.injEq, exists_eq_left']
    split
    · next ht => exact iff_of_false (refuse_ne_nil _) fun hne => hne ht
    · next ht => exact iff_of_true rfl ht
  | _ => exact iff_of_false (expected_ne_nil _ _) fun ⟨t, h, _⟩ => by cases h

/-- Names have no U+FFFD, so no text with a lone surrogate is taken for one of them. -/
theorem judges_oneOf {names : List String} (hnames : ∀ s ∈ names, '\uFFFD' ∉ s.toList) :
    Judges (oneOf names) (IsOneOf names) := by
  refine ⟨isFlat_oneOf names, fun v => ?_⟩
  cases v with
  | str t =>
    unfold oneOf IsOneOf
    dsimp only
    constructor
    · intro h
      split at h
      · next hmem => exact ⟨t.plain, hmem, by rw [← (Text.plain_eq_iff (hnames _ hmem)).1 rfl]⟩
      · exact absurd h (refuse_ne_nil _)
    · rintro ⟨s, hs, heq⟩
      cases heq
      exact if_pos hs
  | _ => exact iff_of_false (expected_ne_nil _ _) fun ⟨s, _, h⟩ => by cases h

theorem judges_tier : Judges (oneNumberOf (Tier.all.map fun t => Float.ofNat t.number)) IsTier := by
  have hnumber : ∀ (t : Tier) (x : Float), (Float.ofNat t.number == x) = true ↔ x = Float.ofNat t.number := by
    intro t x
    have hlevel : Double.level (Float.ofNat t.number) ≠ 0 := by cases t <;> decide +kernel
    have hself : (Float.ofNat t.number == Float.ofNat t.number) = true := by cases t <;> decide +kernel
    refine ⟨fun h => ?_, fun h => h ▸ hself⟩
    obtain ⟨ht, hx⟩ := Double.isNaN_of_beq h
    rw [Double.beq_iff ht hx] at h
    exact (Double.eq_of_level ht h hlevel).symm
  refine ⟨isFlat_oneNumberOf _, fun v => ?_⟩
  cases v with
  | num x =>
    have hany : (Tier.all.map fun t => Float.ofNat t.number).any (· == x) = true
      ↔ ∃ t : Tier, x = Float.ofNat t.number := by
      rw [List.any_map, List.any_eq_true]
      exact ⟨fun ⟨t, _, h⟩ => ⟨t, (hnumber t x).1 h⟩, fun ⟨t, h⟩ => ⟨t, by cases t <;> decide, (hnumber t x).2 h⟩⟩
    unfold IsTier Value.ofCount
    simp only [oneNumberOf, Value.num.injEq, ← hany]
    split
    · next h => exact iff_of_true rfl h
    · next h => exact iff_of_false (refuse_ne_nil _) h
  | _ => exact iff_of_false (refuse_ne_nil _) fun ⟨t, h⟩ => by cases h

/-! ### Numbers -/

theorem judges_number {rules : List NumberRule} {D : Float → Prop} (hD : ∀ x, Keeps rules x ↔ D x) :
    Judges (number rules) (IsNumber D) :=
  ⟨isFlat_number rules, fun _ => number_eq_nil.trans (exists_congr fun x => and_congr_right fun _ => hD x)⟩

theorem keeps_pair {r r' : NumberRule} {x : Float} :
    Keeps [r, r'] x ↔ x.isNaN = false ∧ r.admits x = true ∧ r'.admits x = true := by
  simp [Keeps]

theorem keeps_whole {rule : NumberRule} {x : Float} :
    Keeps [.whole, rule] x ↔ Decimal.isWhole x = true ∧ rule.admits x = true :=
  keeps_pair.trans (and_iff_right_of_imp fun h => Double.isNaN_of_isFinite (Decimal.isFinite_of_isWhole h.1))

theorem judges_finite : Judges (number [.finite]) (IsNumber (·.isFinite = true)) := by
  refine judges_number fun x => ?_
  rw [Keeps, List.forall_mem_singleton, NumberRule.admits]
  exact and_iff_right_of_imp Double.isNaN_of_isFinite

theorem judges_share : Judges share (IsNumber IsPortion) := judges_number fun _ => isShare_iff

theorem judges_tally : Judges (number [.whole, .least 0.0]) (IsNumber IsTally) := by
  refine judges_number fun x => ?_
  rw [keeps_whole]
  exact and_congr_right fun h => admits_least (Double.isNaN_of_isFinite (Decimal.isFinite_of_isWhole h)) (by decide)

theorem judges_positiveTally : Judges (number [.whole, .above 0.0]) (IsNumber IsPositiveTally) := by
  refine judges_number fun x => ?_
  rw [keeps_whole]
  exact and_congr_right fun h => admits_above (Double.isNaN_of_isFinite (Decimal.isFinite_of_isWhole h)) (by decide)

theorem judges_amount : Judges (number [.finite, .least 0.0]) (IsNumber IsAmount) := by
  refine judges_number fun x => ?_
  have hfinite : Keeps [.finite, .least 0.0] x ↔ x.isFinite = true ∧ (NumberRule.least 0.0).admits x = true :=
    keeps_pair.trans (and_iff_right_of_imp fun h : x.isFinite = true ∧ _ => Double.isNaN_of_isFinite h.1)
  rw [hfinite]
  exact and_congr_right fun h => admits_least (Double.isNaN_of_isFinite h) (by decide)

/-! ### Parts -/

variable {c : Check} {D : Value → Prop}

theorem optional_passes (h : ∀ v, c v = [] ↔ D v) (v : Value) : optional c v = [] ↔ IsOptional D v := by
  rw [optional_eq_nil, h]
  refine or_congr_left ?_
  cases v <;> simp [Value.isAbsent]

theorem listOf_passes (h : ∀ v, c v = [] ↔ D v) (v : Value) : listOf c v = [] ↔ IsList D v := by
  rw [listOf_eq_nil]
  exact exists_congr fun vs => and_congr_right fun _ => forall₂_congr fun w _ => h w

end Schema

/-! ## The form of a proposal -/

/-- The members of a piece of evidence: a tier from one to four, and perhaps a weight of its own. -/
structure EvidenceItem.IsForm (ms : Members) : Prop where
  keys : ∀ k ∈ ms.keys, k = .whole "tier" ∨ k = .whole "weightOverride"
  tier : IsTier (ms.get "tier")
  weightOverride : IsOptional (IsNumber IsPortion) (ms.get "weightOverride")

/-- The names of the members of a proposal. -/
def Proposal.names : List String :=
  ["proposalId", "eIndustrial", "eEcosystem", "eInteraction", "eInvested", "eProduction", "estimatedMemoryBytes",
   "evidenceItems", "rAbsolute", "entityTrustScore", "energyBudgetTokens", "vsmFunction", "phaseContext",
   "alternativeModels", "impactScore", "viabilityPowerClaim", "dependsOn"]

/-- The members of a proposal: none but the named ones, and each within its domain. -/
structure Proposal.IsForm (ms : Members) : Prop where
  keys : ∀ k ∈ ms.keys, ∃ name ∈ Proposal.names, k = .whole name
  proposalId : IsFilledText (ms.get "proposalId")
  eIndustrial : IsNumber (·.isFinite = true) (ms.get "eIndustrial")
  eEcosystem : IsNumber (·.isFinite = true) (ms.get "eEcosystem")
  eInteraction : IsNumber (·.isFinite = true) (ms.get "eInteraction")
  eInvested : IsNumber (·.isFinite = true) (ms.get "eInvested")
  eProduction : IsNumber (·.isFinite = true) (ms.get "eProduction")
  estimatedMemoryBytes : IsNumber IsTally (ms.get "estimatedMemoryBytes")
  evidenceItems : IsList (fun v => ∃ items, v = .obj items ∧ EvidenceItem.IsForm items) (ms.get "evidenceItems")
  rAbsolute : IsNumber (·.isFinite = true) (ms.get "rAbsolute")
  entityTrustScore : IsNumber IsPortion (ms.get "entityTrustScore")
  energyBudgetTokens : IsNumber IsPositiveTally (ms.get "energyBudgetTokens")
  vsmFunction : IsOneOf ["A", "B", "C", "D", "E"] (ms.get "vsmFunction")
  phaseContext : IsOneOf ["Genesis", "Adolescent", "Mature", "Systemic"] (ms.get "phaseContext")
  alternativeModels : IsOptional (IsList IsText) (ms.get "alternativeModels")
  impactScore : IsOptional (IsNumber IsPortion) (ms.get "impactScore")
  viabilityPowerClaim : IsOptional (IsNumber IsAmount) (ms.get "viabilityPowerClaim")
  dependsOn : IsOptional (IsList IsFilledText) (ms.get "dependsOn")

theorem judges_vsmFunction :
    Judges (oneOf (SystemFunction.all.map SystemFunction.name)) (IsOneOf ["A", "B", "C", "D", "E"]) :=
  judges_oneOf (by decide)

theorem judges_phaseContext :
    Judges (oneOf (Phase.all.map Phase.name)) (IsOneOf ["Genesis", "Adolescent", "Mature", "Systemic"]) :=
  judges_oneOf (by decide)

theorem EvidenceItem.passes (v : Value) :
    closedObject EvidenceItem.fields v = [] ↔ ∃ ms, v = .obj ms ∧ EvidenceItem.IsForm ms := by
  rw [closedObject_eq_nil]
  refine exists_congr fun ms => and_congr_right fun _ => ?_
  rw [issues_eq_nil, unknown_eq_nil]
  have hkeys : (∀ k ∈ Members.keys ms, ∃ f ∈ EvidenceItem.fields, k = .whole f.1)
      ↔ ∀ k ∈ Members.keys ms, k = .whole "tier" ∨ k = .whole "weightOverride" := by
    simp [EvidenceItem.fields]
  rw [hkeys]
  simp only [EvidenceItem.fields, List.forall_mem_cons, judges_tier.passes, optional_passes judges_share.passes]
  constructor
  · rintro ⟨⟨htier, hweight, -⟩, hkeys⟩
    exact ⟨hkeys, htier, hweight⟩
  · rintro ⟨hkeys, htier, hweight⟩
    exact ⟨⟨htier, hweight, List.forall_mem_nil _⟩, hkeys⟩

theorem Proposal.passes (v : Value) : issues v = [] ↔ ∃ ms, v = .obj ms ∧ Proposal.IsForm ms := by
  rw [issues, closedObject_eq_nil]
  refine exists_congr fun ms => and_congr_right fun _ => ?_
  rw [issues_eq_nil, unknown_eq_nil]
  have hkeys : (∀ k ∈ Members.keys ms, ∃ f ∈ Proposal.fields, k = .whole f.1)
      ↔ ∀ k ∈ Members.keys ms, ∃ name ∈ Proposal.names, k = .whole name := by
    rw [show Proposal.names = Proposal.fields.map Prod.fst from rfl]
    simp only [List.mem_map, exists_exists_and_eq_and]
  rw [hkeys]
  simp only [fields, List.forall_mem_cons, judges_filledText.passes, judges_finite.passes, judges_tally.passes,
    listOf_passes EvidenceItem.passes, judges_share.passes, judges_positiveTally.passes, judges_vsmFunction.passes,
    judges_phaseContext.passes, optional_passes (listOf_passes judges_text.passes), optional_passes judges_share.passes,
    optional_passes judges_amount.passes, optional_passes (listOf_passes judges_filledText.passes)]
  constructor
  · rintro ⟨⟨h1, h2, h3, h4, h5, h6, h7, h8, h9, h10, h11, h12, h13, h14, h15, h16, h17, -⟩, hkeys⟩
    exact ⟨hkeys, h1, h2, h3, h4, h5, h6, h7, h8, h9, h10, h11, h12, h13, h14, h15, h16, h17⟩
  · rintro ⟨hkeys, h1, h2, h3, h4, h5, h6, h7, h8, h9, h10, h11, h12, h13, h14, h15, h16, h17⟩
    exact ⟨⟨h1, h2, h3, h4, h5, h6, h7, h8, h9, h10, h11, h12, h13, h14, h15, h16, h17, List.forall_mem_nil _⟩, hkeys⟩

/-! ## What a proposal says -/

namespace Proposal

/-- What is taken in place of a member that is absent. -/
def defaultOf : String → Value
  | "alternativeModels" => .arr []
  | "impactScore" => .num 0.0
  | "viabilityPowerClaim" => .num 0.0
  | "dependsOn" => .arr []
  | _ => .absent

/-- The member of a document under a name, or its default. -/
def completed (v : Value) (name : String) : Value := if (v.member name).isAbsent then defaultOf name else v.member name

/-- The proposal says what the document does, and what may be left out has its default; it says nothing else. -/
structure Completes (p : Proposal) (v : Value) : Prop where
  keys : Members.keys p.toValue.members = names.map .whole
  members : ∀ name ∈ names, name ≠ "evidenceItems" → p.toValue.member name = completed v name
  evidenceItems : ∃ vs ws, v.member "evidenceItems" = .arr vs ∧ p.toValue.member "evidenceItems" = .arr ws
    ∧ List.Forall₂ (fun w w' => ∀ key, w'.member key = w.member key) vs ws

end Proposal

theorem Tier.ofNumber?_number (t : Tier) :
    Tier.ofNumber? (Float.ofNat t.number) = some t := by
  cases t <;> decide +kernel

theorem asNumber?_ofOption (o : Option Float) : (Value.ofOption .num o).asNumber? = o := by cases o <;> rfl

/-- **A piece of evidence is read in full.** -/
theorem EvidenceItem.toValue_ofValue {ms : Members} (h : EvidenceItem.IsForm ms) (key : Text) :
    (EvidenceItem.ofValue (.obj ms)).toValue.member key = Members.get key ms := by
  obtain ⟨t, ht⟩ := h.tier
  have htier : (EvidenceItem.ofValue (.obj ms)).tier = t := by
    show ((Members.get "tier" ms).asNumber?.bind Tier.ofNumber?).getD default = t
    rw [ht]
    exact congrArg (Option.getD · default) t.ofNumber?_number
  have hweight : Value.ofOption .num (EvidenceItem.ofValue (.obj ms)).weightOverride
    = Members.get "weightOverride" ms := by
    show Value.ofOption .num (Members.get "weightOverride" ms).asNumber? = _
    obtain hw | ⟨x, hw, -⟩ := h.weightOverride <;> rw [hw] <;> rfl
  show (if _ = key then _ else if _ = key then _ else Value.absent) = _
  by_cases hkey : .whole "tier" = key
  · rw [if_pos hkey, htier, ← ht, hkey]
  · by_cases hkey' : .whole "weightOverride" = key
    · rw [if_neg hkey, if_pos hkey', hweight, hkey']
    · rw [if_neg hkey, if_neg hkey', Value.get_of_notMem]
      exact fun hmem => (h.keys key hmem).elim (hkey ·.symm) (hkey' ·.symm)

theorem EvidenceItem.isForm_toValue {ms : Members} (h : EvidenceItem.IsForm ms) :
    EvidenceItem.IsForm (EvidenceItem.ofValue (.obj ms)).toValue.members where
  keys _ hk := (List.mem_cons.1 hk).imp_right List.mem_singleton.1
  tier := (congrArg IsTier (EvidenceItem.toValue_ofValue h "tier")).mpr h.tier
  weightOverride := (congrArg (IsOptional _) (EvidenceItem.toValue_ofValue h "weightOverride")).mpr h.weightOverride

theorem EvidenceItem.ofValue_toValue (e : EvidenceItem) : EvidenceItem.ofValue e.toValue = e := by
  obtain ⟨tier, weight⟩ := e
  exact EvidenceItem.mk.injEq .. ▸ ⟨congrArg (Option.getD · default) tier.ofNumber?_number, asNumber?_ofOption weight⟩

theorem SystemFunction.ofName?_name (f : SystemFunction) :
    SystemFunction.ofName? f.name = some f := by
  cases f <;> decide

theorem Phase.ofName?_name (p : Phase) : Phase.ofName? p.name = some p := by cases p <;> decide

theorem filterMap_asText? (ts : List Text) : (ts.map Value.str).filterMap Value.asText? = ts := by
  rw [List.filterMap_map]
  exact List.filterMap_some

namespace Proposal

/-- **A proposal is found again in what it says.** -/
theorem ofValue_toValue (p : Proposal) : ofValue p.toValue = p := by
  have hevidence : (p.evidenceItems.map EvidenceItem.toValue).map EvidenceItem.ofValue = p.evidenceItems := by
    rw [List.map_map]
    exact (List.map_congr_left fun e _ => e.ofValue_toValue).trans (List.map_id _)
  have hfunction := congrArg (Option.getD · default) p.vsmFunction.ofName?_name
  have hphase := congrArg (Option.getD · default) p.phaseContext.ofName?_name
  have hmodels := filterMap_asText? p.alternativeModels
  have hdepends := filterMap_asText? p.dependsOn
  obtain ⟨_, _, _, _, _, _, _, _, _, _, _, _, _, _, _, _, _⟩ := p
  simp only [ofValue, Proposal.mk.injEq]
  exact ⟨rfl, rfl, rfl, rfl, rfl, rfl, rfl, hevidence, rfl, rfl, rfl, hfunction, hphase, hmodels, rfl, rfl, hdepends⟩

theorem exists_function {v : Value} (h : IsOneOf ["A", "B", "C", "D", "E"] v) :
    ∃ f : SystemFunction, v = .str (.whole f.name) := by
  obtain ⟨s, hs, rfl⟩ := h
  obtain ⟨f, -, rfl⟩ := List.mem_map.1 (show s ∈ SystemFunction.all.map SystemFunction.name from hs)
  exact ⟨f, rfl⟩

theorem exists_phase {v : Value} (h : IsOneOf ["Genesis", "Adolescent", "Mature", "Systemic"] v) :
    ∃ p : Phase, v = .str (.whole p.name) := by
  obtain ⟨s, hs, rfl⟩ := h
  obtain ⟨p, -, rfl⟩ := List.mem_map.1 (show s ∈ Phase.all.map Phase.name from hs)
  exact ⟨p, rfl⟩

section Reading

variable {ms : Members} {name : String}

theorem completed_obj : completed (.obj ms) name
    = if (Members.get name ms).isAbsent then defaultOf name else Members.get name ms := rfl

theorem completed_of_isAbsent_eq_false (h : (Members.get name ms).isAbsent = false) :
    completed (.obj ms) name = Members.get name ms := by
  rw [completed_obj, h]
  rfl

theorem read_text (h : IsFilledText (Members.get name ms)) :
    .str ((Members.get name ms).asText?.getD default) = completed (.obj ms) name := by
  rw [completed_of_isAbsent_eq_false] <;> obtain ⟨t, ht, -⟩ := h <;> rw [ht] <;> rfl

theorem read_number {D : Float → Prop} (h : IsNumber D (Members.get name ms)) :
    .num ((Members.get name ms).asNumber?.getD 0.0) = completed (.obj ms) name := by
  rw [completed_of_isAbsent_eq_false] <;> obtain ⟨x, hx, -⟩ := h <;> rw [hx] <;> rfl

theorem read_optional_number {D : Float → Prop} (hdefault : defaultOf name = .num 0.0)
    (h : IsOptional (IsNumber D) (Members.get name ms)) :
    .num ((Members.get name ms).asNumber?.getD 0.0) = completed (.obj ms) name := by
  obtain habsent | hnumber := h
  · rw [completed_obj, habsent, hdefault]
    rfl
  · exact read_number hnumber

theorem read_texts {D : Value → Prop} (hD : ∀ v, D v → IsText v) (hdefault : defaultOf name = .arr [])
    (h : IsOptional (IsList D) (Members.get name ms)) :
    .arr (((Members.get name ms).items.filterMap Value.asText?).map .str) = completed (.obj ms) name := by
  rw [completed_obj]
  obtain habsent | ⟨vs, hvs, hall⟩ := h
  · rw [habsent, hdefault]
    rfl
  · rw [hvs]
    refine congrArg Value.arr ?_
    clear hvs
    show (vs.filterMap Value.asText?).map .str = vs
    induction vs with
    | nil => rfl
    | cons w vs ih =>
      obtain ⟨hw, hrest⟩ := List.forall_mem_cons.1 hall
      obtain ⟨t, rfl⟩ := hD w hw
      exact congrArg (.str t :: ·) (ih hrest)

theorem read_function (h : IsOneOf ["A", "B", "C", "D", "E"] (Members.get name ms)) :
    .str ((SystemFunction.ofName? ((Members.get name ms).asText?.getD default).plain).getD default).name
      = completed (.obj ms) name := by
  obtain ⟨f, hf⟩ := exists_function h
  rw [completed_of_isAbsent_eq_false (by rw [hf]; rfl), hf]
  exact congrArg (fun o : Option SystemFunction => Value.str (.whole (o.getD default).name)) f.ofName?_name

theorem read_phase (h : IsOneOf ["Genesis", "Adolescent", "Mature", "Systemic"] (Members.get name ms)) :
    .str ((Phase.ofName? ((Members.get name ms).asText?.getD default).plain).getD default).name
      = completed (.obj ms) name := by
  obtain ⟨p, hp⟩ := exists_phase h
  rw [completed_of_isAbsent_eq_false (by rw [hp]; rfl), hp]
  exact congrArg (fun o : Option Phase => Value.str (.whole (o.getD default).name)) p.ofName?_name

end Reading

/-- **A document of the form of a proposal is read in full**, and completed by the defaults. -/
theorem completes_of_isForm {ms : Members} (h : IsForm ms) : (ofValue (.obj ms)).Completes (.obj ms) := by
  refine ⟨rfl, ?_, ?_⟩
  · simp only [names, List.forall_mem_cons]
    exact ⟨fun _ => read_text h.proposalId, fun _ => read_number h.eIndustrial, fun _ => read_number h.eEcosystem,
      fun _ => read_number h.eInteraction, fun _ => read_number h.eInvested, fun _ => read_number h.eProduction,
      fun _ => read_number h.estimatedMemoryBytes, fun hne => absurd rfl hne, fun _ => read_number h.rAbsolute,
      fun _ => read_number h.entityTrustScore, fun _ => read_number h.energyBudgetTokens,
      fun _ => read_function h.vsmFunction, fun _ => read_phase h.phaseContext,
      fun _ => read_texts (fun _ => id) rfl h.alternativeModels, fun _ => read_optional_number rfl h.impactScore,
      fun _ => read_optional_number rfl h.viabilityPowerClaim,
      fun _ => read_texts (fun _ ⟨t, ht, _⟩ => ⟨t, ht⟩) rfl h.dependsOn, List.forall_mem_nil _⟩
  · obtain ⟨vs, hvs, hall⟩ := h.evidenceItems
    refine ⟨vs, vs.map fun v => (EvidenceItem.ofValue v).toValue, hvs, ?_, ?_⟩
    · show Value.arr (((Members.get "evidenceItems" ms).items.map EvidenceItem.ofValue).map EvidenceItem.toValue) = _
      rw [hvs, List.map_map]
      rfl
    · refine List.forall₂_map_right_iff.2 (List.forall₂_same.2 fun v hv key => ?_)
      obtain ⟨items, rfl, hform⟩ := hall v hv
      exact EvidenceItem.toValue_ofValue hform key

theorem completed_passes {ms : Members} {name : String} {D : Value → Prop} (h : D (Members.get name ms))
    (hdefault : D .absent → D (defaultOf name)) : D (completed (.obj ms) name) := by
  rw [completed_obj]
  generalize Members.get (.whole name) ms = v at h
  cases v with
  | absent => exact hdefault h
  | _ => exact h

/-- **What a proposal says has the form of one.** -/
theorem isForm_toValue {ms : Members} (h : IsForm ms) : IsForm (ofValue (.obj ms)).toValue.members := by
  have hc := completes_of_isForm h
  have htext : IsFilledText .absent → False := fun ⟨t, ht, _⟩ => by cases ht
  have hnumber : ∀ {D}, IsNumber D .absent → False := fun ⟨x, hx, _⟩ => by cases hx
  have hname : ∀ {names}, IsOneOf names .absent → False := fun ⟨s, _, hs⟩ => by cases hs
  have hmember : ∀ {name : String} {D : Value → Prop}, name ∈ names → name ≠ "evidenceItems" → D (Members.get name ms) →
      (D .absent → D (defaultOf name)) → D ((ofValue (.obj ms)).toValue.member name) := by
    intro name D hname hne hD hdefault
    rw [hc.members name hname hne]
    exact completed_passes hD hdefault
  exact {
    keys := fun k hk => by
      rw [hc.keys] at hk
      obtain ⟨name, hname, rfl⟩ := List.mem_map.1 hk
      exact ⟨name, hname, rfl⟩
    proposalId := hmember (by decide) (by decide) h.proposalId (False.elim ∘ htext)
    eIndustrial := hmember (by decide) (by decide) h.eIndustrial (False.elim ∘ hnumber)
    eEcosystem := hmember (by decide) (by decide) h.eEcosystem (False.elim ∘ hnumber)
    eInteraction := hmember (by decide) (by decide) h.eInteraction (False.elim ∘ hnumber)
    eInvested := hmember (by decide) (by decide) h.eInvested (False.elim ∘ hnumber)
    eProduction := hmember (by decide) (by decide) h.eProduction (False.elim ∘ hnumber)
    estimatedMemoryBytes := hmember (by decide) (by decide) h.estimatedMemoryBytes (False.elim ∘ hnumber)
    evidenceItems := by
      obtain ⟨vs, hvs, hall⟩ := h.evidenceItems
      refine ⟨((Members.get "evidenceItems" ms).items.map EvidenceItem.ofValue).map EvidenceItem.toValue, rfl,
        fun w hw => ?_⟩
      rw [hvs, List.map_map] at hw
      obtain ⟨v, hv, rfl⟩ := List.mem_map.1 hw
      obtain ⟨items, rfl, hform⟩ := hall v hv
      exact ⟨_, rfl, EvidenceItem.isForm_toValue hform⟩
    rAbsolute := hmember (by decide) (by decide) h.rAbsolute (False.elim ∘ hnumber)
    entityTrustScore := hmember (by decide) (by decide) h.entityTrustScore (False.elim ∘ hnumber)
    energyBudgetTokens := hmember (by decide) (by decide) h.energyBudgetTokens (False.elim ∘ hnumber)
    vsmFunction := hmember (by decide) (by decide) h.vsmFunction (False.elim ∘ hname)
    phaseContext := hmember (by decide) (by decide) h.phaseContext (False.elim ∘ hname)
    alternativeModels := hmember (by decide) (by decide) h.alternativeModels fun _ =>
      .inr ⟨[], rfl, List.forall_mem_nil _⟩
    impactScore := hmember (by decide) (by decide) h.impactScore fun _ => .inr ⟨0.0, rfl, by decide, by decide⟩
    viabilityPowerClaim := hmember (by decide) (by decide) h.viabilityPowerClaim fun _ =>
      .inr ⟨0.0, rfl, by decide, by decide⟩
    dependsOn := hmember (by decide) (by decide) h.dependsOn fun _ => .inr ⟨[], rfl, List.forall_mem_nil _⟩ }

/-! ## All that is wrong with a document -/

open Places in
/-- The places of a document that keep it from being a proposal. -/
def places : Places := inMembers
  [("proposalId", outside IsFilledText),
   ("eIndustrial", outside (IsNumber (·.isFinite = true))),
   ("eEcosystem", outside (IsNumber (·.isFinite = true))),
   ("eInteraction", outside (IsNumber (·.isFinite = true))),
   ("eInvested", outside (IsNumber (·.isFinite = true))),
   ("eProduction", outside (IsNumber (·.isFinite = true))),
   ("estimatedMemoryBytes", outside (IsNumber IsTally)),
   ("evidenceItems",
    inItems (inMembers [("tier", outside IsTier), ("weightOverride", unlessAbsent (outside (IsNumber IsPortion)))])),
   ("rAbsolute", outside (IsNumber (·.isFinite = true))),
   ("entityTrustScore", outside (IsNumber IsPortion)),
   ("energyBudgetTokens", outside (IsNumber IsPositiveTally)),
   ("vsmFunction", outside (IsOneOf ["A", "B", "C", "D", "E"])),
   ("phaseContext", outside (IsOneOf ["Genesis", "Adolescent", "Mature", "Systemic"])),
   ("alternativeModels", unlessAbsent (inItems (outside IsText))),
   ("impactScore", unlessAbsent (outside (IsNumber IsPortion))),
   ("viabilityPowerClaim", unlessAbsent (outside (IsNumber IsAmount))),
   ("dependsOn", unlessAbsent (inItems (outside IsFilledText)))]

theorem told_issues_eq : told issues = places := by
  unfold issues
  rw [told_closedObject]
  simp only [fields, EvidenceItem.fields, List.map_cons, List.map_nil, told_optional, told_listOf, told_closedObject,
    judges_filledText.told_eq, judges_finite.told_eq, judges_tally.told_eq, judges_share.told_eq,
    judges_positiveTally.told_eq, judges_vsmFunction.told_eq, judges_phaseContext.told_eq, judges_text.told_eq,
    judges_amount.told_eq, judges_tier.told_eq]
  rfl

theorem create_eq_error {v : Value} {e : PolicyError} :
    create v = .error e ↔ issues v ≠ [] ∧ e = .invalidProposal (.malformed ((issues v).map (Issue.text "<root>"))) := by
  unfold create
  cases issues v with
  | nil => simp
  | cons i is => simp [eq_comm]

/-- **What becomes of a document.**  It is taken exactly if it has the form of a proposal.  The proposal then says
what the document does, completed by the defaults of what is absent, and if it is checked again it is taken as it is,
under the same hash.  Otherwise the document is told issues, at least one, and the places that they name are exactly
those that are wrong. -/
theorem create_exact (v : Value) :
    ((∃ p, create v = .ok p) ↔ ∃ ms, v = .obj ms ∧ IsForm ms)
    ∧ (∀ p, create v = .ok p →
        p.Completes v ∧ ∃ q, create p.toValue = .ok q ∧ q = p ∧ Audit.hashOf q.toValue = Audit.hashOf p.toValue)
    ∧ ∀ e, create v = .error e → ∃ is : List Issue, is ≠ []
        ∧ e = .invalidProposal (.malformed (is.map (Issue.text "<root>")))
        ∧ ∀ path, (∃ i ∈ is, i.path = path) ↔ places v path := by
  refine ⟨?_, fun p hp => ?_, fun e he => ?_⟩
  · rw [← passes]
    exact ⟨fun ⟨p, hp⟩ => (create_eq_ok.1 hp).1, fun h => ⟨_, create_eq_ok.2 ⟨h, rfl⟩⟩⟩
  · obtain ⟨hissues, rfl⟩ := create_eq_ok.1 hp
    obtain ⟨ms, rfl, hform⟩ := (passes v).1 hissues
    have hagain : issues (ofValue (.obj ms)).toValue = [] := (passes _).2 ⟨_, rfl, isForm_toValue hform⟩
    exact ⟨completes_of_isForm hform, _, create_eq_ok.2 ⟨hagain, ofValue_toValue _⟩, rfl, rfl⟩
  · obtain ⟨hissues, rfl⟩ := create_eq_error.1 he
    exact ⟨issues v, hissues, rfl, fun path => by rw [← told_issues_eq]; rfl⟩

/-- A document that leaves out all it may is taken and completed.  One with nothing but a member that nobody knows and
an impact of two is told of itself, of the impact and of what it lacks, and not of what it may leave out. -/
theorem taken_and_refused :
    (∃ p, create (.obj (Registry.namedMembers "p1" [])) = .ok p ∧ p.toValue.member "impactScore" = .num 0.0
        ∧ create p.toValue = .ok p)
    ∧ ∃ is : List Issue, create (.obj [("colour", .null), ("impactScore", .num 2.0)])
          = .error (.invalidProposal (.malformed (is.map (Issue.text "<root>"))))
        ∧ (∃ i ∈ is, i.path = []) ∧ (∃ i ∈ is, i.path = ["impactScore"]) ∧ (∃ i ∈ is, i.path = ["proposalId"])
        ∧ ¬∃ i ∈ is, i.path = ["dependsOn"] := by
  refine ⟨?_, ?_⟩
  · have hp : create (.obj (Registry.namedMembers "p1" [])) = .ok _ := Registry.create_namedMembers rfl
    obtain ⟨hcompletes, q, hq, rfl, -⟩ := (create_exact _).2.1 _ hp
    exact ⟨_, hp, hcompletes.members "impactScore" (by decide) (by decide), hq⟩
  · obtain ⟨hform, -, herror⟩ := create_exact (.obj [("colour", .null), ("impactScore", .num 2.0)])
    cases hcreate : create (.obj [("colour", .null), ("impactScore", .num 2.0)]) with
    | ok p =>
      obtain ⟨ms, hms, h⟩ := hform.1 ⟨p, hcreate⟩
      cases hms
      obtain ⟨t, ht, -⟩ := h.proposalId
      cases ht
    | error e =>
      obtain ⟨is, -, rfl, hpaths⟩ := herror e hcreate
      refine ⟨is, rfl, (hpaths _).2 ?_, (hpaths _).2 ?_, (hpaths _).2 ?_, fun h => ?_⟩
      · exact .inl ⟨rfl, "colour", by simp [Members.keys], by simp⟩
      · refine .inr ⟨("impactScore", Places.unlessAbsent (.outside (IsNumber IsPortion))), by simp, [], rfl, rfl, ?_⟩
        rintro ⟨x, hx, -, hle⟩
        cases hx
        exact absurd hle (by decide)
      · refine .inr ⟨("proposalId", .outside IsFilledText), by simp, [], rfl, rfl, ?_⟩
        rintro ⟨t, ht, -⟩
        cases ht
      · have hplaces := (hpaths _).1 h
        simp [places, Places.inMembers, Places.unlessAbsent, Members.get] at hplaces

end Proposal

end PolicyGates
