import PolicyGates.Proofs.Schema
import PolicyGates.Proposal.Schema
import PolicyGates.Settings.Schema
/-!
# Checked proposals and settings

Gates compare and add numbers that somebody has sent.  Every number of a proposal that was made from a document, and
every number of settings that were made from overrides, keeps the rules of its member (`Proposal.isChecked_of_create`,
`Settings.isChecked_of_create`); in particular none of them is a NaN.
-/
namespace PolicyGates

open Schema

abbrev IsShare (x : Float) : Prop := Keeps [.least 0.0, .greatest 1.0] x

theorem IsShare.zero_le {x : Float} (h : IsShare x) : 0.0 ≤ x := h.least_le (List.mem_cons_self) (by decide)

theorem IsShare.le_one {x : Float} (h : IsShare x) : x ≤ 1.0 :=
  h.le_greatest (List.mem_cons_of_mem _ List.mem_cons_self) (by decide)

theorem isShare_iff {x : Float} : IsShare x ↔ 0.0 ≤ x ∧ x ≤ 1.0 := by
  refine ⟨fun h => ⟨h.zero_le, h.le_one⟩, fun ⟨h0, h1⟩ => ?_⟩
  have hx := (Double.isNaN_of_le h1).1
  exact ⟨hx, List.forall_mem_cons.2 ⟨(admits_least hx (by decide)).2 h0,
    List.forall_mem_singleton.2 ((admits_greatest hx (by decide)).2 h1)⟩⟩

theorem IsShare.isFinite {x : Float} (h : IsShare x) : x.isFinite = true :=
  Double.isFinite_of_le (a := 0.0) (b := 1.0) (by decide) (by decide) h.1 h.zero_le h.le_one

structure Proposal.IsChecked (p : Proposal) : Prop where
  eIndustrial : Keeps [.finite] p.eIndustrial
  eEcosystem : Keeps [.finite] p.eEcosystem
  eInteraction : Keeps [.finite] p.eInteraction
  eInvested : Keeps [.finite] p.eInvested
  eProduction : Keeps [.finite] p.eProduction
  estimatedMemoryBytes : Keeps [.whole, .least 0.0] p.estimatedMemoryBytes
  weights : ∀ e ∈ p.evidenceItems, ∀ w, e.weightOverride = some w → IsShare w
  rAbsolute : Keeps [.finite] p.rAbsolute
  entityTrustScore : IsShare p.entityTrustScore
  energyBudgetTokens : Keeps [.whole, .above 0.0] p.energyBudgetTokens
  impactScore : IsShare p.impactScore
  viabilityPowerClaim : Keeps [.finite, .least 0.0] p.viabilityPowerClaim

structure Settings.IsChecked (s : Settings) : Prop where
  memoryLimitBytes : Keeps [.whole, .above 0.0] s.memoryLimitBytes
  evidenceScoreThreshold : IsShare s.evidenceScoreThreshold
  rAbsoluteThreshold : Keeps [.finite] s.rAbsoluteThreshold
  escalationThreshold : IsShare s.escalationThreshold
  phaseSource : ∀ n, s.phaseSource = .entityCount n → Keeps [.whole, .least 0.0] n
  base : ∀ g, Keeps [.whole, .least 0.0] (s.gateCosts.base g)
  perEvidenceItem : Keeps [.whole, .least 0.0] s.gateCosts.perEvidenceItem
  concurrency : Keeps [.whole, .above 0.0] s.concurrency
  timeoutMs : ∀ t, s.timeoutMs = some t → Keeps [.whole, .above 0.0] t

/-! ## Proposals -/

theorem Schema.Keeps.of_asNumber? {rules : List NumberRule} {v : Value} {x : Float} (h : optional (number rules) v = [])
    (hx : v.asNumber? = some x) : Keeps rules x := by
  rcases optional_eq_nil.1 h with ha | hn
  · cases v with
    | absent => cases hx
    | _ => cases ha
  · obtain ⟨y, rfl, hy⟩ := number_eq_nil.1 hn
    cases hx
    exact hy

theorem EvidenceItem.isShare_of_checked {v : Value} (h : closedObject EvidenceItem.fields v = []) {w : Float}
    (hw : (EvidenceItem.ofValue v).weightOverride = some w) : IsShare w := by
  obtain ⟨ms, rfl, hms, -⟩ := closedObject_eq_nil.1 h
  exact .of_asNumber? (issues_eq_nil.1 hms ("weightOverride", optional share) (by simp [fields])) hw

theorem Proposal.create_eq_ok {v : Value} {p : Proposal} : create v = .ok p ↔ issues v = [] ∧ ofValue v = p := by
  unfold create
  cases issues v with
  | nil => simp
  | cons i is => simp

theorem Proposal.create_obj {ms : Members} (hissues : Fields.issues fields ms = [])
    (hknown : ms.keys.filter (fun k => !fields.any (fun f => .whole f.1 == k)) = [])
    (hplain : ∀ k ∈ ms.keys, Members.index? k = none) : create (.obj ms) = .ok (.ofValue (.obj ms)) := by
  have hunknown : Fields.unknown fields ms = [] := by rw [Fields.unknown, listing_eq_keys hplain, hknown]
  exact create_eq_ok.2 ⟨closedObject_eq_nil.2 ⟨ms, rfl, hissues, hunknown⟩, rfl⟩

/-- **A proposal that a document holds has numbers within their rules.** -/
theorem Proposal.isChecked_of_create {v : Value} {p : Proposal} (h : create v = .ok p) : p.IsChecked := by
  obtain ⟨hissues, rfl⟩ := create_eq_ok.1 h
  obtain ⟨ms, rfl, hms, -⟩ := closedObject_eq_nil.1 hissues
  have hfield := issues_eq_nil.1 hms
  constructor
  · exact .of_number (hfield ("eIndustrial", number [.finite]) (by simp [fields])) 0.0
  · exact .of_number (hfield ("eEcosystem", number [.finite]) (by simp [fields])) 0.0
  · exact .of_number (hfield ("eInteraction", number [.finite]) (by simp [fields])) 0.0
  · exact .of_number (hfield ("eInvested", number [.finite]) (by simp [fields])) 0.0
  · exact .of_number (hfield ("eProduction", number [.finite]) (by simp [fields])) 0.0
  · exact .of_number (hfield ("estimatedMemoryBytes", number [.whole, .least 0.0]) (by simp [fields])) 0.0
  · intro e he w hw
    obtain ⟨vs, hvs, hall⟩ :=
      listOf_eq_nil.1 (hfield ("evidenceItems", listOf (closedObject EvidenceItem.fields)) (by simp [fields]))
    change e ∈ (Members.get "evidenceItems" ms).items.map EvidenceItem.ofValue at he
    change Members.get "evidenceItems" ms = .arr vs at hvs
    rw [hvs] at he
    obtain ⟨x, hx, rfl⟩ := List.mem_map.1 he
    exact EvidenceItem.isShare_of_checked (hall x hx) hw
  · exact .of_number (hfield ("rAbsolute", number [.finite]) (by simp [fields])) 0.0
  · exact .of_number (hfield ("entityTrustScore", share) (by simp [fields])) 0.0
  · exact .of_number (hfield ("energyBudgetTokens", number [.whole, .above 0.0]) (by simp [fields])) 0.0
  · exact .of_optional (hfield ("impactScore", optional share) (by simp [fields])) ⟨by decide, by decide⟩
  · exact .of_optional (hfield ("viabilityPowerClaim", optional (number [.finite, .least 0.0])) (by simp [fields]))
      ⟨by decide, by decide⟩

/-- A document with everything that a proposal needs and nothing to back it up. -/
def Proposal.bareMembers : Members :=
  [("proposalId", .str "p1"), ("eIndustrial", .num 1.0), ("eEcosystem", .num 1.0), ("eInteraction", .num 0.0),
   ("eInvested", .num 1.0), ("eProduction", .num 2.0), ("estimatedMemoryBytes", .num 1024.0),
   ("evidenceItems", .arr []), ("rAbsolute", .num 0.5), ("entityTrustScore", .num 0.5),
   ("energyBudgetTokens", .num 100.0), ("vsmFunction", .str "A"), ("phaseContext", .str "Genesis"),
   ("alternativeModels", .arr [.str "m"]), ("viabilityPowerClaim", .num 3.0)]

/-! ## Settings -/

theorem PhaseSource.keeps_of_checked {v : Value} (h : Settings.phaseSourceCheck v = []) {n : Float}
    (hn : ofValue v = .entityCount n) : Keeps [.whole, .least 0.0] n := by
  unfold ofValue at hn
  split at hn
  · next hk =>
    cases hn
    cases v with
    | obj ms =>
      change (Members.get "kind" ms).asString? = some "entityCount" at hk
      simp only [Settings.phaseSourceCheck] at h
      split at h
      · next hkind =>
        rw [hkind] at hk
        simp [Value.asString?, Value.asText?, Text.plain] at hk
      · exact .of_number (issues_eq_nil.1 h ("entityCount", number [.whole, .least 0.0]) (by simp)) 0.0
      · exact absurd (under_eq_nil.1 h) (refuse_ne_nil _)
    | _ => cases hk
  · cases hn

theorem Settings.ofChecked_eq_ok {v : Value} {s : Settings} : ofChecked v = .ok s ↔ issues v = [] ∧ ofValue v = s := by
  unfold ofChecked
  cases issues v with
  | nil => simp
  | cons i is => simp

theorem Settings.isChecked_of_ofChecked {v : Value} {s : Settings} (h : ofChecked v = .ok s) : s.IsChecked := by
  obtain ⟨hissues, rfl⟩ := ofChecked_eq_ok.1 h
  obtain ⟨ms, rfl, hms⟩ := openObject_eq_nil.1 hissues
  have hfield := issues_eq_nil.1 hms
  obtain ⟨cs, hcs, hcosts⟩ := openObject_eq_nil.1 (hfield ("gateCosts", openObject costFields) (by simp [fields]))
  change Members.get "gateCosts" ms = .obj cs at hcs
  have hcost := issues_eq_nil.1 hcosts
  constructor
  · exact .of_number (hfield ("memoryLimitBytes", number [.whole, .above 0.0]) (by simp [fields])) 0.0
  · exact .of_number (hfield ("evidenceScoreThreshold", number [.least 0.0, .greatest 1.0]) (by simp [fields])) 0.0
  · exact .of_number (hfield ("rAbsoluteThreshold", number [.finite]) (by simp [fields])) 0.0
  · exact .of_number (hfield ("escalationThreshold", number [.least 0.0, .greatest 1.0]) (by simp [fields])) 0.0
  · exact fun n => PhaseSource.keeps_of_checked (hfield ("phaseSource", phaseSourceCheck) (by simp [fields]))
  · intro g
    obtain ⟨bs, hbs, hbase⟩ := openObject_eq_nil.1
      (hcost ("base", openObject (Gate.all.map (fun g => (g.key, priceCheck)))) (by simp [costFields]))
    change Members.get "base" cs = .obj bs at hbs
    show Keeps _ (((((Members.get "gateCosts" ms).member "base").member g.key).asNumber?).getD 0.0)
    rw [hcs]
    show Keeps _ ((((Members.get "base" cs).member g.key).asNumber?).getD 0.0)
    rw [hbs]
    exact .of_number (issues_eq_nil.1 hbase (g.key, priceCheck) (List.mem_map.2 ⟨g, by cases g <;> decide, rfl⟩)) 0.0
  · show Keeps _ (((Members.get "gateCosts" ms).member "perEvidenceItem").asNumber?.getD 0.0)
    rw [hcs]
    exact .of_number (hcost ("perEvidenceItem", priceCheck) (by simp [costFields])) 0.0
  · exact .of_number (hfield ("concurrency", number [.whole, .above 0.0]) (by simp [fields])) 0.0
  · exact fun t => .of_asNumber? (hfield ("timeoutMs", optional (number [.whole, .above 0.0])) (by simp [fields]))

theorem Settings.exists_ofChecked_of_create {v : Value} {s : Settings} (h : create v = .ok s) :
    ∃ w, ofChecked w = .ok s := by
  unfold create at h
  split at h
  · cases h
  · split at h
    · next hs =>
      cases h
      exact ⟨_, hs⟩
    · cases h

/-- **Settings that were made from overrides have numbers within their rules.** -/
theorem Settings.isChecked_of_create {v : Value} {s : Settings} (h : create v = .ok s) : s.IsChecked := by
  obtain ⟨w, hw⟩ := exists_ofChecked_of_create h
  exact isChecked_of_ofChecked hw

end PolicyGates
