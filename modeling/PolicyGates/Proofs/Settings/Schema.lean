import PolicyGates.Proofs.Acceptance
/-!
# Settings that were checked

Settings that come out of a check have one of the three modes and numbers within their rules, and such settings are
accepted (`ofChecked_toValue`).  They name every setting, so nothing standard is left when they are laid over the
standard ones (`merged_toValue`), and making settings from them again changes nothing (`create_toValue`).
-/
namespace PolicyGates

open Schema

/-- A mode that can be asked for by name. -/
def Mode.IsListed (m : Mode) : Prop := m = .observe ∨ m = .advise ∨ m = .enforce

theorem Mode.IsListed.exists_name {m : Mode} (h : m.IsListed) :
    ∃ s ∈ Mode.names, m.toValue = .str (.whole s) ∧ Mode.ofName? s = some m := by
  rcases h with rfl | rfl | rfl
  · exact ⟨"observe", by decide, rfl, rfl⟩
  · exact ⟨"advise", by decide, rfl, rfl⟩
  · exact ⟨"enforce", by decide, rfl, rfl⟩

theorem Mode.isListed_ofName? {s : String} (h : s ∈ Mode.names) : ∃ m, Mode.ofName? s = some m ∧ m.IsListed := by
  have hs : s = "observe" ∨ s = "advise" ∨ s = "enforce" := by simpa [Mode.names, Mode.listed] using h
  rcases hs with rfl | rfl | rfl
  · exact ⟨.observe, rfl, .inl rfl⟩
  · exact ⟨.advise, rfl, .inr (.inl rfl)⟩
  · exact ⟨.enforce, rfl, .inr (.inr rfl)⟩

theorem Mode.IsListed.ofValue_toValue {m : Mode} (h : m.IsListed) : Mode.ofValue m.toValue = m := by
  rcases h with rfl | rfl | rfl <;> rfl

namespace Settings

theorem judges_mode : Judges (oneOf Mode.names) (IsOneOf Mode.names) := judges_oneOf (by decide)

theorem isListed_of_ofChecked {v : Value} {s : Settings} (h : ofChecked v = .ok s) : s.mode.IsListed := by
  obtain ⟨hissues, rfl⟩ := ofChecked_eq_ok.1 h
  obtain ⟨ms, rfl, hms⟩ := openObject_eq_nil.1 hissues
  obtain ⟨name, hname, hmode⟩ :=
    (judges_mode.passes _).1 (issues_eq_nil.1 hms ("mode", oneOf Mode.names) (by simp [fields]))
  obtain ⟨m, hm, hlisted⟩ := Mode.isListed_ofName? hname
  have hread : (ofValue (.obj ms)).mode = m := by
    change Mode.ofValue (Members.get "mode" ms) = m
    change Members.get "mode" ms = .str (.whole name) at hmode
    rw [hmode]
    exact congrArg (Option.getD · _) hm
  rwa [hread]

/-! ## What settings say is accepted -/

variable {s : Settings}

theorem phaseSourceCheck_toValue {p : PhaseSource} (h : ∀ n, p = .entityCount n → Keeps [.whole, .least 0.0] n) :
    phaseSourceCheck p.toValue = [] := by
  cases p with
  | proposal => rfl
  | entityCount n =>
    show Fields.issues [("entityCount", number [.whole, .least 0.0])] _ = []
    exact issues_eq_nil.2 (List.forall_mem_singleton.2 (number_eq_nil.2 ⟨n, rfl, h n rfl⟩))

theorem costs_toValue {c : GateCosts} (hbase : ∀ g, Keeps [.whole, .least 0.0] (c.base g))
    (hitem : Keeps [.whole, .least 0.0] c.perEvidenceItem) : openObject costFields c.toValue = [] := by
  have hprices : ∀ g, Members.get (.whole g.key) (Gate.all.map fun g => (Text.whole g.key, Value.num (c.base g)))
    = .num (c.base g) := by
    intro g
    cases g <;> rfl
  refine openObject_eq_nil.2 ⟨_, rfl, issues_eq_nil.2 ?_⟩
  simp only [costFields, List.forall_mem_cons, List.not_mem_nil, false_implies, implies_true, and_true]
  refine ⟨openObject_eq_nil.2 ⟨_, rfl, issues_eq_nil.2 fun f hf => ?_⟩, number_eq_nil.2 ⟨_, rfl, hitem⟩⟩
  obtain ⟨g, -, rfl⟩ := List.mem_map.1 hf
  exact number_eq_nil.2 ⟨_, hprices g, hbase g⟩

theorem IsChecked.issues_toValue (h : s.IsChecked) (hmode : s.mode.IsListed) : issues s.toValue = [] := by
  obtain ⟨name, hname, hvalue, -⟩ := hmode.exists_name
  have hlisted := (judges_mode.passes _).2 ⟨name, hname, hvalue⟩
  have hnumber : ∀ {rules : List NumberRule} {x : Float}, Keeps rules x → number rules (.num x) = [] :=
    fun hx => number_eq_nil.2 ⟨_, rfl, hx⟩
  have htimeout : optional (number [.whole, .above 0.0]) (Value.ofOption .num s.timeoutMs) = [] := by
    rw [optional_eq_nil]
    cases ht : s.timeoutMs with
    | none => exact .inl rfl
    | some t => exact .inr (hnumber (h.timeoutMs t ht))
  refine openObject_eq_nil.2 ⟨_, rfl, issues_eq_nil.2 ?_⟩
  simp only [fields, List.forall_mem_cons, List.not_mem_nil, false_implies, implies_true, and_true]
  exact ⟨hlisted, hnumber h.memoryLimitBytes, hnumber h.evidenceScoreThreshold, hnumber h.rAbsoluteThreshold,
    hnumber h.escalationThreshold, phaseSourceCheck_toValue h.phaseSource, costs_toValue h.base h.perEvidenceItem,
    hnumber h.concurrency, htimeout⟩

/-- **Settings are found again in what they say.** -/
theorem ofValue_toValue (hmode : s.mode.IsListed) : ofValue s.toValue = s := by
  have hread := hmode.ofValue_toValue
  have htimeout := asNumber?_ofOption s.timeoutMs
  obtain ⟨mode, m, e, r, i, phase, ⟨base, item⟩, c, t⟩ := s
  have hphase : PhaseSource.ofValue phase.toValue = phase := by cases phase <;> rfl
  have hbase : (GateCosts.ofValue (GateCosts.mk base item).toValue).base = base := by
    funext g
    cases g <;> rfl
  have hcosts : GateCosts.ofValue (GateCosts.mk base item).toValue = ⟨base, item⟩ :=
    GateCosts.mk.injEq .. ▸ ⟨hbase, rfl⟩
  simp only [ofValue, Settings.mk.injEq]
  exact ⟨hread, rfl, rfl, rfl, rfl, hphase, hcosts, rfl, htimeout⟩

/-- **Settings with a listed mode and with numbers within their rules are accepted.** -/
theorem ofChecked_toValue (h : s.IsChecked) (hmode : s.mode.IsListed) : ofChecked s.toValue = .ok s :=
  ofChecked_eq_ok.2 ⟨h.issues_toValue hmode, ofValue_toValue hmode⟩

theorem merged_toValue (s : Settings) : merged s.toValue = s.toValue := by
  rfl

theorem create_obj (ms : Members) : create (.obj ms) = (ofChecked (merged (.obj ms))).mapError .policy := by
  unfold create
  dsimp only
  cases ofChecked (merged (.obj ms)) <;> rfl

/-- **Settings that were checked are accepted as they are.** -/
theorem create_toValue {v : Value} (h : ofChecked v = .ok s) : create s.toValue = .ok s := by
  rw [toValue, create_obj, ← toValue, merged_toValue,
    ofChecked_toValue (isChecked_of_ofChecked h) (isListed_of_ofChecked h)]
  rfl

end Settings

end PolicyGates
