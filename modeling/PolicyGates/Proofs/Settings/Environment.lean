import PolicyGates.Proofs.Decimal.Setting
import PolicyGates.Proofs.Settings.Schema
import PolicyGates.Settings.Environment
/-!
# What the environment asks for

Settings depend on the environment through what the seven variables are read as (`ofEnvironment_congr`).  A blank
variable for a number is read as an unset one, and a blank one for the mode is refused: `blank_exact`.

Settings that are written into the variables are read back, thresholds of zero without their sign, and what is read
from any environment are settings that are accepted as they are: `read_exact`.
-/
namespace PolicyGates.Settings

/-- The environment without a variable. -/
def Environment.unset (env : Environment) (key : Text) : Environment := env.filter fun m => m.1 ≠ key

variable {env env' : Environment} {key : String} {t : Text}

theorem Environment.get_unset_self (env : Environment) (key : Text) : (env.unset key).get key = .absent := by
  refine Value.get_of_notMem fun h => ?_
  obtain ⟨m, hm, hkey⟩ := List.mem_map.1 h
  exact of_decide_eq_true (List.mem_filter.1 hm).2 hkey

theorem Environment.get_unset_of_ne (env : Environment) {key key' : Text} (h : key' ≠ key) :
    (env.unset key).get key' = env.get key' := by
  induction env with
  | nil => rfl
  | cons m rest ih =>
    by_cases hm : m.1 = key
    · rw [unset, List.filter_cons_of_neg (by simpa using hm), Members.get, if_neg fun hc => h (hc.symm.trans hm)]
      exact ih
    · rw [unset, List.filter_cons_of_pos (by simpa using hm), Members.get, Members.get, ← unset, ih]

/-! ## What is read -/

theorem readNumber_congr (h : env.get key = env'.get key) : readNumber env key = readNumber env' key := by
  unfold readNumber
  rw [h]

theorem readMode_congr (h : env.get "KERNEL_MODE" = env'.get "KERNEL_MODE") : readMode env = readMode env' := by
  unfold readMode
  rw [h]

theorem readNumbers_congr {vs : List (String × String)} (h : ∀ v ∈ vs, readNumber env v.1 = readNumber env' v.1) :
    readNumbers env vs = readNumbers env' vs := by
  induction vs with
  | nil => rfl
  | cons v vs ih =>
    obtain ⟨hv, hvs⟩ := List.forall_mem_cons.1 h
    rw [readNumbers, readNumbers, hv, ih hvs]

/-- **Settings depend on what the variables are read as**, and on nothing else in the environment. -/
theorem ofEnvironment_congr (hmode : readMode env = readMode env')
    (hnumbers : ∀ v ∈ numberVariables, readNumber env v.1 = readNumber env' v.1) :
    ofEnvironment env = ofEnvironment env' := by
  unfold ofEnvironment
  rw [hmode, readNumbers_congr hnumbers]

theorem readNumber_of_blank (h : env.get key = .str t) (ht : Text.allBlank t.plain = true) :
    readNumber env key = .ok none := by
  unfold readNumber
  rw [h]
  exact if_pos ht

theorem readNumber_of_absent (h : env.get key = .absent) : readNumber env key = .ok none := by
  unfold readNumber
  rw [h]

theorem exists_of_readNumbers_eq_error {vs : List (String × String)} {e : Failure} (h : readNumbers env vs = .error e) :
    ∃ v ∈ vs, readNumber env v.1 = .error e := by
  induction vs with
  | nil => cases h
  | cons v vs ih =>
    cases hv : readNumber env v.1 with
    | error e' =>
      rw [readNumbers, hv] at h
      cases h
      exact ⟨v, List.mem_cons_self, hv⟩
    | ok x =>
      cases hvs : readNumbers env vs with
      | error e' =>
        rw [readNumbers, hv, hvs] at h
        cases h
        obtain ⟨w, hw, hread⟩ := ih hvs
        exact ⟨w, List.mem_cons_of_mem _ hw, hread⟩
      | ok ms =>
        rw [readNumbers, hv, hvs] at h
        cases h

theorem readNumber_ne_unknownMode (env : Environment) (key : String) (raw : Text) :
    readNumber env key ≠ .error (.policy (.invalidConfig (.unknownMode raw))) := by
  unfold readNumber
  split
  · rintro ⟨⟩
  · split
    · rintro ⟨⟩
    · split
      · split <;> rintro ⟨⟩
      · rintro ⟨⟩
  · unfold Value.lacks
    split <;> rintro ⟨⟩

theorem ofName?_of_blank {s : String} (h : Text.allBlank s = true) : Mode.ofName? s = none := by
  have hnames : ∀ name ∈ Mode.names, Text.allBlank name = false := by decide
  refine List.lookup_eq_none_iff.2 fun m hm => bne_iff_ne.2 fun hs => ?_
  have hname := hnames m.1 (List.mem_map_of_mem hm)
  rw [← hs, h] at hname
  cases hname

theorem readMode_of_name {m : Mode} (h : env.get "KERNEL_MODE" = .str t) (hm : Mode.ofName? t.plain = some m) :
    readMode env = .ok [("mode", m.toValue)] := by
  unfold readMode
  rw [h]
  simp only [Value.asString?, Value.asText?, Option.map_some, Option.bind_some, hm]

theorem readMode_of_noName (h : env.get "KERNEL_MODE" = .str t) (hm : Mode.ofName? t.plain = none) :
    readMode env = .error (.policy (.invalidConfig (.unknownMode t))) := by
  unfold readMode
  rw [h]
  simp only [Value.asString?, Value.asText?, Option.map_some, Option.bind_some, hm]
  rfl

theorem ofEnvironment_ne_unknownMode (h : env.get "KERNEL_MODE" = .absent) (raw : Text) :
    ofEnvironment env ≠ .error (.policy (.invalidConfig (.unknownMode raw))) := by
  have hmode : readMode env = .ok [] := by
    unfold readMode
    rw [h]
  rw [ofEnvironment, hmode]
  show (readNumbers env numberVariables).bind _ ≠ _
  cases hnumbers : readNumbers env numberVariables with
  | error e =>
    obtain ⟨v, -, hv⟩ := exists_of_readNumbers_eq_error hnumbers
    rintro ⟨⟩
    exact readNumber_ne_unknownMode env v.1 raw hv
  | ok numbers =>
    show (ofChecked (merged (.obj ([] ++ numbers)))).mapError Failure.policy ≠ _
    unfold ofChecked
    cases issues (merged (.obj ([] ++ numbers))) <;> rintro ⟨⟩

/-! ## Blank variables -/

/-- **A blank variable counts as unset, unless it is the one for the mode.**  Blanks are not the name of a mode, and
are refused as such, whatever else the environment holds. -/
theorem blank_exact (env : Environment) (key : String) {t : Text} (ht : Text.allBlank t.plain = true) :
    (ofEnvironment (env.put key (.str t)) = ofEnvironment (env.unset key) ↔ key ≠ "KERNEL_MODE")
    ∧ (key = "KERNEL_MODE" →
      ofEnvironment (env.put key (.str t)) = .error (.policy (.invalidConfig (.unknownMode t)))) := by
  have hrefused : ofEnvironment (env.put "KERNEL_MODE" (.str t))
    = .error (.policy (.invalidConfig (.unknownMode t))) := by
    rw [ofEnvironment, readMode_of_noName (Members.get_put_self _ _ _) (ofName?_of_blank ht)]
    rfl
  refine ⟨⟨?_, fun hne => ?_⟩, ?_⟩
  · rintro heq rfl
    exact ofEnvironment_ne_unknownMode (env.get_unset_self _) t (heq.symm.trans hrefused)
  · have hother : ∀ {name : String}, name ≠ key → (env.put key (.str t)).get name = (env.unset key).get name :=
      fun hname => by
      have htext : Text.whole _ ≠ Text.whole key := fun hc => hname (Text.whole.inj hc)
      rw [Members.get_put_of_ne _ _ htext, Environment.get_unset_of_ne _ htext]
    refine ofEnvironment_congr (readMode_congr (hother hne.symm)) fun v _ => ?_
    by_cases hv : v.1 = key
    · rw [hv, readNumber_of_blank (Members.get_put_self _ _ _) ht, readNumber_of_absent (env.get_unset_self _)]
    · exact readNumber_congr (hother hv)
  · rintro rfl
    exact hrefused

/-- Blanks for the concurrency do not count, and a mode without a name is refused. -/
theorem blank_concurrency_and_mode :
    let env : Environment := [("KERNEL_MODE", .str "observe"), ("KERNEL_CONCURRENCY", .str "8")]
    ofEnvironment (env.put "KERNEL_CONCURRENCY" (.str " ")) = ofEnvironment (env.unset "KERNEL_CONCURRENCY")
    ∧ ofEnvironment (env.put "KERNEL_MODE" (.str "")) = .error (.policy (.invalidConfig (.unknownMode ""))) := by
  intro env
  exact ⟨(blank_exact env "KERNEL_CONCURRENCY" (by decide)).1.2 (by decide),
    (blank_exact env "KERNEL_MODE" (by decide)).2 rfl⟩

/-! ## Settings that were written -/

/-- The variable holds the number, written out with any blanks around it; without a number it is not set. -/
def Environment.Holds (env : Environment) (key : String) : Option Float → Prop
  | none => env.get key = .absent
  | some x => ∃ before after : String, Text.allBlank before = true ∧ Text.allBlank after = true
      ∧ env.get key = .str (.whole (before ++ Decimal.text x ++ after))

/-- The variables hold the mode and the numbers of the settings. -/
structure Environment.Tells (env : Environment) (s : Settings) : Prop where
  mode : env.get "KERNEL_MODE" = s.mode.toValue
  memoryLimitBytes : env.Holds "KERNEL_MEMORY_LIMIT_BYTES" (some s.memoryLimitBytes)
  evidenceScoreThreshold : env.Holds "KERNEL_EVIDENCE_THRESHOLD" (some s.evidenceScoreThreshold)
  rAbsoluteThreshold : env.Holds "KERNEL_R_ABSOLUTE_THRESHOLD" (some s.rAbsoluteThreshold)
  escalationThreshold : env.Holds "KERNEL_ESCALATION_THRESHOLD" (some s.escalationThreshold)
  concurrency : env.Holds "KERNEL_CONCURRENCY" (some s.concurrency)
  timeoutMs : env.Holds "KERNEL_TIMEOUT_MS" s.timeoutMs

/-- The number that settings say under a name. -/
def said (s : Settings) (name : String) : Option Float := (s.toValue.member name).asNumber?

/-- The variables that tell settings, with the same blanks around every number. -/
def written (s : Settings) (before after : String) : Environment :=
  ("KERNEL_MODE", s.mode.toValue) ::
    numberVariables.filterMap fun v => (s.said v.2).map fun x =>
      (Text.whole v.1, .str (.whole (before ++ Decimal.text x ++ after)))

theorem tells_written (s : Settings) {before after : String} (hbefore : Text.allBlank before = true)
    (hafter : Text.allBlank after = true) : (s.written before after).Tells s := by
  obtain ⟨mode, m, e, r, i, phase, costs, c, t⟩ := s
  constructor
  case mode => cases t <;> rfl
  case timeoutMs =>
    cases t with
    | none => rfl
    | some t => exact ⟨before, after, hbefore, hafter, rfl⟩
  all_goals cases t <;> exact ⟨before, after, hbefore, hafter, rfl⟩

/-- The settings with thresholds of zero that have no sign. -/
def unsigned (s : Settings) : Settings :=
  { s with
    evidenceScoreThreshold := Value.unsigned s.evidenceScoreThreshold
    rAbsoluteThreshold := Value.unsigned s.rAbsoluteThreshold
    escalationThreshold := Value.unsigned s.escalationThreshold }

variable {s : Settings} {x : Float}

theorem readNumber_of_holds {number : Option Float} (h : env.Holds key number)
    (hfinite : ∀ x, number = some x → x.isFinite = true) :
    readNumber env key = .ok (number.map Value.unsigned) := by
  cases number with
  | none => exact readNumber_of_absent h
  | some x =>
    obtain ⟨before, after, hbefore, hafter, hget⟩ := h
    have hx := hfinite x rfl
    unfold readNumber
    rw [hget]
    simp only [Text.plain, Decimal.allBlank_text x hx, Decimal.setting?_text hx hbefore hafter,
      Value.isFinite_unsigned hx]
    rfl

theorem unsigned_of_pos (hx : x.isNaN = false) (h : 0.0 < x) : Value.unsigned x = x := by
  refine if_neg fun hzero => ?_
  rw [Double.beq_iff hx (by decide)] at hzero
  rw [Double.lt_iff (by decide) hx, hzero] at h
  exact absurd h (by decide)

theorem isShare_unsigned (h : IsShare x) : IsShare (Value.unsigned x) := by
  unfold Value.unsigned
  split
  · exact isShare_iff.2 ⟨by decide, by decide⟩
  · exact h

theorem IsChecked.unsigned (h : s.IsChecked) : s.unsigned.IsChecked :=
  { h with
    evidenceScoreThreshold := isShare_unsigned h.evidenceScoreThreshold
    rAbsoluteThreshold := by
      have hfinite := Value.isFinite_unsigned (h.rAbsoluteThreshold.isFinite_of_finite List.mem_cons_self)
      exact ⟨Double.isNaN_of_isFinite hfinite, List.forall_mem_singleton.2 hfinite⟩
    escalationThreshold := isShare_unsigned h.escalationThreshold }

theorem readMode_of_isListed {m : Mode} (hm : m.IsListed) (h : env.get "KERNEL_MODE" = m.toValue) :
    readMode env = .ok [("mode", m.toValue)] := by
  obtain ⟨name, -, hvalue, hname⟩ := hm.exists_name
  exact readMode_of_name (h.trans hvalue) hname

theorem readNumbers_eq {vs : List (String × String)} {read : String → Option Float}
    (h : ∀ v ∈ vs, readNumber env v.1 = .ok (read v.2)) :
    readNumbers env vs = .ok (vs.filterMap fun v => (read v.2).map fun x => (Text.whole v.2, Value.num x)) := by
  induction vs with
  | nil => rfl
  | cons v vs ih =>
    obtain ⟨hv, hvs⟩ := List.forall_mem_cons.1 h
    rw [readNumbers, hv, ih hvs, List.filterMap_cons]
    cases read v.2 <;> rfl

/-- What the variables can say of settings. -/
def overrides (s : Settings) : Members :=
  ("mode", s.mode.toValue) :: numberVariables.filterMap fun v => (s.said v.2).map fun x => (Text.whole v.2, Value.num x)

/-- It says everything that is not standard, apart from a phase and costs. -/
theorem merged_overrides (hphase : s.phaseSource = standard.phaseSource) (hcosts : s.gateCosts = standard.gateCosts) :
    merged (.obj s.overrides) = s.toValue := by
  obtain ⟨mode, m, e, r, i, phase, costs, c, t⟩ := s
  cases hphase
  cases hcosts
  cases t <;> rfl

theorem Environment.Tells.holds (h : env.Tells s) : ∀ v ∈ numberVariables, env.Holds v.1 (s.said v.2) := by
  have htimeout : s.said "timeoutMs" = s.timeoutMs := asNumber?_ofOption s.timeoutMs
  simp only [numberVariables, List.forall_mem_cons, List.not_mem_nil, false_implies, implies_true, and_true, htimeout]
  exact ⟨h.memoryLimitBytes, h.evidenceScoreThreshold, h.rAbsoluteThreshold, h.escalationThreshold,
    h.concurrency, h.timeoutMs⟩

theorem IsChecked.said_unsigned (h : s.IsChecked) : ∀ v ∈ numberVariables,
    (∀ x, s.said v.2 = some x → x.isFinite = true) ∧ (s.said v.2).map Value.unsigned = s.unsigned.said v.2 := by
  have hpositive : ∀ {x : Float}, Schema.Keeps [.whole, .above 0.0] x →
      (∀ y, some x = some y → y.isFinite = true) ∧ some (Value.unsigned x) = some x := fun hx =>
    ⟨fun y hy => Option.some.inj hy ▸ Decimal.isFinite_of_isWhole (hx.2 _ List.mem_cons_self),
      congrArg some (unsigned_of_pos hx.1 (hx.above_lt (by simp) (by decide)))⟩
  have hfinite : ∀ {x : Float}, x.isFinite = true → ∀ y, some x = some y → y.isFinite = true := fun hx y hy =>
    Option.some.inj hy ▸ hx
  have htimeout : s.said "timeoutMs" = s.timeoutMs := asNumber?_ofOption s.timeoutMs
  have htimeout' : s.unsigned.said "timeoutMs" = s.timeoutMs := asNumber?_ofOption s.timeoutMs
  simp only [numberVariables, List.forall_mem_cons, List.not_mem_nil, false_implies, implies_true, and_true,
    htimeout, htimeout']
  have hevidence := hfinite h.evidenceScoreThreshold.isFinite
  have hviability := hfinite (h.rAbsoluteThreshold.isFinite_of_finite List.mem_cons_self)
  have hescalation := hfinite h.escalationThreshold.isFinite
  refine ⟨hpositive h.memoryLimitBytes, ⟨hevidence, rfl⟩, ⟨hviability, rfl⟩, ⟨hescalation, rfl⟩,
    hpositive h.concurrency, ?_⟩
  cases ht : s.timeoutMs with
  | none => exact ⟨nofun, rfl⟩
  | some t => exact hpositive (h.timeoutMs t ht)

/-- **Settings that the environment tells are read back.** -/
theorem ofEnvironment_of_tells (h : s.IsChecked) (hmode : s.mode.IsListed)
    (hphase : s.phaseSource = standard.phaseSource)
    (hcosts : s.gateCosts = standard.gateCosts) (htells : env.Tells s) : ofEnvironment env = .ok s.unsigned := by
  have hread : ∀ v ∈ numberVariables, readNumber env v.1 = .ok (s.unsigned.said v.2) := fun v hv => by
    obtain ⟨hfinite, hsaid⟩ := h.said_unsigned v hv
    rw [readNumber_of_holds (htells.holds v hv) hfinite, hsaid]
  have hoverrides : ofEnvironment env = create (.obj s.unsigned.overrides) := by
    rw [ofEnvironment, readMode_of_isListed hmode htells.mode, readNumbers_eq hread, create_obj]
    rfl
  rw [hoverrides, create_obj, merged_overrides (s := s.unsigned) hphase hcosts, ofChecked_toValue h.unsigned hmode]
  rfl

theorem exists_ofChecked_of_ofEnvironment (h : ofEnvironment env = .ok s) : ∃ v, ofChecked v = .ok s := by
  obtain ⟨mode, -, hnumbers⟩ := exists_of_bind_eq_ok h
  obtain ⟨numbers, -, hchecked⟩ := exists_of_bind_eq_ok hnumbers
  refine ⟨merged (.obj (mode ++ numbers)), ?_⟩
  cases hresult : ofChecked (merged (.obj (mode ++ numbers))) with
  | error e =>
    rw [hresult] at hchecked
    cases hchecked
  | ok s' =>
    rw [hresult] at hchecked
    cases hchecked
    rfl

/-- **What the environment can tell.**  Settings with a phase and costs that are standard, once they are written into
the variables with any blanks around the numbers, are read back as they are but for the sign of a threshold of zero.
And whatever settings are read from an environment are accepted as they are. -/
theorem read_exact (env : Environment) :
    (∀ overrides s, create overrides = .ok s → s.phaseSource = standard.phaseSource → s.gateCosts = standard.gateCosts →
      env.Tells s → ofEnvironment env = .ok s.unsigned)
    ∧ ∀ s, ofEnvironment env = .ok s → create s.toValue = .ok s := by
  refine ⟨fun overrides s hs hphase hcosts htells => ?_, fun s hs => ?_⟩
  · obtain ⟨v, hv⟩ := exists_ofChecked_of_create hs
    exact ofEnvironment_of_tells (isChecked_of_ofChecked hv) (isListed_of_ofChecked hv) hphase hcosts htells
  · obtain ⟨v, hv⟩ := exists_ofChecked_of_ofEnvironment hs
    exact create_toValue hv

/-- A threshold of zero with a sign is told, and comes back without it. -/
theorem negative_zero_read :
    let s : Settings := { standard with mode := .observe, evidenceScoreThreshold := -0.0, timeoutMs := some 250.0 }
    ofEnvironment (s.written " " "") = .ok s.unsigned ∧ create s.unsigned.toValue = .ok s.unsigned := by
  intro s
  have hissues : (issues s.toValue).isEmpty = true := by decide +kernel
  have hcreate : create s.toValue = .ok s :=
    create_toValue (ofChecked_eq_ok.2 ⟨List.isEmpty_iff.1 hissues, ofValue_toValue (.inl rfl)⟩)
  have hread := (read_exact (s.written " " "")).1 s.toValue s hcreate rfl rfl (tells_written s (by decide) (by decide))
  exact ⟨hread, (read_exact (s.written " " "")).2 _ hread⟩

end PolicyGates.Settings
