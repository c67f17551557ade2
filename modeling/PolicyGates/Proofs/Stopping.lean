import PolicyGates.Proofs.Endings
import PolicyGates.Proofs.Evaluation
/-!
# What stops an enforced run

An enforced run is meant to stop where the gate for memory fails.  It stops if the gate has judged, and if the budget
could not pay it; a gate that came to nothing counts as failed too, but the run goes on to the gates after it
(`Run.of_stops_iff`). For a checked proposal and checked settings that takes a budget that was closed.
-/
namespace PolicyGates

open Double

/-! ## What the gate comes to -/

theorem Budget.payable_of_open {x : Float} (hx : x.isFinite = true) (h0 : 0.0 ≤ x) :
    payable false (.num x) = .ok x := by
  have hamount : ¬((!x.isFinite) = true ∨ x < 0.0) := by
    rw [not_or, not_lt_iff (isNaN_of_isFinite hx) (by decide)]
    exact ⟨by simp [hx], h0⟩
  simp only [payable, if_neg hamount, Bool.false_eq_true, if_false]

theorem Double.isFinite_add_zero {x : Float} (hx : x.isFinite = true) : (x + 0.0).isFinite = true := by
  obtain ⟨hsum, hlevel⟩ := level_add hx (y := 0.0) (by decide)
  have hsame : rounded (level x + level 0.0) = level x := by
    rw [show level (0.0 : Float) = 0 by decide, Int.add_zero]
    exact rounded_steps (canonical x) hx
  rw [isFinite_iff hsum, hlevel, hsame]
  exact (isFinite_iff (isNaN_of_isFinite hx)).1 hx

namespace Gate

theorem isFinite_price_hardware {s : Settings} (hs : s.IsChecked) (p : Proposal) :
    (hardwareViability.price s p).isFinite = true :=
  isFinite_add_zero (Decimal.isFinite_of_isWhole ((hs.base _).2 _ List.mem_cons_self))

theorem exists_error_of_closed (g : Gate) (c : Circumstances) (document : Value) :
    ∃ f, g.attempt c document true = .error f := by
  unfold attempt
  cases g.cost c.settings document with
  | error f => exact ⟨f, rfl⟩
  | ok cost =>
    simp only [bind, Except.bind, Budget.payable_of_closed]
    exact ⟨_, rfl⟩

theorem exists_attempt_eq_ok {s : Settings} {p : Proposal} (hs : s.IsChecked) (hp : p.IsChecked) (c : Circumstances)
    (phase : Phase) (hsettings : c.settings = s.toValue) (hphase : c.phase = .str phase.name) {g : Gate}
    (hprice : (g.price s p).isFinite = true) :
    ∃ x, g.attempt c p.toValue false = .ok x := by
  obtain ⟨o, ho, -⟩ : g.Opines s phase p _ := judge_opines hs hp g
  unfold attempt finding
  simp only [hsettings, hphase, cost_toValue, bind, Except.bind,
    Budget.payable_of_open hprice (zero_le_price hs hprice), ho]
  exact ⟨_, rfl⟩

theorem number_injective {g g' : Gate} (h : g.number = g'.number) : g = g' := by
  revert h
  cases g <;> cases g' <;> decide

/-- Two gates come before the one for memory, and three after it. -/
theorem around_hardware {passed after : List Gate} (h : passed ++ hardwareViability :: after <+: all) :
    passed.length = 2 ∧ after.length ≤ 3 := by
  have hbefore : passed ++ [hardwareViability] <+: passed ++ hardwareViability :: after := by simp
  obtain ⟨hnumber, -⟩ := Gate.number_eq_of_prefix (hbefore.trans h)
  have hlength := h.length_le
  simp [number, all] at hnumber hlength
  omega

end Gate

/-! ## Where the run stops -/

section Course

variable {c : Circumstances} {document : Value} {closed : Bool} {r : Run} {before after : List GateResult}
  {x : GateResult}

theorem eq_told_of_mem {gates : List Gate} (h : x ∈ gates.map (Gate.told c document closed)) :
    x.gate ∈ gates ∧ x = Gate.told c document closed x.gate := by
  obtain ⟨g, hg, rfl⟩ := List.mem_map.1 h
  rw [(g.told_isPaid c document closed).gate]
  exact ⟨hg, rfl⟩

theorem isErratic_of_survived {g : Gate} (hmode : c.mode = .enforce) (hg : g = .hardwareViability)
    (hsurvived : ¬g.Stops c document closed) (hfail : (Gate.told c document closed g).outcome = .fail) :
    (Gate.told c document closed g).IsErratic := by
  rw [Gate.told_isErratic_iff]
  cases hattempt : g.attempt c document closed with
  | error f => exact ⟨f, rfl⟩
  | ok y =>
    rw [Gate.told_of_ok hattempt] at hfail
    exact absurd ⟨hmode, hg, y, hattempt, hfail⟩ hsurvived

theorem Gate.Stops.not_isErratic {g : Gate} (h : g.Stops c document closed) :
    ¬(g.told c document closed).IsErratic := by
  obtain ⟨y, hy, -⟩ := h.attempt
  rw [Gate.told_of_ok hy]
  exact ((g.attempt_yields c document closed).ok y hy).not_isErratic

theorem GateResult.IsUnpaid.not_isErratic (h : x.IsUnpaid) : ¬x.IsErratic := fun he => he.isPaid.not_isUnpaid h

/-- **After the memory gate has failed**, an enforced run has stopped, or the gate came to nothing and the run goes
on. -/
theorem Run.Ends.stopped_or_isErratic (h : r.Ends c document closed) (hmode : c.mode = .enforce)
    (hresults : r.results = before ++ x :: after) (hgate : x.gate = .hardwareViability) (hfail : x.outcome = .fail) :
    (¬x.IsErratic ∧ after = [] ∧ (r.ending = .fatal ∨ r.ending = .exhausted))
    ∨ (x.IsErratic ∧ r.ending ≠ .fatal
      ∧ (after = [] → ∃ reason, r.ending = .cancelled .evidenceSufficiency reason)) := by
  have hcount : before.length = 2 := by
    have hprefix := h.gates_prefix
    rw [hresults, List.map_append, List.map_cons, hgate] at hprefix
    simpa using (Gate.around_hardware hprefix).1
  have hlength : r.results.length = after.length + 3 := by
    rw [hresults, List.length_append, List.length_cons, hcount]
    omega
  have hmem : x ∈ r.results := by rw [hresults]; simp
  have herratic : ∀ gates : List Gate, (∀ g ∈ gates, ¬g.Stops c document closed) →
    x ∈ gates.map (Gate.told c document closed) →
      x.IsErratic := by
    intro gates hsurvived hx
    obtain ⟨hg, hx⟩ := eq_told_of_mem hx
    rw [hx] at hfail ⊢
    exact isErratic_of_survived hmode hgate (hsurvived _ hg) hfail
  cases h with
  | completed hending htold hsurvived =>
    refine .inr ⟨herratic _ hsurvived (htold ▸ hmem), by rw [hending]; decide, fun hafter => ?_⟩
    rw [htold, hafter] at hlength
    cases hlength
  | cancelled passed g reason hending horder htold hsurvived =>
    refine .inr ⟨herratic _ hsurvived (htold ▸ hmem), by rw [hending]; simp, fun hafter => ⟨reason, ?_⟩⟩
    have hpassed : passed.length = 3 := by
      rw [htold, hafter, List.length_map] at hlength
      exact hlength
    obtain ⟨hnumber, -⟩ := Gate.number_eq_of_prefix horder
    have hgate : g = .evidenceSufficiency := Gate.number_injective (by rw [hnumber, hpassed]; rfl)
    rw [hending, hgate]
  | exhausted passed g requested remaining hending horder htold hsurvived =>
    rcases List.eq_nil_or_concat after with rfl | ⟨after, y, rfl⟩
    · have hx : x = Progress.refusal g (.policy (.budgetExceeded requested remaining)) :=
        List.singleton_inj.1 (List.append_inj_right' (hresults.symm.trans htold) rfl)
      have hunpaid : x.IsUnpaid := hx ▸ GateResult.isUnpaid_refusal g requested remaining
      exact .inl ⟨hunpaid.not_isErratic, rfl, .inr hending⟩
    · have hconcat : (before ++ x :: after) ++ [y] = r.results := by rw [hresults]; simp
      have hpaid : before ++ x :: after = passed.map (Gate.told c document closed) :=
        List.append_inj_left' (hconcat.trans htold) rfl
      exact .inr ⟨herratic _ hsurvived (hpaid ▸ by simp), by rw [hending]; decide, by simp⟩
  | fatal passed hending horder hstops htold =>
    obtain ⟨hpassed, -⟩ := Gate.number_eq_of_prefix horder
    rw [htold, List.length_map, List.length_append, List.length_singleton, ← hpassed] at hlength
    have hx := (eq_told_of_mem (htold ▸ hmem)).2
    rw [hgate] at hx
    refine .inl ⟨hx ▸ hstops.not_isErratic, ?_, .inl hending⟩
    exact List.length_eq_zero_iff.1 (Nat.add_right_cancel (hlength.symm.trans (Nat.zero_add 3).symm))

/-- A failure of the memory gate is told as an error exactly if the gate came to nothing, and not for want of budget. -/
theorem Run.Ends.isErratic_iff (h : r.Ends c document closed) (hx : x ∈ r.results) :
    x.IsErratic ↔ ¬x.IsUnpaid ∧ ∃ f, x.gate.attempt c document closed = .error f := by
  obtain ⟨i, hi⟩ := List.mem_iff_getElem?.1 hx
  rcases h.told_of_getElem? hi with hunpaid | htold
  · exact ⟨fun he => absurd he hunpaid.not_isErratic, fun hnot => absurd hunpaid hnot.1⟩
  · have hx := (eq_told_of_mem (List.mem_of_getElem? htold)).2
    have hpaid := x.gate.told_isPaid c document closed
    rw [← hx] at hpaid
    rw [hx, Gate.told_isErratic_iff, ← hx, and_iff_right hpaid.not_isUnpaid]

theorem Run.Ends.ending_ne_exhausted (h : r.Ends c document true) : r.ending ≠ .exhausted := by
  cases h with
  | completed hending => simp [hending]
  | cancelled passed g reason hending => simp [hending]
  | exhausted passed g requested remaining hending horder hresults hsurvived hopen => cases hopen
  | fatal passed hending => simp [hending]

theorem Run.Ends.isErratic_of_closed (h : r.Ends c document true) (hx : x ∈ r.results) : x.IsErratic := by
  obtain ⟨paid, hpaid, hother, -⟩ := h.exists_paid
  rw [hother h.ending_ne_exhausted] at hx
  rw [(eq_told_of_mem (hpaid.subset hx)).2, Gate.told_isErratic_iff]
  exact x.gate.exists_error_of_closed c document

end Course

theorem Run.flags_toValue (r : Run) : r.toValue.member "fatal" = .bool (r.ending == .fatal)
    ∧ r.toValue.member "budgetExhausted" = .bool (r.ending == .exhausted) := by
  obtain ⟨results, ending⟩ := r
  cases ending <;> exact ⟨rfl, rfl⟩

/-- **Where the memory gate has failed, an enforced run stops, unless the gate came to nothing.**  If it judged, or
the budget could not pay it, its result is the last and the run shows that it was fatal or that the budget was
exhausted.  If it came to nothing, because its price or the document was of no use or the budget was closed, the run
does not show that it was fatal, and the next gate has its turn unless the run is cancelled before that.  On a closed
budget it always comes to nothing; on an open one it never does for checked settings and a checked proposal. -/
theorem Run.of_stops_iff (settings phase document : Value) (b : Budget) (cancellation : Nat → Option Text)
    {before after : List GateResult} {x : GateResult}
    (hresults : (Run.of ⟨settings, phase, .enforce⟩ document b cancellation).1.results = before ++ x :: after)
    (hgate : x.gate = .hardwareViability) (hfail : x.outcome = .fail) :
    let r := (Run.of ⟨settings, phase, .enforce⟩ document b cancellation).1
    (¬x.IsErratic ↔ after = []
      ∧ (r.toValue.member "fatal" = .bool true ∨ r.toValue.member "budgetExhausted" = .bool true))
    ∧ (x.IsErratic → r.toValue.member "fatal" = .bool false
      ∧ (after = [] → ∃ reason, r.ending = .cancelled .evidenceSufficiency reason))
    ∧ (x.IsErratic ↔ ¬x.IsUnpaid
      ∧ ∃ f, Gate.hardwareViability.attempt ⟨settings, phase, .enforce⟩ document b.closed = .error f)
    ∧ (b.closed = true → x.IsErratic)
    ∧ ∀ (s : Settings) (p : Proposal) (named : Phase), s.IsChecked → p.IsChecked → settings = s.toValue →
      phase = .str named.name →
      document = p.toValue → (x.IsErratic ↔ b.closed = true) := by
  intro r
  have h : r.Ends ⟨settings, phase, .enforce⟩ document b.closed := Run.of_ends _ document b cancellation
  have hx : x ∈ r.results := hresults ▸ by simp
  have hcases := h.stopped_or_isErratic rfl hresults hgate hfail
  have hiff := h.isErratic_iff hx
  rw [hgate] at hiff
  have hclosed : b.closed = true → x.IsErratic := fun hb => by
    rw [hb] at h
    exact h.isErratic_of_closed hx
  obtain ⟨hfatal, hexhausted⟩ := r.flags_toValue
  rw [hfatal, hexhausted]
  refine ⟨⟨fun hnot => ?_, fun ⟨hafter, hshown⟩ he => ?_⟩, fun he => ?_, hiff, hclosed, ?_⟩
  · obtain ⟨-, hafter, hending⟩ := hcases.resolve_right fun hc => hnot hc.1
    exact ⟨hafter, hending.imp (fun he => by rw [he]; rfl) fun he => by rw [he]; rfl⟩
  · obtain ⟨-, -, hcancelled⟩ := hcases.resolve_left fun hc => hc.1 he
    obtain ⟨reason, hending⟩ := hcancelled hafter
    rw [hending] at hshown
    rcases hshown with hshown | hshown <;> cases hshown
  · obtain ⟨-, hending, hcancelled⟩ := hcases.resolve_left fun hc => hc.1 he
    exact ⟨by rw [beq_false_of_ne hending], hcancelled⟩
  · rintro s p named hs hp rfl rfl rfl
    refine ⟨fun he => ?_, hclosed⟩
    obtain ⟨-, f, hf⟩ := hiff.1 he
    by_contra hopen
    rw [Bool.not_eq_true] at hopen
    obtain ⟨y, hy⟩ := Gate.exists_attempt_eq_ok hs hp ⟨s.toValue, .str named.name, .enforce⟩ named rfl rfl
      (Gate.isFinite_price_hardware hs p)
    rw [hopen, hy] at hf
    cases hf

/-- No gate comes to anything on a budget that was closed, and all six have their turn. -/
theorem Run.closed_goes_on :
    let r := (Run.of ⟨Settings.standard.toValue, .str Phase.genesis.name, .enforce⟩
      (.obj Proposal.bareMembers) { Budget.fresh 100.0 with closed := true }
      fun _ => none).1
    ∃ before x after, r.results = before ++ x :: after ∧ x.gate = .hardwareViability ∧ x.outcome = .fail ∧ x.IsErratic
      ∧ after.length = 3 ∧ r.toValue.member "fatal" = .bool false := by
  intro r
  have hlength : 2 < r.results.length := by decide +kernel
  have hresults : r.results = r.results.take 2 ++ r.results[2] :: r.results.drop 3 := by
    rw [← List.drop_eq_getElem_cons hlength, List.take_append_drop]
  have hgate : r.results[2]?.map GateResult.gate = some .hardwareViability := by decide +kernel
  have hfail : r.results[2]?.map GateResult.outcome = some .fail := by decide +kernel
  rw [List.getElem?_eq_getElem hlength, Option.map_some, Option.some_inj] at hgate hfail
  obtain ⟨-, hgoes, -, hclosed, -⟩ := Run.of_stops_iff _ _ _ _ _ hresults hgate hfail
  exact ⟨_, _, _, hresults, hgate, hfail, hclosed rfl, by decide +kernel, (hgoes (hclosed rfl)).1⟩

end PolicyGates
