import PolicyGates.Proofs.Gate.Findings
import PolicyGates.Proofs.Run
/-!
# How runs end

A run of any document, on any budget and with any cancellation, makes one check after the other.  Before every check
the gates that were passed have said what they say on any budget that is open or closed like this one (`IsOnCourse`);
a check keeps that or ends the run (`IsOnCourse.check`).  So there are four ways in which a run ends (`Run.Ends`), and
what it shows tells them apart (`Run.of_ends_once`).
-/
namespace PolicyGates

/-! ## The course of a run -/

section Course

variable (c : Circumstances) (document : Value) (closed : Bool)

/-- This gate ends the run: an enforced one, in which it has found too little memory. -/
structure Gate.Stops (g : Gate) : Prop where
  mode : c.mode = .enforce
  gate : g = .hardwareViability
  attempt : ∃ x, g.attempt c document closed = .ok x ∧ x.outcome = .fail

/-- The gates that were passed have said what they say, and none has ended the run. -/
structure Progress.IsOnCourse (passed : List Gate) (q : Progress) : Prop where
  order : passed ++ q.ahead = Gate.all
  results : q.results = passed.map (Gate.told c document closed)
  budget : q.budget.closed = closed
  survived : ∀ g ∈ passed, ¬g.Stops c document closed

/-- A run that has ended in one of four ways. -/
inductive Run.Ends (r : Run) : Prop
  /-- Every gate has said what it says. -/
  | completed (hending : r.ending = .completed) (hresults : r.results = Gate.all.map (Gate.told c document closed))
    (hsurvived : ∀ g ∈ Gate.all, ¬g.Stops c document closed)
  /-- Nothing was asked of a gate any more. -/
  | cancelled (passed : List Gate) (g : Gate) (reason : Text) (hending : r.ending = .cancelled g reason)
    (horder : passed ++ [g] <+: Gate.all) (hresults : r.results = passed.map (Gate.told c document closed))
    (hsurvived : ∀ g ∈ passed, ¬g.Stops c document closed)
  /-- The budget could not pay a gate. -/
  | exhausted (passed : List Gate) (g : Gate) (requested remaining : Float) (hending : r.ending = .exhausted)
    (horder : passed ++ [g] <+: Gate.all)
    (hresults : r.results = passed.map (Gate.told c document closed)
      ++ [Progress.refusal g (.policy (.budgetExceeded requested remaining))])
    (hsurvived : ∀ g ∈ passed, ¬g.Stops c document closed) (hopen : closed = false)
  /-- An enforced run met with too little memory. -/
  | fatal (passed : List Gate) (hending : r.ending = .fatal) (horder : passed ++ [Gate.hardwareViability] <+: Gate.all)
    (hstops : Gate.hardwareViability.Stops c document closed)
    (hresults : r.results = (passed ++ [Gate.hardwareViability]).map (Gate.told c document closed))

variable {c document closed}

theorem Mode.enforces_iff {mode : Mode} : mode.enforces = true ↔ mode = .enforce := by
  cases mode <;> simp [enforces]

theorem Gate.Stops.outcome {g : Gate} (h : g.Stops c document closed) : (g.told c document closed).outcome = .fail := by
  obtain ⟨x, hx, hfail⟩ := h.attempt
  rw [Gate.told_of_ok hx]
  exact hfail

namespace Progress

/-- A check of the next gate: the budget cannot pay it, or the gate says what it says, and may end the run with that. -/
theorem check_cases (q : Progress) (c : Circumstances) (document : Value) {g : Gate} {rest : List Gate}
    (hahead : q.ahead = g :: rest) :
    (q.budget.closed = false ∧ ∃ requested remaining, q.check c document none
        = .ended ⟨q.results ++ [refusal g (.policy (.budgetExceeded requested remaining))], .exhausted⟩ q.budget)
    ∨ ∃ b, b.closed = q.budget.closed ∧
      ((g.Stops c document q.budget.closed
        ∧ q.check c document none = .ended ⟨q.results ++ [g.told c document q.budget.closed], .fatal⟩ b)
        ∨ (¬g.Stops c document q.budget.closed
          ∧ q.check c document none = Step.next b (q.results ++ [g.told c document q.budget.closed]) rest)) := by
  simp only [check, hahead]
  rcases g.evaluate_cases c document q.budget with ⟨hopen, requested, remaining, heval⟩ | ⟨b, hclosed, heval⟩
  · rw [heval]
    exact .inl ⟨hopen, requested, remaining, rfl⟩
  · refine .inr ⟨b, hclosed, ?_⟩
    cases hattempt : g.attempt c document q.budget.closed with
    | error f =>
      rw [heval, hattempt, Gate.told_of_error hattempt]
      -- the gate is told of, whatever went wrong, and the next one has its turn
      simp only [(g.attempt_yields c document q.budget.closed).error f hattempt]
      refine .inr ⟨fun hstops => ?_, rfl⟩
      obtain ⟨x, hx, -⟩ := hstops.attempt
      rw [hattempt] at hx
      cases hx
    | ok x =>
      rw [heval, hattempt, Gate.told_of_ok hattempt]
      by_cases hfatal : x.outcome = .fail ∧ c.mode.enforces = true ∧ g.isFatal = true
      · simp only [if_pos hfatal]
        exact .inl ⟨⟨Mode.enforces_iff.1 hfatal.2.1, Gate.eq_of_isFatal hfatal.2.2, x, hattempt, hfatal.1⟩, trivial⟩
      · simp only [if_neg hfatal]
        refine .inr ⟨fun hstops => hfatal ?_, trivial⟩
        obtain ⟨y, hy, hfail⟩ := hstops.attempt
        rw [hattempt] at hy
        cases hy
        exact ⟨hfail, Mode.enforces_iff.2 hstops.mode, by rw [hstops.gate]; rfl⟩

namespace IsOnCourse

variable {passed rest : List Gate} {q : Progress} {g : Gate}

theorem fresh (b : Budget) : IsOnCourse c document b.closed [] (.fresh b) := ⟨rfl, rfl, rfl, by simp⟩

theorem ends_completed (h : IsOnCourse c document closed passed q) (hahead : q.ahead = []) :
    Run.Ends c document closed ⟨q.results, .completed⟩ := by
  have horder := h.order
  rw [hahead, List.append_nil] at horder
  exact .completed rfl (horder ▸ h.results) (horder ▸ h.survived)

theorem next_prefix (h : IsOnCourse c document closed passed q) (hahead : q.ahead = g :: rest) :
    passed ++ [g] <+: Gate.all :=
  ⟨rest, by rw [← h.order, hahead, List.append_assoc]; rfl⟩

theorem results_concat (h : IsOnCourse c document closed passed q) (g : Gate) :
    q.results ++ [g.told c document closed] = (passed ++ [g]).map (Gate.told c document closed) := by
  rw [h.results, List.map_append]
  rfl

theorem passes (h : IsOnCourse c document closed passed q) (hahead : q.ahead = g :: rest) {b : Budget}
    (hb : b.closed = closed) (hg : ¬g.Stops c document closed) :
    IsOnCourse c document closed (passed ++ [g]) ⟨b, q.results ++ [g.told c document closed], rest⟩ where
  order := by
    rw [← h.order, hahead, List.append_assoc]
    rfl
  results := h.results_concat g
  budget := hb
  survived := by
    intro g' hg'
    rcases List.mem_append.1 hg' with hg' | hg'
    · exact h.survived g' hg'
    · exact List.mem_singleton.1 hg' ▸ hg

/-- **A check takes a run one gate further or ends it.** -/
theorem check (h : IsOnCourse c document closed passed q) (cancellation : Option Text) :
    (∃ g q', q.check c document cancellation = .running q' ∧ IsOnCourse c document closed (passed ++ [g]) q')
    ∨ ∃ r b, q.check c document cancellation = .ended r b ∧ b.closed = closed ∧ r.Ends c document closed := by
  cases hahead : q.ahead with
  | nil =>
    refine .inr ⟨_, q.budget, ?_, h.budget, h.ends_completed hahead⟩
    rw [Progress.check, hahead]
  | cons g rest =>
    cases cancellation with
    | some reason =>
      refine .inr ⟨⟨q.results, .cancelled g reason⟩, q.budget, ?_, h.budget, ?_⟩
      · rw [Progress.check, hahead]
      · exact .cancelled passed g reason rfl (h.next_prefix hahead) h.results h.survived
    | none =>
      have hcheck := q.check_cases c document hahead
      rw [h.budget] at hcheck
      rcases hcheck with ⟨hopen, requested, remaining, hc⟩ | ⟨b, hb, ⟨hstops, hc⟩ | ⟨hgoes, hc⟩⟩
      · exact .inr ⟨_, _, hc, h.budget,
          .exhausted passed g requested remaining rfl (h.next_prefix hahead) (by rw [h.results]) h.survived hopen⟩
      · obtain rfl := hstops.gate
        exact .inr ⟨_, _, hc, hb, .fatal passed rfl (h.next_prefix hahead) hstops (h.results_concat _)⟩
      · have hpassed := h.passes hahead hb hgoes
        cases rest with
        | nil => exact .inr ⟨_, _, hc, hb, hpassed.ends_completed rfl⟩
        | cons g' rest => exact .inl ⟨g, _, hc, hpassed⟩

/-- **A run ends**, in as many checks as there are gates ahead. -/
theorem finish (cancellation : Nat → Option Text) (checks n : Nat) (h : IsOnCourse c document closed passed q)
    (hahead : q.ahead.length = checks) :
    (Progress.finish c document cancellation checks n q).1.Ends c document closed := by
  -- each check that goes on lowers the number of gates ahead by one
  induction checks generalizing n passed q with
  | zero => exact h.ends_completed (List.length_eq_zero_iff.1 hahead)
  | succ checks ih =>
    rcases h.check (cancellation n) with ⟨g, q', hc, hq'⟩ | ⟨r, b, hc, -, hr⟩
    · rw [Progress.finish, hc]
      refine ih (n + 1) hq' ?_
      have hlength := congrArg List.length (hq'.order.trans h.order.symm)
      simp only [List.length_append, List.length_singleton] at hlength
      omega
    · rw [Progress.finish, hc]
      exact hr

end IsOnCourse

theorem Reaches.exists_isOnCourse {b : Budget} {q : Progress} (h : Reaches c document (.fresh b) q) :
    ∃ passed, IsOnCourse c document b.closed passed q := by
  induction h with
  | start => exact ⟨[], .fresh b⟩
  | check _ hc ih =>
    obtain ⟨passed, hcourse⟩ := ih
    rcases hcourse.check none with ⟨g, q', hq, hcourse'⟩ | ⟨r, b', hr, -⟩
    · rw [hc] at hq
      cases hq
      exact ⟨_, hcourse'⟩
    · rw [hc] at hr
      cases hr

/-- **A run that ends at some check ends in one of the four ways.** -/
theorem EndsIn.ends {b b' : Budget} {r : Run} (h : EndsIn c document (.fresh b) r b') : r.Ends c document b.closed := by
  obtain ⟨q, cancellation, hreach, hend⟩ := h
  obtain ⟨passed, hcourse⟩ := hreach.exists_isOnCourse
  rcases hcourse.check cancellation with ⟨g, q', hq, -⟩ | ⟨r', b', hr, -, hends⟩
  · rw [hend] at hq
    cases hq
  · rw [hend] at hr
    cases hr
    exact hends

end Progress

theorem Run.of_ends (c : Circumstances) (document : Value) (b : Budget) (cancellation : Nat → Option Text) :
    (Run.of c document b cancellation).1.Ends c document b.closed :=
  (Progress.IsOnCourse.fresh b).finish cancellation _ 0 rfl

end Course

/-! ## What a run shows of its end -/

theorem Gate.name_injective {g g' : Gate} (h : g.name = g'.name) : g = g' := by
  revert h
  cases g <;> cases g' <;> decide

namespace Run

/-- What the two flags of a run and the two members about its cancellation are. -/
structure Shows (r : Run) (fatal exhausted : Bool) (cancelledAt cancelReason : Value) : Prop where
  fatal : r.toValue.member "fatal" = .bool fatal
  exhausted : r.toValue.member "budgetExhausted" = .bool exhausted
  cancelledAt : r.toValue.member "cancelledAt" = cancelledAt
  cancelReason : r.toValue.member "cancelReason" = cancelReason

/-- The run ended in this way, judging from what it shows. -/
def EndsBy (mode : Mode) (r : Run) : Ending → Prop
  | .completed => r.results.length = 6 ∧ r.Shows false false .absent .absent
  | .cancelled g reason => r.results.length ≤ 5 ∧ g.number = r.results.length + 1
    ∧ r.Shows false false (.str g.name) (.str reason)
  | .exhausted => r.Shows false true .absent .absent ∧
    ∃ paid x, r.results = paid ++ [x] ∧ x.outcome = .fail ∧ x.energySpent = 0.0 ∧ x.IsUnpaid ∧ ∀ y ∈ paid, ¬y.IsUnpaid
  | .fatal => r.results.length = 3 ∧ mode = .enforce ∧ r.Shows true false .absent .absent ∧
    ∃ x, r.results.getLast? = some x ∧ x.gate = .hardwareViability ∧ x.outcome = .fail

theorem Shows.eq {r : Run} {fatal exhausted fatal' exhausted' : Bool}
    {cancelledAt cancelReason cancelledAt' cancelReason' : Value}
    (h : r.Shows fatal exhausted cancelledAt cancelReason) (h' : r.Shows fatal' exhausted' cancelledAt' cancelReason') :
    fatal = fatal' ∧ exhausted = exhausted' ∧ cancelledAt = cancelledAt' ∧ cancelReason = cancelReason' :=
  ⟨Value.bool.inj (h.fatal.symm.trans h'.fatal), Value.bool.inj (h.exhausted.symm.trans h'.exhausted),
    h.cancelledAt.symm.trans h'.cancelledAt, h.cancelReason.symm.trans h'.cancelReason⟩

/-- What a run shows that ended in this way. -/
def ShowsAs (r : Run) : Ending → Prop
  | .completed => r.Shows false false .absent .absent
  | .cancelled g reason => r.Shows false false (.str g.name) (.str reason)
  | .exhausted => r.Shows false true .absent .absent
  | .fatal => r.Shows true false .absent .absent

theorem showsAs_ending (r : Run) : r.ShowsAs r.ending := by
  obtain ⟨results, ending⟩ := r
  cases ending <;> exact ⟨rfl, rfl, rfl, rfl⟩

/-- What a run shows tells the ways to end apart. -/
theorem ShowsAs.eq {r : Run} {e e' : Ending} (h : r.ShowsAs e) (h' : r.ShowsAs e') : e = e' := by
  cases e with
  | completed =>
    cases e' with
    | completed => rfl
    | fatal => cases (Shows.eq h h').1
    | exhausted => cases (Shows.eq h h').2.1
    | cancelled g' reason' => cases (Shows.eq h h').2.2.1
  | fatal =>
    cases e' with
    | fatal => rfl
    | _ => cases (Shows.eq h h').1
  | exhausted =>
    cases e' with
    | exhausted => rfl
    | _ => cases (Shows.eq h h').2.1
  | cancelled g reason =>
    cases e' with
    | completed => cases (Shows.eq h h').2.2.1
    | fatal => cases (Shows.eq h h').1
    | exhausted => cases (Shows.eq h h').2.1
    | cancelled g' reason' =>
      obtain ⟨-, -, hgate, hreason⟩ := Shows.eq h h'
      rw [Gate.name_injective (Text.whole.inj (Value.str.inj hgate)), Value.str.inj hreason]

theorem EndsBy.showsAs {mode : Mode} {r : Run} {e : Ending} (h : r.EndsBy mode e) : r.ShowsAs e := by
  cases e with
  | completed =>
    obtain ⟨-, hshows⟩ := h
    exact hshows
  | cancelled g reason =>
    obtain ⟨-, -, hshows⟩ := h
    exact hshows
  | exhausted =>
    obtain ⟨hshows, -⟩ := h
    exact hshows
  | fatal =>
    obtain ⟨-, -, hshows, -⟩ := h
    exact hshows

end Run

theorem Gate.number_eq_of_prefix {passed : List Gate} {g : Gate} (h : passed ++ [g] <+: Gate.all) :
    g.number = passed.length + 1 ∧ passed.length ≤ 5 := by
  have hlength : passed.length < 6 := by
    have := h.length_le
    rw [List.length_append] at this
    exact this
  have hlookup : Gate.all[passed.length]? = some g := by
    obtain ⟨rest, hrest⟩ := h
    rw [← hrest]
    simp
  have hnumber : ∀ k < 6, ∀ g ∈ Gate.all[k]?, g.number = k + 1 := by decide
  exact ⟨hnumber _ hlength g hlookup, by omega⟩

section Course

variable {c : Circumstances} {document : Value} {closed : Bool} {r : Run}

theorem not_isUnpaid_of_mem_told {gates : List Gate} : ∀ x ∈ gates.map (Gate.told c document closed), ¬x.IsUnpaid := by
  intro x hx
  obtain ⟨g, -, rfl⟩ := List.mem_map.1 hx
  exact (g.told_isPaid c document closed).not_isUnpaid

theorem Run.Ends.endsBy (h : r.Ends c document closed) : r.EndsBy c.mode r.ending := by
  have hshows := r.showsAs_ending
  cases h with
  | completed hending hresults =>
    have hlength : r.results.length = 6 := by
      rw [hresults, List.length_map]
      rfl
    rw [hending] at hshows ⊢
    exact ⟨hlength, hshows⟩
  | cancelled passed g reason hending horder hresults =>
    obtain ⟨hnumber, hlength⟩ := Gate.number_eq_of_prefix horder
    have hcount : r.results.length = passed.length := by rw [hresults, List.length_map]
    rw [← hcount] at hnumber hlength
    rw [hending] at hshows ⊢
    exact ⟨hlength, hnumber, hshows⟩
  | exhausted passed g requested remaining hending horder hresults =>
    have hunpaid := GateResult.isUnpaid_refusal g requested remaining
    rw [hending] at hshows ⊢
    refine ⟨hshows, _, _, hresults, ?_⟩
    exact ⟨hunpaid.outcome, hunpaid.energySpent, hunpaid, not_isUnpaid_of_mem_told⟩
  | fatal passed hending horder hstops hresults =>
    obtain ⟨hnumber, -⟩ := Gate.number_eq_of_prefix horder
    have hlength : r.results.length = 3 := by
      rw [hresults, List.length_map, List.length_append, List.length_singleton, ← hnumber]
      rfl
    have hlast : r.results.getLast? = some (Gate.hardwareViability.told c document closed) := by
      rw [hresults, List.map_append, List.map_singleton, List.getLast?_concat]
    have hgate := (Gate.told_isPaid .hardwareViability c document closed).gate
    rw [hending] at hshows ⊢
    exact ⟨hlength, hstops.mode, hshows, _, hlast, hgate, hstops.outcome⟩

theorem gates_told (gates : List Gate) : (gates.map (Gate.told c document closed)).map GateResult.gate = gates := by
  rw [List.map_map]
  exact List.map_id'' (fun g => (g.told_isPaid c document closed).gate) gates

theorem Run.Ends.gates_prefix (h : r.Ends c document closed) : r.results.map GateResult.gate <+: Gate.all := by
  cases h with
  | completed hending hresults =>
    have hgates : r.results.map GateResult.gate = Gate.all := by rw [hresults, gates_told]
    exact hgates ▸ List.prefix_rfl
  | cancelled passed g reason hending horder hresults =>
    rw [hresults, gates_told]
    exact (List.prefix_append _ _).trans horder
  | exhausted passed g requested remaining hending horder hresults =>
    rw [hresults, List.map_append, gates_told]
    exact horder
  | fatal passed hending horder hstops hresults =>
    rw [hresults, gates_told]
    exact horder

theorem numbers_of_prefix {gates : List Gate} (h : gates <+: Gate.all) :
    gates.map Gate.number = List.range' 1 gates.length := by
  have hall : ∀ k ≤ Gate.all.length, (Gate.all.take k).map Gate.number = List.range' 1 k := by decide
  have hgates := hall gates.length h.length_le
  rwa [← List.prefix_iff_eq_take.1 h] at hgates

theorem Run.Ends.paid_or_unpaid (h : r.Ends c document closed) : ∀ x ∈ r.results, x.IsPaid x.gate ∨ x.IsUnpaid := by
  have htold : ∀ gates : List Gate, ∀ x ∈ gates.map (Gate.told c document closed), x.IsPaid x.gate := by
    intro gates x hx
    obtain ⟨g, -, rfl⟩ := List.mem_map.1 hx
    have hpaid := g.told_isPaid c document closed
    rwa [hpaid.gate]
  cases h with
  | completed hending hresults => exact fun x hx => .inl (htold _ x (hresults ▸ hx))
  | cancelled passed g reason hending horder hresults => exact fun x hx => .inl (htold _ x (hresults ▸ hx))
  | exhausted passed g requested remaining hending horder hresults =>
    intro x hx
    rw [hresults] at hx
    rcases List.mem_append.1 hx with hx | hx
    · exact .inl (htold _ x hx)
    · rw [List.mem_singleton.1 hx]
      exact .inr (GateResult.isUnpaid_refusal _ _ _)
  | fatal passed hending horder hstops hresults => exact fun x hx => .inl (htold _ x (hresults ▸ hx))

/-- Only the last gate leaves a proposal to people, and only the one for viability power speaks of that. -/
theorem Run.Ends.voices (h : r.Ends c document closed) {x : GateResult} (hx : x ∈ r.results) :
    (x.outcome = .escalate → x.gate = .humanEscalation)
      ∧ (x.viabilityPowerDelta ≠ .absent → x.gate = .viabilityPower) := by
  rcases h.paid_or_unpaid x hx with hpaid | hunpaid
  · exact ⟨hpaid.escalate, hpaid.viabilityPowerDelta⟩
  · obtain ⟨requested, remaining, hrefusal⟩ := id hunpaid
    refine ⟨fun hescalate => ?_, fun hdelta => absurd (by rw [hrefusal]; rfl) hdelta⟩
    rw [hunpaid.outcome] at hescalate
    cases hescalate

/-- What was paid for is a part of what all gates say, from the first one on; an exhausted run tells one thing more. -/
theorem Run.Ends.exists_paid (h : r.Ends c document closed) :
    ∃ paid, paid <+: Gate.all.map (Gate.told c document closed)
      ∧ (r.ending ≠ .exhausted → r.results = paid)
      ∧ (r.ending = .exhausted → ∃ x, r.results = paid ++ [x] ∧ x.IsUnpaid) := by
  cases h with
  | completed hending hresults =>
    refine ⟨r.results, hresults ▸ List.prefix_rfl, fun _ => rfl, fun he => ?_⟩
    rw [hending] at he
    cases he
  | cancelled passed g reason hending horder hresults =>
    refine ⟨r.results, ?_, fun _ => rfl, fun he => ?_⟩
    · rw [hresults]
      exact ((List.prefix_append _ _).trans horder).map _
    · rw [hending] at he
      cases he
  | exhausted passed g requested remaining hending horder hresults =>
    have hpaid : passed.map (Gate.told c document closed) <+: Gate.all.map (Gate.told c document closed) :=
      ((List.prefix_append _ _).trans horder).map _
    have hlast := GateResult.isUnpaid_refusal g requested remaining
    exact ⟨_, hpaid, fun hne => absurd hending hne, fun _ => ⟨_, hresults, hlast⟩⟩
  | fatal passed hending horder hstops hresults =>
    refine ⟨r.results, by rw [hresults]; exact horder.map _, fun _ => rfl, fun he => ?_⟩
    rw [hending] at he
    cases he

theorem Run.Ends.told_of_getElem? (h : r.Ends c document closed) {i : Nat} {x : GateResult}
    (hx : r.results[i]? = some x) :
    x.IsUnpaid ∨ (Gate.all.map (Gate.told c document closed))[i]? = some x := by
  obtain ⟨paid, ⟨rest, hpaid⟩, hother, hexhausted⟩ := h.exists_paid
  have hpart : ∀ y, paid[i]? = some y → (Gate.all.map (Gate.told c document closed))[i]? = some y := by
    intro y hy
    rw [← hpaid, List.getElem?_append_left (List.getElem?_eq_some_iff.1 hy).1, hy]
  by_cases he : r.ending = .exhausted
  · obtain ⟨y, hresults, hy⟩ := hexhausted he
    rw [hresults] at hx
    by_cases hi : i < paid.length
    · rw [List.getElem?_append_left hi] at hx
      exact .inr (hpart x hx)
    · rw [List.getElem?_append_right (Nat.not_lt.1 hi)] at hx
      rw [← List.mem_singleton.1 (List.mem_of_getElem? hx)] at hy
      exact .inl hy
  · rw [hother he] at hx
    exact .inr (hpart x hx)

theorem Run.Ends.results_of_completed (h : r.Ends c document closed) (he : r.ending = .completed) :
    r.results = Gate.all.map (Gate.told c document closed) := by
  cases h with
  | completed hending hresults => exact hresults
  | cancelled passed g reason hending =>
    rw [he] at hending
    cases hending
  | exhausted passed g requested remaining hending =>
    rw [he] at hending
    cases hending
  | fatal passed hending =>
    rw [he] at hending
    cases hending

end Course

/-- **A run of any document in any circumstances ends, on any budget and with any cancellation.**  It tells of the
first gates in their order, and what it shows fits one of the four ways to end and no other; only the last gate leaves
a proposal to people, and only the one for viability power speaks of that. -/
theorem Run.of_ends_once (c : Circumstances) (document : Value) (b : Budget) (cancellation : Nat → Option Text) :
    let r := (Run.of c document b cancellation).1
    r.results.map (·.gate.number) = List.range' 1 r.results.length
    ∧ (∃! e, r.EndsBy c.mode e)
    ∧ ∀ x ∈ r.results, (x.outcome = .escalate → x.gate = .humanEscalation)
      ∧ (x.viabilityPowerDelta ≠ .absent → x.gate = .viabilityPower) := by
  intro r
  have hends : r.Ends c document b.closed := Run.of_ends c document b cancellation
  refine ⟨?_, ⟨r.ending, hends.endsBy, fun e he => he.showsAs.eq hends.endsBy.showsAs⟩, fun x hx => hends.voices hx⟩
  have hnumbers := numbers_of_prefix hends.gates_prefix
  rwa [List.map_map, List.length_map] at hnumbers

/-! ## Two runs -/

/-- **Two runs of one document agree**, whatever their modes and caps and whenever they are aborted.  Where both tell
something, they tell the same, unless one of them could not pay.  A run that could always pay tells a part of what a
run that went through every gate tells, from the first gate on; of one that could not, this holds of all but the last
result, which says so.  Two runs that went through every gate tell the same. -/
theorem Run.of_agree (settings phase document : Value) (cap cap' : Float) (mode mode' : Mode)
    (cancellation cancellation' : Nat → Option Text) :
    let r := (Run.of ⟨settings, phase, mode⟩ document (.fresh cap) cancellation).1
    let r' := (Run.of ⟨settings, phase, mode'⟩ document (.fresh cap') cancellation').1
    (∀ (i : Nat) x x', r.results[i]? = some x → r'.results[i]? = some x' → x.IsUnpaid ∨ x'.IsUnpaid ∨ x = x')
    ∧ (r'.ending = .completed →
      (r.ending ≠ .exhausted → r.results <+: r'.results)
      ∧ (r.ending = .exhausted → ∃ paid x, r.results = paid ++ [x] ∧ paid <+: r'.results ∧ x.outcome = .fail
        ∧ x.IsUnpaid))
    ∧ (r.ending = .completed → r'.ending = .completed → r.results = r'.results ∧ r.results.length = 6) := by
  intro r r'
  have h : r.Ends ⟨settings, phase, mode⟩ document false := Run.of_ends _ document (.fresh cap) cancellation
  -- the mode has no part in what a gate says
  have htold : Gate.told ⟨settings, phase, mode'⟩ document false = Gate.told ⟨settings, phase, mode⟩ document false :=
    rfl
  have h' : r'.Ends ⟨settings, phase, mode'⟩ document false := Run.of_ends _ document (.fresh cap') cancellation'
  refine ⟨fun i x x' hx hx' => ?_, fun hcompleted' => ?_, fun hcompleted hcompleted' => ?_⟩
  · rcases h.told_of_getElem? hx with hu | hx
    · exact .inl hu
    rcases h'.told_of_getElem? hx' with hu | hx'
    · exact .inr (.inl hu)
    rw [htold] at hx'
    exact .inr (.inr (Option.some.inj (hx.symm.trans hx')))
  · have hresults' := h'.results_of_completed hcompleted'
    rw [htold] at hresults'
    obtain ⟨paid, hpaid, hother, hexhausted⟩ := h.exists_paid
    rw [← hresults'] at hpaid
    refine ⟨fun hne => hother hne ▸ hpaid, fun he => ?_⟩
    obtain ⟨x, hresults, hx⟩ := hexhausted he
    exact ⟨paid, x, hresults, hpaid, hx.outcome, hx⟩
  · have hresults := h.results_of_completed hcompleted
    have hresults' := h'.results_of_completed hcompleted'
    rw [htold] at hresults'
    exact ⟨hresults.trans hresults'.symm, by rw [hresults, List.length_map]; rfl⟩

/-- A run that could pay two gates only tells what one on a larger budget begins with. -/
theorem Run.short_of_full :
    let document := (Proposal.ofValue (.obj Proposal.bareMembers)).toValue
    let r := (Run.of ⟨Settings.standard.toValue, .str Phase.genesis.name, .observe⟩ document (.fresh 2.0)
      fun _ => none).1
    let r' := (Run.of ⟨Settings.standard.toValue, .str Phase.genesis.name, .enforce⟩ document (.fresh 20.0)
      fun _ => none).1
    r.ending = .exhausted ∧ r'.ending = .completed
    ∧ ∃ paid x, r.results = paid ++ [x] ∧ paid <+: r'.results ∧ x.outcome = .fail ∧ x.IsUnpaid := by
  intro document r r'
  have hshort : r.ending = .exhausted := by decide +kernel
  have hfull : r'.ending = .completed := by decide +kernel
  exact ⟨hshort, hfull, ((Run.of_agree _ _ _ _ _ _ _ _ _).2.1 hfull).2 hshort⟩

end PolicyGates
