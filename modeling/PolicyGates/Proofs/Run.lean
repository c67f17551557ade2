import PolicyGates.Decision
import PolicyGates.Proofs.Gate.Verdicts
/-!
# What a run comes to

A run of a checked proposal makes one check after the other until it ends.  Before every check the gates that were
passed have come to their results, every sum of their prices has fitted the budget, and none of them has ended the run
(`IsUnderWay`); a check keeps that or ends the run in one of four ways (`IsUnderWay.check`).  If the run was not
cancelled, the way it ended and what was decided follow from the conditions of the gates and from the budget alone
(`IsSettled`, `IsSettled.verdict_eq_approve_iff`, `IsSettled.verdict_eq_escalateHuman_iff`).
-/
namespace PolicyGates

open Schema Double

/-! ## Reaching a state -/

namespace Progress

/-- What an uncancelled run comes to, one check after the other. -/
inductive Reaches (c : Circumstances) (document : Value) (start : Progress) : Progress → Prop
  | start : Reaches c document start start
  | check {q q' : Progress} (h : Reaches c document start q) (hc : q.check c document none = .running q') :
    Reaches c document start q'

/-- The run ends at a check, which may be a cancelled one. -/
def EndsIn (c : Circumstances) (document : Value) (start : Progress) (r : Run) (b : Budget) : Prop :=
  ∃ q cancellation, Reaches c document start q ∧ q.check c document cancellation = .ended r b

theorem ahead_of_running {c : Circumstances} {document : Value} {q q' : Progress}
    (h : q.check c document none = .running q') : 0 < q'.ahead.length ∧ q.ahead.length = q'.ahead.length + 1 := by
  obtain ⟨budget, results, ahead⟩ := q
  cases ahead with
  | nil => cases h
  | cons g rest =>
    have hnext : ∀ {b results}, Step.next b results rest = .running q' → 0 < q'.ahead.length ∧ rest = q'.ahead := by
      intro b results hn
      unfold Step.next at hn
      split at hn
      · cases hn
      · next hne =>
        cases hn
        exact ⟨List.length_pos_iff.2 (by simpa using hne), rfl⟩
    have hgoal : 0 < q'.ahead.length ∧ rest = q'.ahead := by
      simp only [check] at h
      split at h
      · split at h
        · cases h
        · exact hnext h
      · split at h
        · cases h
        · exact hnext h
    exact ⟨hgoal.1, by rw [List.length_cons, hgoal.2]⟩

theorem check_some (c : Circumstances) (document : Value) (reason : Text) (q : Progress) :
    q.check c document (some reason) = q.check c document none
    ∨ ∃ g, q.check c document (some reason) = .ended ⟨q.results, .cancelled g reason⟩ q.budget := by
  obtain ⟨budget, results, ahead⟩ := q
  cases ahead with
  | nil => exact .inl rfl
  | cons g rest => exact .inr ⟨g, rfl⟩

theorem check_none_of_running {c : Circumstances} {document : Value} {cancellation : Option Text} {q q' : Progress}
    (h : q.check c document cancellation = .running q') : q.check c document none = .running q' := by
  cases cancellation with
  | none => exact h
  | some reason =>
    rcases check_some c document reason q with hc | ⟨g, hc⟩
    · rwa [hc] at h
    · rw [hc] at h
      cases h

/-- **Whatever cancels a run, it ends at a check.** -/
theorem endsIn_finish {c : Circumstances} {document : Value} {start q : Progress} {cancellation : Nat → Option Text}
    {checks n : Nat}
    (hreach : Reaches c document start q) (hpos : 0 < q.ahead.length) (hle : q.ahead.length ≤ checks) :
    EndsIn c document start (finish c document cancellation checks n q).1
      (finish c document cancellation checks n q).2 := by
  induction checks generalizing q n with
  | zero => omega
  | succ checks ih =>
    rw [finish]
    cases hcheck : q.check c document (cancellation n) with
    | ended r b => exact ⟨q, cancellation n, hreach, hcheck⟩
    | running q' =>
      have hgoes := check_none_of_running hcheck
      obtain ⟨hpos', hlength⟩ := ahead_of_running hgoes
      exact ih (hreach.check hgoes) hpos' (by omega)

theorem endsIn_of (c : Circumstances) (document : Value) (b : Budget) (cancellation : Nat → Option Text) :
    EndsIn c document (.fresh b) (Run.of c document b cancellation).1 (Run.of c document b cancellation).2 :=
  endsIn_finish .start (Nat.zero_lt_succ _) (Nat.le_refl _)

theorem check_none_of_ended {c : Circumstances} {document : Value} {cancellation : Option Text} {q : Progress} {r : Run}
    {b : Budget} (h : q.check c document cancellation = .ended r b) (hcancel : r.isCancelled = false) :
    q.check c document none = .ended r b := by
  cases cancellation with
  | none => exact h
  | some reason =>
    rcases check_some c document reason q with hc | ⟨g, hc⟩
    · rwa [hc] at h
    · rw [hc] at h
      cases h
      cases hcancel

end Progress

/-! ## Prices -/

section Prices

variable (s : Settings) (p : Proposal)

/-- What gates cost together, added in their order. -/
def pricesOf (gates : List Gate) : Float := gates.foldl (fun sum g => sum + g.price s p) 0.0

/-- The budget pays the given gates, one after the other. -/
def Pays (gates : List Gate) : Prop := ∀ first, first <+: gates → pricesOf s p first ≤ p.energyBudgetTokens

def HasFinitePrices : Prop := ∀ g : Gate, (g.price s p).isFinite = true

variable {s p}

theorem pricesOf_concat (gates : List Gate) (g : Gate) :
    pricesOf s p (gates ++ [g]) = pricesOf s p gates + g.price s p := by
  simp [pricesOf, List.foldl_append]

theorem Pays.of_prefix {gates first : List Gate} (h : Pays s p gates) (hf : first <+: gates) : Pays s p first :=
  fun _ hg => h _ (hg.trans hf)

theorem pays_concat_iff {gates : List Gate} {g : Gate} :
    Pays s p (gates ++ [g]) ↔ Pays s p gates ∧ pricesOf s p gates + g.price s p ≤ p.energyBudgetTokens := by
  rw [← pricesOf_concat]
  constructor
  · exact fun h => ⟨h.of_prefix (List.prefix_append _ _), h _ (List.prefix_rfl)⟩
  · rintro ⟨h, hg⟩ first hf
    rcases List.prefix_concat_iff.1 hf with rfl | hf
    · exact hg
    · exact h first hf

theorem Proposal.IsChecked.zero_le_energyBudgetTokens (hp : p.IsChecked) : 0.0 ≤ p.energyBudgetTokens := by
  have hpos := hp.energyBudgetTokens.above_lt (List.mem_cons_of_mem _ List.mem_cons_self) (by decide)
  rw [lt_iff (by decide) hp.energyBudgetTokens.1] at hpos
  exact (le_iff (by decide) hp.energyBudgetTokens.1).2 (Int.le_of_lt hpos)

theorem pays_nil (hp : p.IsChecked) : Pays s p [] := by
  intro first hf
  rw [List.prefix_nil] at hf
  subst hf
  exact hp.zero_le_energyBudgetTokens

end Prices

/-! ## Under way -/

section Checked

variable (s : Settings) (phase : Phase) (p : Proposal) (mode : Mode)

/-- The gates that were passed and what they have left behind. -/
structure Progress.IsUnderWay (passed : List Gate) (q : Progress) : Prop where
  order : passed ++ q.ahead = Gate.all
  gates : q.results.map GateResult.gate = passed
  results : ∀ r ∈ q.results, Gate.IsResult s phase p r
  budget : q.budget = { Budget.fresh p.energyBudgetTokens with spent := pricesOf s p passed }
  isOpen : q.budget.IsOpen
  pays : Pays s p passed
  survived : mode.enforces = true → ∀ g ∈ passed, g.isFatal = true → g.IsMet s phase p

/-- What an uncancelled run has come to. -/
inductive Run.IsSettled (r : Run) : Prop
  /-- Every gate came to its result and was paid for. -/
  | completed (hending : r.ending = .completed) (hgates : r.results.map GateResult.gate = Gate.all)
    (hresults : ∀ x ∈ r.results, Gate.IsResult s phase p x) (hpays : Pays s p Gate.all)
    (hsurvived : mode.enforces = true → Gate.hardwareViability.IsMet s phase p)
  /-- The budget could not pay a gate. -/
  | exhausted (hending : r.ending = .exhausted) (passed : List Gate) (g : Gate) (f : Failure)
    (hgates : passed ++ [g] <+: Gate.all) (hpays : ¬Pays s p (passed ++ [g])) (results : List GateResult)
    (hpassed : results.map GateResult.gate = passed) (hresults : ∀ x ∈ results, Gate.IsResult s phase p x)
    (hrefused : r.results = results ++ [Progress.refusal g f])
  /-- An enforced run met with too little memory. -/
  | fatal (hending : r.ending = .fatal) (henforced : mode.enforces = true)
    (hmemory : ¬Gate.hardwareViability.IsMet s phase p)
    (passed : List Gate) (hgates : r.results.map GateResult.gate = passed ++ [.hardwareViability])
    (hpassed : passed ++ [.hardwareViability] <+: Gate.all) (hresults : ∀ x ∈ r.results, Gate.IsResult s phase p x)

variable {s phase p mode}

theorem isUnderWay_fresh (hp : p.IsChecked) :
    Progress.IsUnderWay s phase p mode [] (.fresh (.fresh p.energyBudgetTokens)) where
  order := rfl
  gates := rfl
  results := by simp [Progress.fresh]
  budget := rfl
  isOpen := Budget.isOpen_fresh hp.energyBudgetTokens.1
  pays := pays_nil hp
  survived := by simp

theorem Gate.eq_of_isFatal {g : Gate} (h : g.isFatal = true) : g = .hardwareViability := eq_of_beq h

theorem Gate.IsResult.isMet_of_ne_fail {r : GateResult} (h : IsResult s phase p r) (hg : r.gate.isFatal = true)
    (hne : r.outcome ≠ .fail) : r.gate.IsMet s phase p := by
  cases ho : r.outcome with
  | pass => exact h.outcome.1.1 ho
  | fail => exact absurd ho hne
  | escalate =>
    have he := (h.outcome.2.1 ho).1
    rw [Gate.eq_of_isFatal hg] at he
    cases he

namespace Progress.IsUnderWay

variable {passed rest : List Gate} {q : Progress} {g : Gate} {x : GateResult}

theorem next (h : IsUnderWay s phase p mode passed q) (hahead : q.ahead = g :: rest) : passed ++ [g] <+: Gate.all := by
  refine ⟨rest, ?_⟩
  rw [← h.order, hahead, List.append_assoc]
  rfl

theorem gates_concat (h : IsUnderWay s phase p mode passed q) (x : GateResult) :
    (q.results ++ [x]).map GateResult.gate = passed ++ [x.gate] := by
  rw [List.map_append, h.gates]
  rfl

theorem results_concat (h : IsUnderWay s phase p mode passed q) (hx : Gate.IsResult s phase p x) :
    ∀ y ∈ q.results ++ [x], Gate.IsResult s phase p y := by
  intro y hy
  rcases List.mem_append.1 hy with hy | hy
  · exact h.results y hy
  · rw [List.mem_singleton.1 hy]
    exact hx

/-- **A gate that was paid for and did not end the run is one more that was passed.** -/
theorem passes (h : IsUnderWay s phase p mode passed q) (hahead : q.ahead = x.gate :: rest)
    (hx : Gate.IsResult s phase p x) (hprice : (x.gate.price s p).isFinite = true)
    (hfits : pricesOf s p passed + x.gate.price s p ≤ p.energyBudgetTokens)
    (hsurvived : mode.enforces = true → x.gate.isFatal = true → x.outcome ≠ .fail) :
    IsUnderWay s phase p mode (passed ++ [x.gate])
      ⟨{ q.budget with spent := q.budget.spent + x.gate.price s p }, q.results ++ [x], rest⟩ where
  order := by
    rw [← h.order, hahead, List.append_assoc]
    rfl
  gates := h.gates_concat x
  results := h.results_concat hx
  budget := by rw [h.budget, pricesOf_concat]
  isOpen := h.isOpen.spend hprice
  pays := pays_concat_iff.2 ⟨h.pays, hfits⟩
  survived := by
    intro he g hg hf
    rcases List.mem_append.1 hg with hg | hg
    · exact h.survived he g hg hf
    · obtain rfl := List.mem_singleton.1 hg
      exact hx.isMet_of_ne_fail hf (hsurvived he hf)

theorem isSettled_completed (h : IsUnderWay s phase p mode passed q) (hahead : q.ahead = []) :
    Run.IsSettled s phase p mode ⟨q.results, .completed⟩ := by
  have horder := h.order
  rw [hahead, List.append_nil] at horder
  subst horder
  exact .completed rfl h.gates h.results h.pays (fun he => h.survived he _ (by decide) rfl)

theorem isSettled_exhausted (h : IsUnderWay s phase p mode passed q) (hahead : q.ahead = g :: rest)
    (hprice : ¬pricesOf s p passed + g.price s p ≤ p.energyBudgetTokens) (f : Failure) :
    Run.IsSettled s phase p mode ⟨q.results ++ [refusal g f], .exhausted⟩ :=
  .exhausted rfl passed g f (h.next hahead) (fun hc => hprice (pays_concat_iff.1 hc).2) q.results h.gates h.results rfl

theorem isSettled_fatal (h : IsUnderWay s phase p mode passed q) (hahead : q.ahead = x.gate :: rest)
    (hx : Gate.IsResult s phase p x) (hfail : x.outcome = .fail) (henforced : mode.enforces = true)
    (hg : x.gate.isFatal = true) :
    Run.IsSettled s phase p mode ⟨q.results ++ [x], .fatal⟩ := by
  have hmemory : x.gate = .hardwareViability := Gate.eq_of_isFatal hg
  have hunmet : ¬x.gate.IsMet s phase p := by
    intro hm
    rw [hx.outcome.1.2 hm] at hfail
    cases hfail
  have hgates := h.gates_concat x
  have hnext := h.next hahead
  rw [hmemory] at hunmet hgates hnext
  exact .fatal rfl henforced hunmet passed hgates hnext (h.results_concat hx)

/-- **A check takes a run one gate further or settles it.** -/
theorem check (hs : s.IsChecked) (hp : p.IsChecked) (hprices : HasFinitePrices s p)
    (h : IsUnderWay s phase p mode passed q) :
    (∃ g q', q.check ⟨s.toValue, .str phase.name, mode⟩ p.toValue none = .running q'
      ∧ IsUnderWay s phase p mode (passed ++ [g]) q')
    ∨ ∃ r b, q.check ⟨s.toValue, .str phase.name, mode⟩ p.toValue none = .ended r b ∧ r.IsSettled s phase p mode := by
  obtain ⟨budget, results, ahead⟩ := q
  cases ahead with
  | nil => exact .inr ⟨_, _, rfl, h.isSettled_completed rfl⟩
  | cons g rest =>
    obtain ⟨hpaid, hunpaid⟩ := Gate.evaluate_toValue phase hs hp (hprices g) mode h.isOpen
    have hsum : budget.spent + g.price s p ≤ budget.maxTokens
      ↔ pricesOf s p passed + g.price s p ≤ p.energyBudgetTokens := by
      rw [show budget = _ from h.budget]
      exact Iff.rfl
    by_cases hfits : budget.spent + g.price s p ≤ budget.maxTokens
    · obtain ⟨x, rfl, hx, heval⟩ := hpaid hfits
      simp only [Progress.check, heval]
      by_cases hfatal : x.outcome = .fail ∧ mode.enforces = true ∧ x.gate.isFatal = true
      · rw [if_pos hfatal]
        exact .inr ⟨_, _, rfl, h.isSettled_fatal rfl hx hfatal.1 hfatal.2.1 hfatal.2.2⟩
      · rw [if_neg hfatal]
        have hpassed := h.passes rfl hx (hprices _) (hsum.1 hfits) (fun he hf hfail => hfatal ⟨hfail, he, hf⟩)
        cases rest with
        | nil => exact .inr ⟨_, _, rfl, hpassed.isSettled_completed rfl⟩
        | cons g' rest => exact .inl ⟨_, _, rfl, hpassed⟩
    · simp only [Progress.check, hunpaid hfits]
      exact .inr ⟨_, _, rfl, h.isSettled_exhausted rfl (fun hc => hfits (hsum.2 hc)) _⟩

end Progress.IsUnderWay

theorem Progress.Reaches.exists_isUnderWay (hs : s.IsChecked) (hp : p.IsChecked) (hprices : HasFinitePrices s p)
    {q : Progress}
    (h : Reaches ⟨s.toValue, .str phase.name, mode⟩ p.toValue (.fresh (.fresh p.energyBudgetTokens)) q) :
    ∃ passed, IsUnderWay s phase p mode passed q := by
  induction h with
  | start => exact ⟨[], isUnderWay_fresh hp⟩
  | check _ hc ih =>
    obtain ⟨passed, hway⟩ := ih
    rcases hway.check hs hp hprices with ⟨g, q', hq, hway'⟩ | ⟨r, b, hr, -⟩
    · rw [hc] at hq
      cases hq
      exact ⟨_, hway'⟩
    · rw [hc] at hr
      cases hr

/-- **A run that ends without being cancelled is settled.** -/
theorem Progress.EndsIn.isSettled (hs : s.IsChecked) (hp : p.IsChecked) (hprices : HasFinitePrices s p) {r : Run}
    {b : Budget} (h : EndsIn ⟨s.toValue, .str phase.name, mode⟩ p.toValue (.fresh (.fresh p.energyBudgetTokens)) r b)
    (hcancel : r.isCancelled = false) :
    r.IsSettled s phase p mode := by
  obtain ⟨q, cancellation, hreach, hend⟩ := h
  obtain ⟨passed, hway⟩ := hreach.exists_isUnderWay hs hp hprices
  have hnone := check_none_of_ended hend hcancel
  rcases hway.check hs hp hprices with ⟨g, q', hq, -⟩ | ⟨r', b', hr, hsettled⟩
  · rw [hnone] at hq
    cases hq
  · rw [hnone] at hr
    cases hr
    exact hsettled

/-! ## Verdicts -/

/-- The last gate is not among those before another one. -/
theorem humanEscalation_notMem {passed : List Gate} {g : Gate} (h : passed ++ [g] <+: Gate.all) :
    Gate.humanEscalation ∉ passed := by
  have hlen : passed.length < Gate.all.length := by
    have := h.length_le
    rw [List.length_append] at this
    exact this
  have htake : passed = Gate.all.take passed.length := List.prefix_iff_eq_take.1 ((List.prefix_append _ _).trans h)
  have hall : ∀ k < Gate.all.length, Gate.humanEscalation ∉ Gate.all.take k := by decide
  rw [htake]
  exact hall _ hlen

section Results

variable {results : List GateResult} (h : ∀ x ∈ results, Gate.IsResult s phase p x)

include h in
theorem any_escalate_iff : results.any (fun x => x.outcome == .escalate) = true
    ↔ Gate.humanEscalation ∈ results.map GateResult.gate ∧ ¬Gate.humanEscalation.IsMet s phase p := by
  rw [List.any_eq_true]
  constructor
  · rintro ⟨x, hx, he⟩
    obtain ⟨hg, hunmet⟩ := (h x hx).outcome.2.1 (eq_of_beq he)
    rw [hg] at hunmet
    exact ⟨List.mem_map.2 ⟨x, hx, hg⟩, hunmet⟩
  · rintro ⟨hmem, hunmet⟩
    obtain ⟨x, hx, hg⟩ := List.mem_map.1 hmem
    exact ⟨x, hx, beq_iff_eq.2 ((h x hx).outcome.2.2 ⟨hg, by rwa [hg]⟩)⟩

include h in
theorem outcome_eq_fail_iff {x : GateResult} (hx : x ∈ results) :
    x.outcome = .fail ↔ x.gate ≠ .humanEscalation ∧ ¬x.gate.IsMet s phase p := by
  obtain ⟨hpass, hesc⟩ := (h x hx).outcome
  cases ho : x.outcome with
  | pass => simp [hpass.1 ho]
  | fail =>
    have h1 : ¬x.gate.IsMet s phase p := fun hm => by simp [hpass.2 hm] at ho
    have h2 : x.gate ≠ .humanEscalation := fun hg => by simp [hesc.2 ⟨hg, h1⟩] at ho
    simp [h1, h2]
  | escalate => simp [(hesc.1 ho).1]

end Results

namespace Run

theorem failed_eq_nil_iff {r : Run} : r.failed = [] ↔ ∀ x ∈ r.results, x.outcome ≠ .fail := by
  simp [failed, List.filter_eq_nil_iff]

theorem verdict_eq_reject {r : Run} (hcancel : r.isCancelled = false)
    (hesc : r.results.any (fun x => x.outcome == .escalate) = false) {x : GateResult} (hx : x ∈ r.results)
    (hfail : x.outcome = .fail) :
    r.verdict = .reject := by
  have hne : r.failed ≠ [] := fun hc => failed_eq_nil_iff.1 hc x hx hfail
  rw [verdict, hcancel, hesc, if_neg (by simp), if_neg (by simpa using hne)]

variable {r : Run}

theorem IsSettled.isCancelled (h : r.IsSettled s phase p mode) : r.isCancelled = false := by
  cases h with
  | completed hending => rw [Run.isCancelled, hending]
  | exhausted hending => rw [Run.isCancelled, hending]
  | fatal hending => rw [Run.isCancelled, hending]

theorem verdict_of_completed (hcancel : r.isCancelled = false) (hgates : r.results.map GateResult.gate = Gate.all)
    (hresults : ∀ x ∈ r.results, Gate.IsResult s phase p x) :
    (r.verdict = .approve ↔ ∀ g : Gate, g.IsMet s phase p)
    ∧ (r.verdict = .escalateHuman ↔ ¬Gate.humanEscalation.IsMet s phase p) := by
  have hmem : ∀ g : Gate, g ∈ r.results.map GateResult.gate := by
    rw [hgates]
    intro g
    cases g <;> decide
  have hesc := any_escalate_iff hresults
  rw [verdict, hcancel, Bool.false_or]
  by_cases hmet : Gate.humanEscalation.IsMet s phase p
  · have hno : r.results.any (fun x => x.outcome == .escalate) = false := by
      rw [Bool.eq_false_iff]
      exact fun hc => (hesc.1 hc).2 hmet
    rw [hno, if_neg (by decide)]
    have hfailed : r.failed = [] ↔ ∀ g : Gate, g.IsMet s phase p := by
      rw [failed_eq_nil_iff]
      constructor
      · intro hall g
        obtain ⟨x, hx, rfl⟩ := List.mem_map.1 (hmem g)
        by_contra hc
        refine hall x hx ((outcome_eq_fail_iff hresults hx).2 ⟨fun hg => ?_, hc⟩)
        rw [hg] at hc
        exact hc hmet
      · exact fun hall x hx hf => ((outcome_eq_fail_iff hresults hx).1 hf).2 (hall x.gate)
    by_cases hnil : r.failed = []
    · rw [if_pos (by simp [hnil])]
      exact ⟨iff_of_true rfl (hfailed.1 hnil), iff_of_false (by decide) (fun hc => hc hmet)⟩
    · rw [if_neg (by simpa using hnil)]
      exact ⟨iff_of_false (by decide) (fun hc => hnil (hfailed.2 hc)), iff_of_false (by decide) (fun hc => hc hmet)⟩
  · rw [if_pos (hesc.2 ⟨hmem _, hmet⟩)]
    exact ⟨iff_of_false (by decide) (fun hc => hmet (hc _)), iff_of_true rfl hmet⟩

/-- **A run that ended early is a rejection**, and either the budget or the memory is to blame. -/
theorem IsSettled.cases (h : r.IsSettled s phase p mode) :
    (r.results.map GateResult.gate = Gate.all ∧ (∀ x ∈ r.results, Gate.IsResult s phase p x) ∧ Pays s p Gate.all
      ∧ (mode.enforces = true → Gate.hardwareViability.IsMet s phase p))
    ∨ (r.verdict = .reject ∧ (¬Pays s p Gate.all
      ∨ (mode.enforces = true ∧ ¬Gate.hardwareViability.IsMet s phase p))) := by
  have hcancel := h.isCancelled
  cases h with
  | completed hending hgates hresults hpays hsurvived => exact .inl ⟨hgates, hresults, hpays, hsurvived⟩
  | exhausted hending passed g f hgates hpays results hpassed hresults hrefused =>
    refine .inr ⟨?_, .inl fun hall => hpays (hall.of_prefix hgates)⟩
    have hno : results.any (fun x => x.outcome == .escalate) = false := by
      rw [Bool.eq_false_iff, ne_eq, any_escalate_iff hresults, hpassed]
      exact fun hc => humanEscalation_notMem hgates hc.1
    refine verdict_eq_reject hcancel ?_ (x := Progress.refusal g f) (by rw [hrefused]; simp) rfl
    rw [hrefused, List.any_append, hno]
    rfl
  | fatal hending henforced hmemory passed hgates hpassed hresults =>
    refine .inr ⟨?_, .inr ⟨henforced, hmemory⟩⟩
    have hjudged : Gate.hardwareViability ∈ r.results.map GateResult.gate := by
      rw [hgates]
      simp
    obtain ⟨x, hx, hg⟩ := List.mem_map.1 hjudged
    refine verdict_eq_reject hcancel ?_ hx ((outcome_eq_fail_iff hresults hx).2 ⟨by rw [hg]; decide, by rwa [hg]⟩)
    rw [Bool.eq_false_iff, ne_eq, any_escalate_iff hresults, hgates]
    rintro ⟨hc, -⟩
    rcases List.mem_append.1 hc with hc | hc
    · exact humanEscalation_notMem hpassed hc
    · exact absurd (List.mem_singleton.1 hc) (by decide)

/-- **What approves.** -/
theorem IsSettled.verdict_eq_approve_iff (h : r.IsSettled s phase p mode) :
    r.verdict = .approve ↔ (∀ g : Gate, g.IsMet s phase p) ∧ Pays s p Gate.all := by
  rcases h.cases with ⟨hgates, hresults, hpays, -⟩ | ⟨hreject, hblame⟩
  · rw [(verdict_of_completed h.isCancelled hgates hresults).1]
    exact ⟨fun hall => ⟨hall, hpays⟩, fun hall => hall.1⟩
  · rw [hreject]
    refine iff_of_false (by decide) ?_
    rintro ⟨hall, hpays⟩
    rcases hblame with hb | ⟨-, hb⟩
    · exact hb hpays
    · exact hb (hall _)

/-- **What is left to people.** -/
theorem IsSettled.verdict_eq_escalateHuman_iff (h : r.IsSettled s phase p mode) :
    r.verdict = .escalateHuman ↔ ¬Gate.humanEscalation.IsMet s phase p ∧ Pays s p Gate.all
      ∧ ¬(mode.enforces = true ∧ ¬Gate.hardwareViability.IsMet s phase p) := by
  rcases h.cases with ⟨hgates, hresults, hpays, hsurvived⟩ | ⟨hreject, hblame⟩
  · rw [(verdict_of_completed h.isCancelled hgates hresults).2]
    exact ⟨fun hunmet => ⟨hunmet, hpays, fun hc => hc.2 (hsurvived hc.1)⟩, fun hall => hall.1⟩
  · rw [hreject]
    refine iff_of_false (by decide) ?_
    rintro ⟨-, hpays, hmemory⟩
    rcases hblame with hb | hb
    · exact hb hpays
    · exact hmemory hb

/-- **What an approved proposal accrues.** -/
theorem IsSettled.powerDelta_eq (h : r.IsSettled s phase p mode) :
    r.powerDelta = if r.verdict = .approve then Gate.accrued s p else 0.0 := by
  unfold powerDelta
  split
  · next happrove =>
    rcases h.cases with ⟨hgates, hresults, -⟩ | ⟨hreject, -⟩
    · have hjudged : Gate.viabilityPower ∈ r.results.map GateResult.gate := by
        rw [hgates]
        decide
      obtain ⟨y, hy, hviability⟩ := List.mem_map.1 hjudged
      have hsome : (r.results.find? (fun x => x.gate == .viabilityPower)).isSome :=
        List.find?_isSome.2 ⟨y, hy, by rw [hviability]; rfl⟩
      obtain ⟨x, hx⟩ := Option.isSome_iff_exists.1 hsome
      have hg : (x.gate == .viabilityPower) = true :=
        List.find?_some (p := fun x : GateResult => x.gate == .viabilityPower) hx
      rw [beq_iff_eq] at hg
      have hdelta := (hresults x (List.mem_of_find?_eq_some hx)).viabilityPowerDelta
      rw [hg, Gate.delta, if_pos rfl] at hdelta
      rw [hx, Option.bind_some, hdelta]
      rfl
    · rw [hreject] at happrove
      cases happrove
  · rfl

end Run

end Checked

end PolicyGates
