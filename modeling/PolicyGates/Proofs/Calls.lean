import PolicyGates.Proofs.Budget
import PolicyGates.Proofs.Decimal.Parts
import PolicyGates.Proofs.Double.Products
/-!
# What calls leave of a budget

Whoever holds a budget can charge it and close it, as often and with whatever amounts it likes.  A call that is
refused leaves the budget as it was (`call_of_error`), one that is not keeps it within its cap and takes nothing back
(`IsWithin.call`), and a closed budget stays as it is and has one reply to each call (`callAll_of_closed`).  By
induction on the calls the same is true of any sequence of them, and so of every budget that was ever started
(`started_account`).
-/
namespace PolicyGates.Budget

open Double

variable {b b' : Budget}

/-! ## Starting -/

theorem refusal_ne_ok {v : Value} {e : Text → PolicyError} {a : Budget} :
    v.quote.bind (fun shown => .error (.policy (e shown))) ≠ .ok a := by
  cases v.quote <;> (intro h; cases h)

theorem start_eq_ok_iff {cap : Float} :
    start cap = .ok b ↔ Decimal.isWhole cap = true ∧ ¬cap ≤ 0.0 ∧ b = fresh cap := by
  unfold start
  by_cases h : Decimal.isWhole cap = true ∧ (!(cap ≤ 0.0)) = true
  · rw [if_pos h]
    simp only [Bool.not_eq_true', decide_eq_false_iff_not] at h
    exact ⟨fun hb => ⟨h.1, h.2, (Except.ok.inj hb).symm⟩, fun hb => by rw [hb.2.2]⟩
  · rw [if_neg h]
    refine ⟨(by intro hb; cases hb), fun hb => absurd ⟨hb.1, ?_⟩ h⟩
    simpa using hb.2.1

theorem startAny_eq_ok_iff {cap : Value} : startAny cap = .ok b ↔ ∃ x, cap = .num x ∧ start x = .ok b := by
  unfold startAny
  split
  · next x =>
    cases hx : start x with
    | ok a => simp [hx]
    | error e => simp [hx]
  · next hcap => exact ⟨fun h => absurd h refusal_ne_ok, fun ⟨x, hx, _⟩ => absurd hx (hcap x)⟩

theorem chargeAny_eq_ok_iff {amount : Value} :
    b.chargeAny amount = .ok b' ↔ ∃ x, amount = .num x ∧ b.charge x = .ok b' := by
  unfold chargeAny
  split
  · next x =>
    cases hx : b.charge x with
    | ok a => simp [hx]
    | error e => simp [hx]
  · next hamount =>
    refine ⟨fun h => ?_, fun ⟨x, hx, _⟩ => absurd hx (hamount x)⟩
    split at h
    · cases h
    · exact absurd h refusal_ne_ok

theorem isWithin_of_start {cap : Float} (h : start cap = .ok b) : b.IsWithin := by
  obtain ⟨hwhole, hpos, rfl⟩ := start_eq_ok_iff.1 h
  have hfinite := Decimal.isFinite_of_isWhole hwhole
  have hcap := isNaN_of_isFinite hfinite
  rw [le_iff hcap (by decide)] at hpos
  exact ⟨isFinite_fresh hfinite, show (0.0 : Float) ≤ cap from (le_iff (by decide) hcap).2 (by omega)⟩

/-! ## One call -/

/-- What calls have made of a budget: one with the same cap, within it, and with no less spent. -/
structure LeadsTo (b b' : Budget) : Prop where
  maxTokens : b'.maxTokens = b.maxTokens
  isWithin : b'.IsWithin
  le_spent : b.spent ≤ b'.spent

theorem IsWithin.refl (hb : b.IsWithin) : b.LeadsTo b :=
  ⟨rfl, hb, (le_iff (isNaN_of_isFinite hb.spent) (isNaN_of_isFinite hb.spent)).2 (Int.le_refl _)⟩

theorem LeadsTo.trans {b'' : Budget} (h : b.LeadsTo b') (h' : b'.LeadsTo b'') : b.LeadsTo b'' :=
  ⟨h'.maxTokens.trans h.maxTokens, h'.isWithin, le_trans h.le_spent h'.le_spent⟩

/-- **A charge is taken or refused**, and a refusal leaves the budget as it was. -/
theorem call_charge (b : Budget) (amount : Value) :
    (∃ x b', amount = .num x ∧ b.charge x = .ok b' ∧ b.call (.charge amount) = (b', .ok .charged))
    ∨ ∃ f, b.chargeAny amount = .error f ∧ b.call (.charge amount) = (b, .error f) := by
  cases hcharge : b.chargeAny amount with
  | error f => exact .inr ⟨f, rfl, by simp only [call, hcharge]⟩
  | ok charged =>
    obtain ⟨x, hx, hcharged⟩ := chargeAny_eq_ok_iff.1 hcharge
    exact .inl ⟨x, charged, hx, hcharged, by simp only [call, hcharge]⟩

theorem call_of_error {c : Call} {f : Failure} (h : (b.call c).2 = .error f) : (b.call c).1 = b := by
  cases c with
  | close => cases h
  | charge amount =>
    obtain ⟨x, b', -, -, hcall⟩ | ⟨e, -, hcall⟩ := b.call_charge amount
    · rw [hcall] at h
      cases h
    · rw [hcall]

/-- **No call leads beyond the cap or takes anything back.** -/
theorem IsWithin.call (hb : b.IsWithin) (c : Call) : b.LeadsTo (b.call c).1 := by
  cases c with
  | close => exact ⟨rfl, ⟨⟨hb.maxTokens, hb.spent, hb.zero_le_spent⟩, hb.spent_le⟩, hb.refl.le_spent⟩
  | charge amount =>
    obtain ⟨x, b', -, hx, hcall⟩ | ⟨e, -, hcall⟩ := b.call_charge amount
    · obtain ⟨hwithin, hcap, hspent⟩ := hb.charge hx
      rw [hcall]
      exact ⟨hcap, hwithin, hspent⟩
    · rw [hcall]
      exact hb.refl

/-- What a closed budget answers: it takes no charge, and tells again what was spent. -/
def lastReply (b : Budget) : Call → Except Failure Reply
  | .charge _ => .error (.policy .budgetClosed)
  | .close => .ok (.total b.spent)

theorem call_of_closed (h : b.closed = true) (c : Call) : b.call c = (b, b.lastReply c) := by
  cases c with
  | close =>
    have hclose : b.close = b := by rw [close, ← h]
    show (b.close, _) = _
    rw [hclose]
    rfl
  | charge amount =>
    have hrefused : b.chargeAny amount = .error (.policy .budgetClosed) := by
      cases amount <;> simp [chargeAny, charge_of_closed, h]
    obtain ⟨x, b', -, hx, -⟩ | ⟨e, he, hcall⟩ := b.call_charge amount
    · rw [charge_of_closed h] at hx
      cases hx
    · rw [hrefused] at he
      cases he
      rw [hcall]
      rfl

theorem closed_call (c : Call) : (b.call c).1.closed = true ↔ b.closed = true ∨ c = .close := by
  cases c with
  | close => exact ⟨fun _ => .inr rfl, fun _ => rfl⟩
  | charge amount =>
    obtain ⟨x, b', -, hx, hcall⟩ | ⟨e, -, hcall⟩ := b.call_charge amount
    · obtain ⟨-, -, -, -, rfl⟩ := charge_eq_ok_iff.1 hx
      rw [hcall]
      simp
    · rw [hcall]
      simp

/-! ## Sequences of calls -/

theorem callAll_cons (c : Call) (r : List Call) :
    b.callAll (c :: r) = (((b.call c).1.callAll r).1, (b.call c).2 :: ((b.call c).1.callAll r).2) := rfl

theorem callAll_append (before after : List Call) : b.callAll (before ++ after)
    = (((b.callAll before).1.callAll after).1, (b.callAll before).2 ++ ((b.callAll before).1.callAll after).2) := by
  induction before generalizing b with
  | nil => rfl
  | cons c r ih => rw [List.cons_append, callAll_cons, ih, callAll_cons, List.cons_append]

/-- **No sequence of calls leads beyond the cap or takes anything back.** -/
theorem IsWithin.callAll (hb : b.IsWithin) (calls : List Call) : b.LeadsTo (b.callAll calls).1 := by
  induction calls generalizing b with
  | nil => exact hb.refl
  | cons c r ih =>
    have hcall := hb.call c
    exact hcall.trans (ih hcall.isWithin)

/-- **Nothing changes a closed budget.** -/
theorem callAll_of_closed (h : b.closed = true) (calls : List Call) : b.callAll calls = (b, calls.map b.lastReply) := by
  induction calls with
  | nil => rfl
  | cons c r ih => rw [callAll_cons, call_of_closed h, ih, List.map_cons]

theorem closed_callAll (calls : List Call) : (b.callAll calls).1.closed = true ↔ b.closed = true ∨ .close ∈ calls := by
  induction calls generalizing b with
  | nil => simp [callAll]
  | cons c r ih =>
    rw [callAll_cons, ih, closed_call, List.mem_cons, or_assoc]
    simp only [eq_comm]

/-- **The account of a budget that was started**, whatever is asked of it and in whichever order.  It is open and
nothing is spent.  Calls keep it within its cap and take nothing back, and those that are refused leave it as it was.
From the first closing on it stays as it is: it takes no charge, and tells the same total each time it is closed.  A
scope hands out such a budget, closes what its body leaves of it, and ends as the body does. -/
theorem started_account {cap : Value} (h : startAny cap = .ok b) :
    (cap = .num b.maxTokens ∧ b.spent = 0.0 ∧ b.closed = false)
    ∧ (∀ calls, b.LeadsTo (b.callAll calls).1 ∧ 0.0 ≤ (b.callAll calls).1.remaining
      ∧ ((b.callAll calls).1.closed = true ↔ .close ∈ calls)
      ∧ (∀ more, (b.callAll calls).1.spent ≤ (b.callAll (calls ++ more)).1.spent)
      ∧ ∀ c f, ((b.callAll calls).1.call c).2 = .error f → ((b.callAll calls).1.call c).1 = (b.callAll calls).1)
    ∧ (∀ before after, b.callAll (before ++ .close :: after)
      = ((b.callAll before).1.close, (b.callAll before).2 ++ .ok (.total (b.callAll before).1.spent)
          :: after.map (b.callAll before).1.close.lastReply))
    ∧ ∀ (α : Type) (body : Budget → Budget × Except Failure α), ∃ left, scopeAny cap body = .ok (left, (body b).2)
      ∧ left.closed = true ∧ left.spent = (body b).1.spent
      ∧ ((∃ calls, (body b).1 = (b.callAll calls).1) → b.LeadsTo left) := by
  obtain ⟨x, rfl, hx⟩ := startAny_eq_ok_iff.1 h
  have hwithin := isWithin_of_start hx
  obtain ⟨-, -, rfl⟩ := start_eq_ok_iff.1 hx
  refine ⟨⟨rfl, rfl, rfl⟩, fun calls => ?_, fun before after => ?_, fun α body => ?_⟩
  · have hleads := hwithin.callAll calls
    refine ⟨hleads, hleads.isWithin.zero_le_remaining, ?_, fun more => ?_, fun c f hf => call_of_error hf⟩
    · rw [closed_callAll]
      exact or_iff_right (show ¬false = true by decide)
    · rw [callAll_append]
      exact (hleads.isWithin.callAll more).le_spent
  · rw [callAll_append, callAll_cons]
    show ((((fresh x).callAll before).1.close.callAll after).1,
      _ ++ _ :: (((fresh x).callAll before).1.close.callAll after).2) = _
    rw [callAll_of_closed rfl]
    rfl
  · refine ⟨(body (fresh x)).1.close, by rw [scopeAny, h]; rfl, rfl, rfl, ?_⟩
    rintro ⟨calls, hcalls⟩
    rw [hcalls]
    exact (hwithin.callAll calls).trans ((hwithin.callAll calls).isWithin.call .close)

/-- Of a budget of five, three are spent: the charges between are refused, and so is the one after the closing. -/
theorem three_of_five :
    let amounts : List Float := [3.0, Decimal.nan, -1.0, 2.5]
    let calls := amounts.map (fun x => .charge (.num x)) ++ [.close, .charge (.num 1.0), .close]
    startAny (.num 5.0) = .ok (fresh 5.0) ∧ (fresh 5.0).LeadsTo ((fresh 5.0).callAll calls).1
    ∧ 0.0 ≤ ((fresh 5.0).callAll calls).1.remaining ∧ ((fresh 5.0).callAll calls).1 = ⟨5.0, 3.0, true⟩ := by
  intro amounts calls
  have hstart : startAny (.num 5.0) = .ok (fresh 5.0) :=
    startAny_eq_ok_iff.2 ⟨5.0, rfl, start_eq_ok_iff.2 ⟨by decide, by decide, rfl⟩⟩
  obtain ⟨-, hcalls, -, -⟩ := started_account hstart
  obtain ⟨hleads, hremaining, -, -, -⟩ := hcalls calls
  exact ⟨hstart, hleads, hremaining, by decide +kernel⟩

end PolicyGates.Budget
