import PolicyGates.Proofs.Calls
/-!
# Budgets and exact counts

A budget adds up what it is charged in doubles.  Up to `2^53` sums of whole numbers are exact, so there a charge is
taken if and only if the exact total with it is within the cap (`Counts.charge_iff`), and what is spent is that
total.  A budget whose cap is below `2^53` never gets any further, and so keeps exact accounts for good; one with a
larger cap does not, and takes charges of one without end once `2^53` are spent (`countsExactly_iff`).
-/
namespace PolicyGates.Budget

open Double

/-! ## Exact accounts -/

structure IsAmount (x : Float) : Prop where
  isWhole : Decimal.isWhole x = true
  zero_le : 0.0 ≤ x

/-- What those of the amounts that are taken come to, each counted as exactly the number it stands for. -/
def tally (b : Budget) : List Float → Nat
  | [] => 0
  | x :: r =>
    match b.charge x with
    | .ok charged => Decimal.toCount x + charged.tally r
    | .error _ => b.tally r

/-- What charges of these amounts leave, whichever of them are taken. -/
def afterCharges (b : Budget) (amounts : List Float) : Budget := (b.callAll (amounts.map fun x => .charge (.num x))).1

/-- The next charge is taken if and only if the exact total with it is within the cap, and the total so far is what is
spent. -/
structure CountsAt (b : Budget) (amounts : List Float) (x : Float) : Prop where
  taken_iff : (∃ charged, (b.afterCharges amounts).charge x = .ok charged)
    ↔ b.tally amounts + Decimal.toCount x ≤ Decimal.toCount b.maxTokens
  tally_le : b.tally amounts ≤ Decimal.toCount b.maxTokens
  spent : Decimal.toCount (b.afterCharges amounts).spent = b.tally amounts

/-- Exact accounts of whole amounts, whichever they are. -/
def CountsExactly (b : Budget) : Prop := ∀ amounts x, (∀ y ∈ amounts, IsAmount y) → IsAmount x → b.CountsAt amounts x

variable {b b' : Budget} {x : Float} {n : Nat}

theorem IsAmount.isFinite (h : IsAmount x) : x.isFinite = true := Decimal.isFinite_of_isWhole h.isWhole

theorem IsAmount.level (h : IsAmount x) : level x = wholeLevel (Decimal.toCount x) :=
  level_of_isWhole h.isWhole h.zero_le

theorem afterCharges_cons_of_ok (h : b.charge x = .ok b') (r : List Float) :
    b.afterCharges (x :: r) = b'.afterCharges r ∧ b.tally (x :: r) = Decimal.toCount x + b'.tally r := by
  have hcharge : b.chargeAny (.num x) = .ok b' := chargeAny_eq_ok_iff.2 ⟨x, rfl, h⟩
  have hcall : (b.call (.charge (.num x))).1 = b' := by simp only [call, hcharge]
  constructor
  · rw [afterCharges, List.map_cons, callAll_cons, hcall]
    rfl
  · rw [tally, h]

theorem afterCharges_cons_of_error {e : PolicyError} (h : b.charge x = .error e) (r : List Float) :
    b.afterCharges (x :: r) = b.afterCharges r ∧ b.tally (x :: r) = b.tally r := by
  have hcharge : b.chargeAny (.num x) = .error (.policy e) := by simp only [chargeAny, h]
  have hcall : (b.call (.charge (.num x))).1 = b := by simp only [call, hcharge]
  constructor
  · rw [afterCharges, List.map_cons, callAll_cons, hcall]
    rfl
  · rw [tally, h]

/-! ## One charge -/

/-- An open budget with a whole cap, of which so many are spent that can still be counted. -/
structure Counts (b : Budget) (n : Nat) : Prop where
  closed : b.closed = false
  maxTokens : IsAmount b.maxTokens
  isFinite_spent : b.spent.isFinite = true
  spent : level b.spent = wholeLevel n
  le_limit : n ≤ limit
  le_cap : n ≤ Decimal.toCount b.maxTokens

theorem counts_of_start {cap : Float} (h : start cap = .ok b) : b.Counts 0 := by
  have hwithin := isWithin_of_start h
  obtain ⟨hwhole, -, rfl⟩ := start_eq_ok_iff.1 h
  refine ⟨rfl, ⟨hwhole, hwithin.spent_le⟩, hwithin.spent, ?_, Nat.zero_le _, Nat.zero_le _⟩
  rw [wholeLevel_zero]
  exact (by decide : level (0.0 : Float) = 0)

theorem Counts.charge_iff (hb : b.Counts n) (hx : IsAmount x) : (∃ charged, b.charge x = .ok charged)
    ↔ rounded (wholeLevel (n + Decimal.toCount x)) ≤ wholeLevel (Decimal.toCount b.maxTokens) := by
  obtain ⟨hnumber, hlevel⟩ := level_add hb.isFinite_spent hx.isFinite
  rw [hb.spent, hx.level, ← Int.natCast_add, ← wholeLevel_add] at hlevel
  rw [← hlevel, ← hb.maxTokens.level, ← le_iff hnumber (isNaN_of_isFinite hb.maxTokens.isFinite),
    ← not_lt_iff (isNaN_of_isFinite hb.maxTokens.isFinite) hnumber]
  simp only [charge_eq_ok_iff, hb.closed, hx.isFinite, hx.zero_le, true_and, exists_and_left, exists_eq, and_true]

/-- **As long as the total can be counted**, a charge is taken if and only if the total with it is within the cap. -/
theorem Counts.charge_iff_of_le (hb : b.Counts n) (hx : IsAmount x) (hn : n + Decimal.toCount x ≤ limit) :
    (∃ charged, b.charge x = .ok charged) ↔ n + Decimal.toCount x ≤ Decimal.toCount b.maxTokens := by
  rw [hb.charge_iff hx, rounded_wholeLevel hn, Int.ofNat_le, ← not_lt, wholeLevel_lt, not_lt]

/-- **A cap that can be counted to is never gone beyond**, however large the charge. -/
theorem Counts.charge_iff_of_lt (hb : b.Counts n) (hx : IsAmount x) (hcap : Decimal.toCount b.maxTokens < limit) :
    (∃ charged, b.charge x = .ok charged) ↔ n + Decimal.toCount x ≤ Decimal.toCount b.maxTokens := by
  rcases Nat.lt_or_ge limit (n + Decimal.toCount x) with hn | hn
  · -- what cannot be counted is not rounded to less than `2^53`, which is beyond the cap as well
    rw [hb.charge_iff hx]
    have hlimit : rounded (wholeLevel limit) = wholeLevel limit := rounded_wholeLevel (Nat.le_refl _)
    have hle := rounded_le_rounded (Int.ofNat_le.2 (Nat.le_of_lt (wholeLevel_lt.2 hn)))
    have hlt := wholeLevel_lt.2 hcap
    omega
  · exact hb.charge_iff_of_le hx hn

theorem Counts.charge (hb : b.Counts n) (hx : IsAmount x) (hn : n + Decimal.toCount x ≤ limit)
    (h : b.charge x = .ok b') :
    b'.Counts (n + Decimal.toCount x) ∧ b'.maxTokens = b.maxTokens := by
  have hfits := (hb.charge_iff_of_le hx hn).1 ⟨_, h⟩
  obtain ⟨-, -, -, -, rfl⟩ := charge_eq_ok_iff.1 h
  obtain ⟨hnumber, hlevel⟩ := level_add hb.isFinite_spent hx.isFinite
  rw [hb.spent, hx.level, ← Int.natCast_add, ← wholeLevel_add, rounded_wholeLevel hn] at hlevel
  refine ⟨⟨hb.closed, hb.maxTokens, (isFinite_iff hnumber).2 ?_, hlevel, hn, hfits⟩, rfl⟩
  rw [hlevel, Int.natAbs_natCast]
  exact wholeLevel_lt_infinite hn

/-! ## Many charges -/

/-- **As long as the total can be counted, it is what is spent.** -/
theorem Counts.afterCharges (hb : b.Counts n) {amounts : List Float} (h : ∀ y ∈ amounts, IsAmount y)
    (hn : n + b.tally amounts ≤ limit) :
    (b.afterCharges amounts).Counts (n + b.tally amounts) ∧ (b.afterCharges amounts).maxTokens = b.maxTokens := by
  induction amounts generalizing b n with
  | nil => exact ⟨hb, rfl⟩
  | cons x r ih =>
    have hx := h x List.mem_cons_self
    have hr := fun y hy => h y (List.mem_cons_of_mem _ hy)
    cases hcharge : b.charge x with
    | error e =>
      obtain ⟨hafter, htally⟩ := afterCharges_cons_of_error hcharge r
      rw [hafter, htally]
      exact ih hb hr (htally ▸ hn)
    | ok charged =>
      obtain ⟨hafter, htally⟩ := afterCharges_cons_of_ok hcharge r
      rw [htally] at hn
      obtain ⟨hcounts, hmax⟩ := hb.charge hx (by omega) hcharge
      obtain ⟨hleft, hmax'⟩ := ih hcounts hr (by omega)
      rw [hafter, htally, ← Nat.add_assoc]
      exact ⟨hleft, hmax'.trans hmax⟩

/-- **A cap that can be counted to bounds the exact total.** -/
theorem Counts.tally_le (hb : b.Counts n) {amounts : List Float} (h : ∀ y ∈ amounts, IsAmount y)
    (hcap : Decimal.toCount b.maxTokens < limit) : n + b.tally amounts ≤ Decimal.toCount b.maxTokens := by
  induction amounts generalizing b n with
  | nil => exact hb.le_cap
  | cons x r ih =>
    have hx := h x List.mem_cons_self
    have hr := fun y hy => h y (List.mem_cons_of_mem _ hy)
    cases hcharge : b.charge x with
    | error e =>
      rw [(afterCharges_cons_of_error hcharge r).2]
      exact ih hb hr hcap
    | ok charged =>
      have hfits := (hb.charge_iff_of_lt hx hcap).1 ⟨charged, hcharge⟩
      obtain ⟨hcounts, hmax⟩ := hb.charge hx (by omega) hcharge
      rw [(afterCharges_cons_of_ok hcharge r).2, ← Nat.add_assoc, ← hmax]
      exact ih hcounts hr (by rwa [hmax])

/-- **A budget keeps exact accounts as long as the total can be counted**, and for good if its cap can be counted to. -/
theorem Counts.countsAt (hb : b.Counts 0) {amounts : List Float} (h : ∀ y ∈ amounts, IsAmount y) (hx : IsAmount x)
    (hn : b.tally amounts + Decimal.toCount x ≤ limit ∨ Decimal.toCount b.maxTokens < limit) :
    b.CountsAt amounts x := by
  have htally : b.tally amounts ≤ limit := by
    rcases hn with hn | hcap
    · omega
    · have := hb.tally_le h hcap
      omega
  obtain ⟨hafter, hmax⟩ := hb.afterCharges h (by rwa [Nat.zero_add])
  rw [Nat.zero_add] at hafter
  refine ⟨?_, hmax ▸ hafter.le_cap, toCount_of_level hafter.isFinite_spent hafter.spent⟩
  rw [← hmax] at hn ⊢
  rcases hn with hn | hcap
  · exact hafter.charge_iff_of_le hx hn
  · exact hafter.charge_iff_of_lt hx hcap

/-! ## Past what can be counted -/

theorem isAmount_ofNat (hn : n ≤ limit) : IsAmount (Float.ofNat n) ∧ Decimal.toCount (Float.ofNat n) = n := by
  have hf := isFinite_ofNat hn
  have hlevel := level_ofNat_of_le hn
  refine ⟨⟨isWhole_of_level hf hlevel, (zero_le_iff (isNaN_ofNat n)).2 ?_⟩, toCount_of_level hf hlevel⟩
  rw [hlevel]
  exact Int.natCast_nonneg _

theorem le_maxSafe_iff (hx : IsAmount x) : x ≤ Decimal.maxSafe ↔ Decimal.toCount x < limit := by
  have hlimit : 0 < limit := by decide
  rw [maxSafe_eq, le_iff (isNaN_of_isFinite hx.isFinite) (isNaN_ofNat _), hx.level,
    level_ofNat_of_le (Nat.sub_le _ _), Int.ofNat_le, ← not_lt, wholeLevel_lt]
  omega

/-- All that can be counted is spent. -/
def full (cap : Float) : Budget := ⟨cap, counted limit, false⟩

section Full

variable {cap : Float} (hcap : IsAmount cap) (h : limit ≤ Decimal.toCount cap)

include hcap h

theorem counted_le_cap : counted limit ≤ cap := by
  rw [counted_of_le (Nat.le_refl _), le_iff (isNaN_ofNat _) (isNaN_of_isFinite hcap.isFinite),
    level_ofNat_of_le (Nat.le_refl _), hcap.level, Int.ofNat_le, ← not_lt, wholeLevel_lt, not_lt]
  exact h

theorem charge_limit : (fresh cap).charge (counted limit) = .ok (full cap) := by
  have hsum : (0.0 : Float) + counted limit = counted limit := by decide
  refine charge_eq_ok_iff.2 ⟨rfl, by decide, by decide, ?_, by rw [fresh, hsum]; rfl⟩
  show ¬cap < 0.0 + counted limit
  rw [hsum, not_lt_iff (isNaN_of_isFinite hcap.isFinite) (isNaN_counted _)]
  exact counted_le_cap hcap h

/-- **With `2^53` spent a charge of one changes nothing**, and so it is always taken. -/
theorem charge_one : (full cap).charge 1.0 = .ok (full cap) := by
  have hsum : counted limit + 1.0 = counted limit := by decide
  refine charge_eq_ok_iff.2 ⟨rfl, by decide, by decide, ?_, by rw [full, hsum]⟩
  show ¬cap < counted limit + 1.0
  rw [hsum, not_lt_iff (isNaN_of_isFinite hcap.isFinite) (isNaN_counted _)]
  exact counted_le_cap hcap h

theorem tally_ones (k : Nat) : (full cap).tally (List.replicate k 1.0) = k := by
  induction k with
  | zero => rfl
  | succ k ih =>
    have hone : Decimal.toCount 1.0 = 1 := by decide
    rw [List.replicate_succ, (afterCharges_cons_of_ok (charge_one hcap h) _).2, ih, hone, Nat.add_comm]

theorem exists_tally_gt (n : Nat) : ∃ amounts, (∀ y ∈ amounts, IsAmount y) ∧ n < (fresh cap).tally amounts := by
  have hlimit := isAmount_ofNat (Nat.le_refl limit)
  have hone := isAmount_ofNat (show 1 ≤ limit by decide)
  rw [← counted_of_le (Nat.le_refl _)] at hlimit
  refine ⟨counted limit :: List.replicate n 1.0, fun y hy => ?_, ?_⟩
  · obtain rfl | hy := List.mem_cons.1 hy
    · exact hlimit.1
    · rw [List.eq_of_mem_replicate hy]
      exact hone.1
  · have hpos : 0 < limit := by decide
    rw [(afterCharges_cons_of_ok (charge_limit hcap h) _).2, hlimit.2, tally_ones hcap h]
    omega

end Full

/-- **Which budgets keep exact accounts of whole amounts**: those with a cap below `2^53`.  The others do so up to
that number only, and the exact total of what they take has no bound. -/
theorem countsExactly_iff {cap : Float} (h : start cap = .ok b) :
    (b.CountsExactly ↔ cap ≤ Decimal.maxSafe)
    ∧ (∀ amounts x, (∀ y ∈ amounts, IsAmount y) → IsAmount x →
      b.tally amounts + Decimal.toCount x ≤ limit → b.CountsAt amounts x)
    ∧ (¬cap ≤ Decimal.maxSafe → ∀ n, ∃ amounts, (∀ y ∈ amounts, IsAmount y) ∧ n < b.tally amounts) := by
  have hcounts := counts_of_start h
  obtain ⟨-, -, rfl⟩ := start_eq_ok_iff.1 h
  have hcap : IsAmount cap := hcounts.maxTokens
  have hbeyond : ¬cap ≤ Decimal.maxSafe → ∀ n, ∃ amounts, (∀ y ∈ amounts, IsAmount y)
    ∧ n < (fresh cap).tally amounts := by
    intro hc
    rw [le_maxSafe_iff hcap, not_lt] at hc
    exact exists_tally_gt hcap hc
  refine ⟨⟨fun hexact => ?_, fun hc amounts x hamounts hx => ?_⟩, fun amounts x hamounts hx hn => ?_, hbeyond⟩
  · by_contra hc
    obtain ⟨amounts, hamounts, hlt⟩ := hbeyond hc (Decimal.toCount cap)
    have hone := (isAmount_ofNat (show 1 ≤ limit by decide)).1
    exact Nat.not_le.2 hlt (hexact amounts _ hamounts hone).tally_le
  · exact hcounts.countsAt hamounts hx (.inr ((le_maxSafe_iff hcap).1 hc))
  · exact hcounts.countsAt hamounts hx (.inl hn)

/-- A budget of `2^53` that has spent it all takes a charge of one more. -/
theorem taken_past_cap :
    let cap : Float := 9007199254740992.0
    start cap = .ok (fresh cap) ∧ ¬(fresh cap).CountsExactly ∧ (fresh cap).tally [cap] = Decimal.toCount cap
    ∧ (fresh cap).tally [cap, 1.0] = Decimal.toCount cap + 1 ∧ ((fresh cap).afterCharges [cap, 1.0]).spent = cap := by
  intro cap
  have hstart : start cap = .ok (fresh cap) := start_eq_ok_iff.2 ⟨by decide +kernel, by decide +kernel, rfl⟩
  have hunsafe : ¬cap ≤ Decimal.maxSafe := by decide +kernel
  refine ⟨hstart, fun hexact => hunsafe ((countsExactly_iff hstart).1.1 hexact), ?_, ?_, ?_⟩
  · decide +kernel
  · decide +kernel
  · decide +kernel

end PolicyGates.Budget
