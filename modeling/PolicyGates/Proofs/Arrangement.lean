import PolicyGates.Proofs.Double.Accuracy
import PolicyGates.Proofs.Sufficiency
/-!
# Evidence in another order

A mean does not depend on the order of what it is taken of, but the score of evidence is a mean of rounded sums, and
what a sum loses depends on the order.  So the same items can score differently, and pass the gate in one order and
fail it in another (`exists_order_that_fails`).  This takes three items, and some that weigh more digits than there
are (`alike_of_few`, `alike_of_digits`).  However they are listed, the score lies as near to the mean as the number of
items allows (`meanWeight_within`), and so evidence is judged by its mean unless that is as near to what is needed
(`judged_of_far`).
-/
namespace PolicyGates

open Schema Double

variable {phase : Phase} {items items' : List EvidenceItem}

/-! ## What the order may do -/

/-- The two lists come to the same: to one score, and to one answer of the gate for evidence, whatever else the
proposal says. -/
structure Alike (phase : Phase) (items items' : List EvidenceItem) : Prop where
  score : EvidenceScore.of (.arr (items.map EvidenceItem.toValue)) (.str phase.name)
    = EvidenceScore.of (.arr (items'.map EvidenceItem.toValue)) (.str phase.name)
  answer : ∀ (s : Settings) (p : Proposal) (mode : Mode) (b : Budget),
    Gate.evidenceSufficiency.evaluate ⟨s.toValue, .str phase.name, mode⟩ { p with evidenceItems := items }.toValue b
      = Gate.evidenceSufficiency.evaluate
        ⟨s.toValue, .str phase.name, mode⟩ { p with evidenceItems := items' }.toValue b

/-- What the gate for evidence says of every proposal with these items, once it is paid for. -/
def Judged (s : Settings) (phase : Phase) (items : List EvidenceItem) (o : Outcome) : Prop :=
  ∀ (p : Proposal) (mode : Mode) (b b' : Budget), p.evidenceItems = items →
    b.charge (Gate.evidenceSufficiency.price s p) = .ok b' →
    ∃ r, Gate.evidenceSufficiency.evaluate ⟨s.toValue, .str phase.name, mode⟩ p.toValue b = (b', .ok r) ∧ r.outcome = o

/-- What items weigh together if nothing is rounded, in steps of `2^-1074`. -/
def exactWeight (items : List EvidenceItem) : Int := (items.map fun e => level e.weight).sum

/-- The score is off from the mean by a part in `2^53` for each item, and one more. -/
def EvidenceScore.IsNear (score : EvidenceScore) (items : List EvidenceItem) : Prop :=
  2 ^ 53 * |items.length * level score.weightedScore - exactWeight items|
    ≤ items.length * (items.length + 1) * wholeLevel 1

/-- What is needed lies further away from the mean than that. -/
def IsFar (needed : Float) (items : List EvidenceItem) : Prop :=
  items.length * (items.length + 1) * wholeLevel 1 < 2 ^ 53 * |items.length * level needed - exactWeight items|

instance (phase : Phase) (items : List EvidenceItem) : Decidable (HoldsTier phase items) :=
  inferInstanceAs (Decidable (∃ e ∈ items, _))

/-- What the mean says of the evidence. -/
def exactOutcome (needed : Float) (phase : Phase) (items : List EvidenceItem) : Outcome :=
  if items.length * level needed ≤ exactWeight items ∧ HoldsTier phase items then .pass else .fail

/-- The weights are whole numbers of some place, with few enough digits for all of them together. -/
def HasFewDigits (items : List EvidenceItem) : Prop :=
  ∃ (k : Nat) (m : EvidenceItem → Nat), (∀ e ∈ items, level e.weight = (m e * 2 ^ k : Nat)) ∧ (items.map m).sum ≤ 2 ^ 53

theorem exactWeight_nil : exactWeight [] = 0 := rfl

theorem exactWeight_concat (items : List EvidenceItem) (e : EvidenceItem) :
    exactWeight (items ++ [e]) = exactWeight items + level e.weight := by
  rw [exactWeight, List.map_append, List.sum_append, List.map_singleton, List.sum_singleton, ← exactWeight]

theorem exactWeight_perm (h : items.Perm items') : exactWeight items = exactWeight items' := (h.map _).sum_eq

theorem holdsTier_perm (h : items.Perm items') : HoldsTier phase items ↔ HoldsTier phase items' :=
  exists_congr fun _ => and_congr_left' h.mem_iff

/-! ## Sums of weights -/

theorem level_share {x : Float} (h : IsShare x) : 0 ≤ level x ∧ level x ≤ wholeLevel 1 := by
  have hlow := h.zero_le
  have hhigh := h.le_one
  rw [zero_le_iff h.1] at hlow
  rw [le_iff h.1 (by decide), level_one] at hhigh
  exact ⟨hlow, hhigh⟩

section Sums

variable (hw : ∀ e ∈ items, ∀ w, e.weightOverride = some w → IsShare w)

include hw

theorem exactWeight_bounds : 0 ≤ exactWeight items ∧ exactWeight items ≤ items.length * wholeLevel 1 := by
  induction items using List.reverseRecOn with
  | nil =>
    rw [exactWeight_nil, List.length_nil, Int.natCast_zero, Int.zero_mul]
    exact ⟨Int.le_refl 0, Int.le_refl 0⟩
  | append_singleton l e ih =>
    obtain ⟨hl, hlast⟩ := weights_of_concat hw
    obtain ⟨hlow, hhigh⟩ := ih hl
    have hshare := level_share hlast
    rw [exactWeight_concat, List.length_append, List.length_singleton, Int.natCast_add, Int.add_mul,
      Int.natCast_one, Int.one_mul]
    omega

theorem isSum_totalWeight : IsSum (totalWeight 0.0 items) := by
  induction items using List.reverseRecOn with
  | nil => exact isSum_zero
  | append_singleton l e ih =>
    obtain ⟨hl, hlast⟩ := weights_of_concat hw
    have hfinite := (totalWeight_le_counted hw).1
    rw [totalWeight_concat] at hfinite ⊢
    exact (ih hl).add hlast.isFinite hlast.zero_le hfinite

theorem level_totalWeight_le : level (totalWeight 0.0 items) ≤ items.length * wholeLevel 1 := by
  obtain ⟨hfinite, -, hhigh⟩ := totalWeight_le_counted hw
  rw [le_iff (isNaN_of_isFinite hfinite) (isNaN_counted _), counted, level_ofNat_of_le (Nat.min_le_right _ _)] at hhigh
  have hmin : wholeLevel (min items.length limit) ≤ items.length * wholeLevel 1 := by
    rw [wholeLevel_eq_mul]
    exact Nat.mul_le_mul_right _ (Nat.min_le_left _ _)
  exact Int.le_trans hhigh (by exact_mod_cast hmin)

/-- **What the sum of the weights is off by**: each of as many sums is off by a part in `2^53` of as much. -/
theorem totalWeight_within :
    2 ^ 53 * |level (totalWeight 0.0 items) - exactWeight items| ≤ items.length ^ 2 * wholeLevel 1 := by
  induction items using List.reverseRecOn with
  | nil =>
    have hzero : level (totalWeight 0.0 []) = 0 := by decide
    rw [hzero, exactWeight_nil, Int.sub_zero, abs_zero, Int.mul_zero]
    exact Int.mul_nonneg (sq_nonneg _) (Int.natCast_nonneg _)
  | append_singleton l e ih =>
    obtain ⟨hl, hlast⟩ := weights_of_concat hw
    obtain ⟨hs, hs0, -⟩ := totalWeight_le_counted hl
    have hle := level_totalWeight_le hl
    have hshare := level_share hlast
    have hsum := (totalWeight_le_counted hw).1
    rw [totalWeight_concat] at hsum
    have hlastSum := add_within hs hlast.isFinite hs0 hlast.zero_le hsum
    have hrest := ih hl
    rw [totalWeight_concat, exactWeight_concat, List.length_append, List.length_singleton]
    have htriangle : |level (totalWeight 0.0 l + e.weight) - (exactWeight l + level e.weight)|
        ≤ |level (totalWeight 0.0 l + e.weight) - (level (totalWeight 0.0 l) + level e.weight)|
          + |level (totalWeight 0.0 l) - exactWeight l| := by
      refine Int.le_trans (Int.le_of_eq (congrArg abs ?_)) (abs_add_le _ _)
      ring
    have hlength : 0 ≤ (l.length : Int) * wholeLevel 1 := Int.mul_nonneg (Int.natCast_nonneg _) (Int.natCast_nonneg _)
    push_cast
    linarith

/-! ## The mean -/

/-- **What the score is off by**, in whatever order the items are. -/
theorem meanWeight_within (hne : items ≠ []) :
    2 ^ 53 * |items.length * level (meanWeight items) - exactWeight items|
      ≤ items.length * (items.length + 1) * wholeLevel 1 := by
  obtain ⟨hs, hs0, hhigh⟩ := totalWeight_le_counted hw
  have hn := List.length_pos_iff.2 hne
  have hsum := totalWeight_within hw
  rcases Nat.le_total items.length limit with hle | hge
  · rw [counted_of_le hle] at hhigh
    have hmean := div_ofNat_within hn hle hs hs0 hhigh
    have htriangle : |items.length * level (meanWeight items) - exactWeight items|
        ≤ |items.length * level (meanWeight items) - level (totalWeight 0.0 items)|
          + |level (totalWeight 0.0 items) - exactWeight items| := abs_sub_le _ _ _
    rw [← meanWeight] at hmean
    linarith
  · -- of so many items every mean is as good
    have hnumber := isNaN_meanWeight hw hne
    have hpos := level_ofNat_pos hn
    have hcount : totalWeight 0.0 items ≤ Float.ofNat items.length :=
      Double.le_trans hhigh (ofNat_le_ofNat (Nat.min_le_left _ _))
    have hlow : 0.0 ≤ meanWeight items := zero_le_div hs (isNaN_ofNat _) hs0 hpos
    have hone : meanWeight items ≤ 1.0 := div_le_one hs (isNaN_ofNat _) hs0 hcount hpos
    have hexact := exactWeight_bounds hw
    rw [zero_le_iff hnumber] at hlow
    rw [le_iff hnumber (by decide), level_one] at hone
    have hoff : |items.length * level (meanWeight items) - exactWeight items| ≤ items.length * wholeLevel 1 :=
      abs_sub_le_of_nonneg_of_le (by positivity) (Int.mul_le_mul_of_nonneg_left hone (Int.natCast_nonneg _))
        hexact.1 hexact.2
    have hmany : (2 : Int) ^ 53 ≤ items.length + 1 := by
      have hlimit : 2 ^ 53 ≤ items.length := hge
      omega
    calc (2 : Int) ^ 53 * |items.length * level (meanWeight items) - exactWeight items|
        ≤ 2 ^ 53 * (items.length * wholeLevel 1) := Int.mul_le_mul_of_nonneg_left hoff (by decide)
      _ ≤ (items.length + 1) * (items.length * wholeLevel 1) :=
        Int.mul_le_mul_of_nonneg_right hmany (Int.mul_nonneg (Int.natCast_nonneg _) (Int.natCast_nonneg _))
      _ = items.length * (items.length + 1) * wholeLevel 1 := by ring

/-- **Evidence has a score, near to its mean.** -/
theorem exists_near_score (phase : Phase) : ∃ score,
    EvidenceScore.of (.arr (items.map EvidenceItem.toValue)) (.str phase.name) = .ok score
    ∧ score.weightedScore.isNaN = false ∧ (score.minTierMet = true ↔ HoldsTier phase items) ∧ score.IsNear items := by
  by_cases hne : items = []
  · subst hne
    refine ⟨_, score_nil _, by decide, ?_, ?_⟩
    · simp [HoldsTier]
    · rw [EvidenceScore.IsNear, exactWeight_nil, List.length_nil, Int.natCast_zero, Int.zero_mul,
        Int.sub_zero, abs_zero, Int.mul_zero, Int.zero_mul, Int.zero_mul]
  · refine ⟨_, score_toValue hne phase, isNaN_meanWeight hw hne, ?_, meanWeight_within hw hne⟩
    simp [HoldsTier]

end Sums

/-! ## Where the order does not matter -/

/-- **Two orders with one sum of weights come to the same.** -/
theorem alike_of_totalWeight (h : items.Perm items') (htotal : totalWeight 0.0 items = totalWeight 0.0 items') :
    Alike phase items items' := by
  have hlength := h.length_eq
  have hscore : EvidenceScore.of (.arr (items.map EvidenceItem.toValue)) (.str phase.name)
      = EvidenceScore.of (.arr (items'.map EvidenceItem.toValue)) (.str phase.name) := by
    by_cases hne : items = []
    · subst hne
      rw [h.nil_eq]
    · have hne' : items' ≠ [] := fun hc => hne (h.trans (hc ▸ List.Perm.refl _)).eq_nil
      rw [score_toValue hne, score_toValue hne', meanWeight, meanWeight, htotal, hlength, h.any_eq]
  refine ⟨hscore, fun s p mode b => ?_⟩
  have hjudge : Gate.judgeEvidence s.toValue (.str phase.name) { p with evidenceItems := items }.toValue
      = Gate.judgeEvidence s.toValue (.str phase.name) { p with evidenceItems := items' }.toValue := by
    have hask : ∀ l, { p with evidenceItems := l }.toValue.ask "evidenceItems"
      = .ok (.arr (l.map EvidenceItem.toValue)) := fun _ => rfl
    unfold Gate.judgeEvidence
    rw [hask, hask]
    simp only [bind, Except.bind, hscore]
  have hprice : Gate.evidenceSufficiency.price s { p with evidenceItems := items }
      = Gate.evidenceSufficiency.price s { p with evidenceItems := items' } := by
    unfold Gate.price Gate.extra
    rw [hlength]
  unfold Gate.evaluate
  simp only [Gate.cost_toValue, hprice, Gate.finding, Gate.judge, hjudge]

/-- **The first two items can be exchanged.** -/
theorem totalWeight_swap {e f : EvidenceItem} {l : List EvidenceItem}
    (hw : ∀ e' ∈ e :: f :: l, ∀ w, e'.weightOverride = some w → IsShare w) :
    totalWeight 0.0 (e :: f :: l) = totalWeight 0.0 (f :: e :: l) := by
  have he := isShare_weight hw List.mem_cons_self
  have hf := isShare_weight hw (List.mem_cons_of_mem e List.mem_cons_self)
  have hsum : (0.0 + e.weight + f.weight).isFinite = true := by
    have hpair : ∀ e' ∈ [e, f], ∀ w, e'.weightOverride = some w → IsShare w :=
      fun e' he' => hw e' (by simp at he' ⊢; tauto)
    exact (totalWeight_le_counted hpair).1
  show totalWeight (0.0 + e.weight + f.weight) l = totalWeight (0.0 + f.weight + e.weight) l
  rw [zero_add_add_comm he.isFinite hf.isFinite he.zero_le hf.zero_le hsum]

/-- **Up to two items weigh the same in any order.** -/
theorem totalWeight_of_few (hw : ∀ e ∈ items, ∀ w, e.weightOverride = some w → IsShare w) (h : items.Perm items')
    (hfew : items.length ≤ 2) : totalWeight 0.0 items = totalWeight 0.0 items' := by
  induction h with
  | nil => rfl
  | @cons e l l' h =>
    -- at most one item is left, and it stays where it is
    have hsame : l = l' := by
      rcases l with _ | ⟨f, rest⟩
      · exact h.nil_eq
      · obtain rfl : rest = [] := List.eq_nil_of_length_eq_zero (by simp only [List.length_cons] at hfew; omega)
        exact List.singleton_perm.1 h
    rw [hsame]
  | swap e f l => exact totalWeight_swap hw
  | trans h h' ih ih' => exact (ih hw hfew).trans (ih' (fun e he => hw e (h.mem_iff.2 he)) (h.length_eq ▸ hfew))

/-- **With few enough digits the sum is exact.** -/
theorem level_totalWeight_of_digits (hw : ∀ e ∈ items, ∀ w, e.weightOverride = some w → IsShare w) {k : Nat}
    {m : EvidenceItem → Nat} (hm : ∀ e ∈ items, level e.weight = (m e * 2 ^ k : Nat))
    (hsum : (items.map m).sum ≤ 2 ^ 53) :
    level (totalWeight 0.0 items) = ((items.map m).sum * 2 ^ k : Nat) := by
  induction items using List.reverseRecOn with
  | nil =>
    have hzero : level (totalWeight 0.0 []) = 0 := by decide
    simp [hzero]
  | append_singleton l e ih =>
    obtain ⟨hl, hlast⟩ := weights_of_concat hw
    obtain ⟨hs, hs0, -⟩ := totalWeight_le_counted hl
    have hfinite := (totalWeight_le_counted hw).1
    rw [totalWeight_concat] at hfinite ⊢
    rw [List.map_append, List.sum_append, List.map_singleton, List.sum_singleton] at hsum ⊢
    have hrest := ih hl (fun e' he' => hm e' (List.mem_append_left _ he')) (by omega)
    have hitem := hm e (List.mem_append_right l (List.mem_singleton_self e))
    have hexact : level (totalWeight 0.0 l) + level e.weight = (((l.map m).sum + m e) * 2 ^ k : Nat) := by
      rw [hrest, hitem, Nat.add_mul]
      exact (Int.natCast_add _ _).symm
    rw [add_of_places hs hlast.isFinite hs0 hlast.zero_le hfinite hexact hsum, hexact]

theorem totalWeight_of_digits (hw : ∀ e ∈ items, ∀ w, e.weightOverride = some w → IsShare w) (h : items.Perm items')
    (hdigits : HasFewDigits items) : totalWeight 0.0 items = totalWeight 0.0 items' := by
  obtain ⟨k, m, hm, hsum⟩ := hdigits
  have hw' : ∀ e ∈ items', ∀ w, e.weightOverride = some w → IsShare w := fun e he => hw e (h.mem_iff.2 he)
  have hsame := (h.map m).sum_eq
  refine (isSum_totalWeight hw).eq_of_level (isSum_totalWeight hw') ?_
  rw [level_totalWeight_of_digits hw hm hsum,
    level_totalWeight_of_digits hw' (fun e he => hm e (h.mem_iff.2 he)) (hsame ▸ hsum), hsame]

/-! ## Far from what is needed -/

theorem judged_of_score (s : Settings) {score : EvidenceScore}
    (h : EvidenceScore.of (.arr (items.map EvidenceItem.toValue)) (.str phase.name) = .ok score) :
    Judged s phase items (if score.weightedScore < s.evidenceScoreThreshold
      ∨ score.minTierMet = false then .fail else .pass) := by
  intro p mode b b' hitems hcharge
  subst hitems
  exact Gate.evaluate_of_score s h mode hcharge

theorem exactOutcome_perm {needed : Float} (h : items.Perm items') :
    exactOutcome needed phase items = exactOutcome needed phase items' := by
  unfold exactOutcome
  simp only [h.length_eq, exactWeight_perm h, holdsTier_perm h]

theorem isFar_perm {needed : Float} (h : items.Perm items') : IsFar needed items ↔ IsFar needed items' := by
  unfold IsFar
  rw [h.length_eq, exactWeight_perm h]

/-- **A score falls short of what is needed if and only if the mean does**, unless that is too near. -/
theorem EvidenceScore.IsNear.lt_iff {score : EvidenceScore} {needed : Float} (h : score.IsNear items)
    (hfar : IsFar needed items) (hnumber : score.weightedScore.isNaN = false) (hneeded : needed.isNaN = false) :
    score.weightedScore < needed ↔ exactWeight items < items.length * level needed := by
  rw [Double.lt_iff hnumber hneeded]
  unfold IsNear at h
  unfold IsFar at hfar
  have hlength : (0 : Int) ≤ items.length := Int.natCast_nonneg _
  constructor
  · intro hlt
    by_contra hc
    have hle := Int.mul_le_mul_of_nonneg_left (Int.le_of_lt hlt) hlength
    rw [abs_of_nonpos (by omega)] at h hfar
    omega
  · intro hlt
    by_contra hc
    have hle := Int.mul_le_mul_of_nonneg_left (Int.not_lt.1 hc) hlength
    rw [abs_of_pos (by omega)] at h hfar
    omega

/-- **Evidence is judged by its mean**, unless what is needed is too near to it. -/
theorem judged_of_far {s : Settings} (hs : IsShare s.evidenceScoreThreshold)
    (hw : ∀ e ∈ items, ∀ w, e.weightOverride = some w → IsShare w) (hfar : IsFar s.evidenceScoreThreshold items) :
    Judged s phase items (exactOutcome s.evidenceScoreThreshold phase items) := by
  obtain ⟨score, hscore, hnumber, htier, hnear⟩ := exists_near_score hw phase
  have hiff := hnear.lt_iff hfar hnumber hs.1
  have hjudged := judged_of_score s hscore
  have hsame : (if score.weightedScore < s.evidenceScoreThreshold
    ∨ score.minTierMet = false then Outcome.fail else .pass)
      = exactOutcome s.evidenceScoreThreshold phase items := by
    unfold exactOutcome
    simp only [← htier, ← Int.not_lt, ← hiff]
    by_cases hlow : score.weightedScore < s.evidenceScoreThreshold <;> cases score.minTierMet <;> simp [hlow]
  rwa [hsame] at hjudged

/-! ## Where the order decides -/

/-- An item of the strongest tier that weighs as much as it says. -/
def weighing (w : Float) : EvidenceItem := ⟨.first, some w⟩

theorem weight_weighing (w : Float) : (weighing w).weight = w := rfl

/-- Half of the last place of one: too little to count after it, while twice as much counts before it. -/
def speck : Float := 1.1102230246251565e-16

def heavyFirst (n : Nat) : List EvidenceItem :=
  weighing 1.0 :: weighing speck :: weighing speck :: List.replicate n (weighing 0.0)

def heavyLast (n : Nat) : List EvidenceItem :=
  weighing speck :: weighing speck :: weighing 1.0 :: List.replicate n (weighing 0.0)

theorem perm_heavyLast (n : Nat) : (heavyFirst n).Perm (heavyLast n) :=
  (List.Perm.swap (weighing speck) (weighing 1.0) _).trans
    (.cons (weighing speck) (.swap (weighing speck) (weighing 1.0) _))

theorem isShare_heavyFirst (n : Nat) : ∀ e ∈ heavyFirst n, ∀ w, e.weightOverride = some w → IsShare w := by
  have hone : IsShare 1.0 := ⟨by decide, by decide⟩
  have hspeck : IsShare speck := ⟨by decide, by decide⟩
  have hzero : IsShare 0.0 := ⟨by decide, by decide⟩
  intro e he w hw
  simp only [heavyFirst, List.mem_cons, List.mem_replicate] at he
  obtain rfl | rfl | rfl | ⟨-, rfl⟩ := he <;> cases hw <;> assumption

theorem totalWeight_nothing {x : Float} (h : IsSum x) (n : Nat) :
    totalWeight x (List.replicate n (weighing 0.0)) = x := by
  induction n with
  | zero => rfl
  | succ n ih =>
    rw [List.replicate_succ', totalWeight_concat, ih]
    exact h.add_zero

theorem meanWeight_heavyFirst (n : Nat) : meanWeight (heavyFirst n) = 1.0 / Float.ofNat (n + 3) := by
  have hsum : 0.0 + 1.0 + speck + speck = 1.0 := by decide
  have htotal : totalWeight 0.0 (heavyFirst n) = 1.0 := by
    rw [heavyFirst, totalWeight_cons, totalWeight_cons, totalWeight_cons, weight_weighing, weight_weighing, hsum]
    exact totalWeight_nothing (isSum_of_one_le (by decide) (by decide)) n
  have hlength : (heavyFirst n).length = n + 3 := by simp [heavyFirst]
  rw [meanWeight, htotal, hlength]

theorem meanWeight_heavyLast (n : Nat) : meanWeight (heavyLast n) = 1.0000000000000002 / Float.ofNat (n + 3) := by
  have hsum : 0.0 + speck + speck + 1.0 = 1.0000000000000002 := by decide
  have htotal : totalWeight 0.0 (heavyLast n) = 1.0000000000000002 := by
    rw [heavyLast, totalWeight_cons, totalWeight_cons, totalWeight_cons, weight_weighing, weight_weighing, hsum]
    exact totalWeight_nothing (isSum_of_one_le (by decide) (by decide)) n
  have hlength : (heavyLast n).length = n + 3 := by simp [heavyLast]
  rw [meanWeight, htotal, hlength]

theorem judged_weighing (s : Settings) (phase : Phase) {w : Float} {rest : List EvidenceItem}
    (hitems : items = weighing w :: rest) :
    Judged s phase items (if meanWeight items < s.evidenceScoreThreshold then .fail else .pass) := by
  have htier : items.any (fun e => e.tier.number ≤ phase.weakestTier.number) = true := by
    have hfirst : Tier.first.number ≤ phase.weakestTier.number := by cases phase <;> decide
    simp [hitems, weighing, hfirst]
  have hscore := score_toValue (hitems ▸ List.cons_ne_nil _ _) phase
  rw [htier] at hscore
  simpa using judged_of_score s hscore

/-- **Three items or more can pass in one order and fail in another**, where what is needed is the higher of the two
scores. -/
theorem exists_order_that_fails (phase : Phase) {n : Nat} (h3 : 3 ≤ n) (hn : n ≤ 2 ^ 51) :
    ∃ items items' needed, items.length = n
      ∧ (∀ e ∈ items, ∀ w, e.weightOverride = some w → IsShare w) ∧ items.Perm items' ∧ IsShare needed
      ∧ ∀ s : Settings, s.evidenceScoreThreshold = needed → Judged s phase items .fail
      ∧ Judged s phase items' .pass := by
  obtain ⟨m, rfl⟩ : ∃ m, n = m + 3 := ⟨n - 3, by omega⟩
  have hpos := level_ofNat_pos (show 0 < m + 3 by omega)
  have hlow : meanWeight (heavyFirst m) < meanWeight (heavyLast m) := by
    rw [meanWeight_heavyFirst, meanWeight_heavyLast]
    exact div_ofNat_lt (by omega) hn
  have hnumber : (meanWeight (heavyLast m)).isNaN = false := by
    rw [meanWeight_heavyLast]
    exact isNaN_div (by decide) (isNaN_ofNat _) hpos.ne'
  have hneeded : IsShare (meanWeight (heavyLast m)) := by
    have hcount : 1.0000000000000002 ≤ Float.ofNat (m + 3) :=
      Double.le_trans (show 1.0000000000000002 ≤ Float.ofNat 3 by decide) (ofNat_le_ofNat (by omega))
    rw [isShare_iff, meanWeight_heavyLast]
    exact ⟨zero_le_div (by decide) (isNaN_ofNat _) (by decide) hpos,
      div_le_one (by decide) (isNaN_ofNat _) (by decide) hcount hpos⟩
  have hlength : (heavyFirst m).length = m + 3 := by simp [heavyFirst]
  refine ⟨_, _, meanWeight (heavyLast m), hlength, isShare_heavyFirst m, perm_heavyLast m, hneeded, fun s hs => ?_⟩
  constructor
  · have hjudged := judged_weighing s phase (show heavyFirst m = weighing 1.0 :: _ from rfl)
    rwa [hs, if_pos hlow] at hjudged
  · have hjudged := judged_weighing s phase (show heavyLast m = weighing speck :: _ from rfl)
    rwa [hs, if_neg ((not_lt_iff hnumber hnumber).2 ((le_iff hnumber hnumber).2 (Int.le_refl _)))] at hjudged

/-- **How much the order of the evidence matters**, for shares that are listed in two orders.  Each way they have a
score, near to their mean, and hold the tier or not.  They come to the very same if there are no more than two, or few
enough digits in all of them, and they are judged alike if what is needed is not as near to the mean as the scores
are.  But for any number of items from three to `2^51` there are some that fail in one order and pass in another. -/
theorem order_of_evidence (phase : Phase) :
    (∀ items items', (∀ e ∈ items, ∀ w, e.weightOverride = some w → IsShare w) → items.Perm items' →
      (∃ score score', EvidenceScore.of (.arr (items.map EvidenceItem.toValue)) (.str phase.name) = .ok score
        ∧ EvidenceScore.of (.arr (items'.map EvidenceItem.toValue)) (.str phase.name) = .ok score'
        ∧ score.minTierMet = score'.minTierMet ∧ score.IsNear items ∧ score'.IsNear items)
      ∧ (items.length ≤ 2 ∨ HasFewDigits items → Alike phase items items')
      ∧ ∀ s : Settings, s.IsChecked → IsFar s.evidenceScoreThreshold items →
        Judged s phase items (exactOutcome s.evidenceScoreThreshold phase items)
        ∧ Judged s phase items' (exactOutcome s.evidenceScoreThreshold phase items))
    ∧ ∀ n, 3 ≤ n → n ≤ 2 ^ 51 → ∃ items items' needed, items.length = n
      ∧ (∀ e ∈ items, ∀ w, e.weightOverride = some w → IsShare w) ∧ items.Perm items' ∧ IsShare needed
      ∧ ∀ s : Settings, s.evidenceScoreThreshold = needed → Judged s phase items .fail
      ∧ Judged s phase items' .pass := by
  refine ⟨fun items items' hw h => ?_, fun n h3 hn => exists_order_that_fails phase h3 hn⟩
  have hw' : ∀ e ∈ items', ∀ w, e.weightOverride = some w → IsShare w := fun e he => hw e (h.mem_iff.2 he)
  refine ⟨?_, fun hexact => ?_, fun s hs hfar => ⟨judged_of_far hs.evidenceScoreThreshold hw hfar, ?_⟩⟩
  · obtain ⟨score, hscore, -, htier, hnear⟩ := exists_near_score hw phase
    obtain ⟨score', hscore', -, htier', hnear'⟩ := exists_near_score hw' phase
    refine ⟨score, score', hscore, hscore', ?_, hnear, ?_⟩
    · rw [Bool.eq_iff_iff, htier, htier', holdsTier_perm h]
    · unfold EvidenceScore.IsNear at hnear' ⊢
      rwa [h.length_eq, exactWeight_perm h]
  · rcases hexact with hfew | hdigits
    · exact alike_of_totalWeight h (totalWeight_of_few hw h hfew)
    · exact alike_of_totalWeight h (totalWeight_of_digits hw h hdigits)
  · rw [exactOutcome_perm h]
    exact judged_of_far hs.evidenceScoreThreshold hw' ((isFar_perm h).1 hfar)

/-- Six items of the four tiers reach a score of `0.7` in one order, and pass, and do not in another. -/
theorem tiers_in_another_order :
    let items : List EvidenceItem :=
      [⟨.first, none⟩, ⟨.second, none⟩, ⟨.first, none⟩, ⟨.third, none⟩, ⟨.fourth, none⟩, ⟨.second, none⟩]
    let items' : List EvidenceItem :=
      [⟨.second, none⟩, ⟨.second, none⟩, ⟨.third, none⟩, ⟨.first, none⟩, ⟨.fourth, none⟩, ⟨.first, none⟩]
    let answer (l : List EvidenceItem) := (Gate.evidenceSufficiency.evaluate
      ⟨Settings.standard.toValue, .str Phase.genesis.name, .advise⟩
      { (default : Proposal) with evidenceItems := l }.toValue (.fresh 100.0)).2
    items.Perm items' ∧ (∃ r r', answer items = .ok r ∧ r.outcome = .pass ∧ answer items' = .ok r' ∧ r'.outcome = .fail)
    ∧ (∃ score score', EvidenceScore.of (.arr (items.map EvidenceItem.toValue)) (.str Phase.genesis.name) = .ok score
      ∧ EvidenceScore.of (.arr (items'.map EvidenceItem.toValue)) (.str Phase.genesis.name) = .ok score'
      ∧ score.minTierMet = score'.minTierMet ∧ score.IsNear items ∧ score'.IsNear items)
    ∧ Alike .genesis (items.take 2) (items.take 2).reverse := by
  intro items items' answer
  have hw : ∀ l : List EvidenceItem, (∀ e ∈ l, e.weightOverride = none) →
      ∀ e ∈ l, ∀ w, e.weightOverride = some w → IsShare w := by
    intro l hl e he w hw
    rw [hl e he] at hw
    cases hw
  have hperm : items.Perm items' := by decide
  have hall := (order_of_evidence .genesis).1
  have hanswer : ∀ l : List EvidenceItem, l.length = 6 → ∃ r, answer l = .ok r
      ∧ r.outcome = if meanWeight l < 0.7 ∨ l.any (fun e => e.tier.number ≤ Phase.genesis.weakestTier.number) = false
        then .fail else .pass := by
    intro l hl
    have hprice : Gate.evidenceSufficiency.price .standard { (default : Proposal) with evidenceItems := l } = 7.0 := by
      show (1.0 : Float) + Float.ofNat l.length * 1.0 = 7.0
      rw [hl]
      decide +kernel
    have hcharge : (Budget.fresh 100.0).charge
      (Gate.evidenceSufficiency.price .standard { (default : Proposal) with evidenceItems := l })
        = .ok { Budget.fresh 100.0 with spent := 0.0 + 7.0 } := by
      rw [hprice]
      exact Budget.charge_eq_ok_iff.2 ⟨rfl, by decide, by decide, by decide, rfl⟩
    have hscore := score_toValue (show l ≠ [] from List.ne_nil_of_length_pos (by rw [hl]; decide)) .genesis
    obtain ⟨r, hr, houtcome⟩ :=
      Gate.evaluate_of_score .standard (p := { (default : Proposal) with evidenceItems := l }) hscore .advise hcharge
    exact ⟨r, congrArg Prod.snd hr, houtcome⟩
  obtain ⟨r, hr, houtcome⟩ := hanswer items rfl
  obtain ⟨r', hr', houtcome'⟩ := hanswer items' rfl
  have hscores := (hall items items' (hw _ (by decide)) hperm).1
  have htwo := (hall (items.take 2) _ (hw _ (by decide)) (List.reverse_perm _).symm).2.1 (.inl (by decide))
  refine ⟨hperm, ⟨r, r', hr, houtcome.trans ?_, hr', houtcome'.trans ?_⟩, hscores, htwo⟩
  · decide +kernel
  · decide +kernel

end PolicyGates
