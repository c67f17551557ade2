import PolicyGates.Proofs.Calls
import PolicyGates.Proofs.Double.Mean
import PolicyGates.Proofs.Gate.Verdicts
/-!
# Evidence in which every item is enough

Where every item weighs as much as a score has to, one would think that the mean does too.  But the mean is rounded,
sum by sum, and so such evidence is judged insufficient where the needed score falls short of itself when it is added
up and divided again.  That depends on the score and the number of items only (`suffices_iff`): the least that items
can weigh is the needed score itself, and sums and quotients grow with their parts.
-/
namespace PolicyGates

open Schema Double

variable {needed : Float} {phase : Phase} {items : List EvidenceItem}

/-- Every item weighs as much as is needed, and one is strong enough for the phase. -/
structure IsUniform (needed : Float) (phase : Phase) (items : List EvidenceItem) : Prop where
  weights : ∀ e ∈ items, ∀ w, e.weightOverride = some w → IsShare w
  needed_le : ∀ e ∈ items, needed ≤ e.weight
  holdsTier : HoldsTier phase items

/-- The evidence is enough: its score is as high as is needed and it holds the tier, and the gate for evidence passes
it in every proposal whose budget can pay the gate. -/
structure Suffices (needed : Float) (phase : Phase) (items : List EvidenceItem) : Prop where
  score : ∃ score, EvidenceScore.of (.arr (items.map EvidenceItem.toValue)) (.str phase.name) = .ok score
    ∧ needed ≤ score.weightedScore ∧ score.minTierMet = true
  passes : ∀ (s : Settings) (p : Proposal) (mode : Mode) (b b' : Budget), s.evidenceScoreThreshold = needed →
    p.evidenceItems = items → b.charge (Gate.evidenceSufficiency.price s p) = .ok b' →
    ∃ r, Gate.evidenceSufficiency.evaluate ⟨s.toValue, .str phase.name, mode⟩ p.toValue b = (b', .ok r)
      ∧ r.outcome = .pass

/-! ## The least mean -/

section Mean

variable (hneeded : IsShare needed) (hw : ∀ e ∈ items, ∀ w, e.weightOverride = some w → IsShare w)
  (hle : ∀ e ∈ items, needed ≤ e.weight)

include hneeded hw hle

/-- **Sums of weights that are enough are no less than that of the needed score.** -/
theorem repeated_le_totalWeight : repeated needed items.length ≤ totalWeight 0.0 items := by
  induction items using List.reverseRecOn with
  | nil => exact (by decide : (0.0 : Float) ≤ 0.0)
  | append_singleton l e ih =>
    obtain ⟨hl, hshare⟩ := weights_of_concat hw
    have hlast : e ∈ l ++ [e] := List.mem_append_right _ (List.mem_singleton_self e)
    have hprevious := ih hl fun e' he' => hle e' (List.mem_append_left _ he')
    have hrepeated := (repeated_le_counted hneeded.isFinite hneeded.zero_le hneeded.le_one l.length).1
    rw [List.length_append, List.length_singleton, totalWeight_concat]
    exact Double.add_le_add hrepeated (totalWeight_le_counted hl).1 hneeded.isFinite hshare.isFinite
      hprevious (hle e hlast)

/-- **The least mean is that of the needed score with itself.** -/
theorem meanOf_le_meanWeight (hne : items ≠ []) : meanOf needed items.length ≤ meanWeight items := by
  have hpos := level_ofNat_pos (List.length_pos_iff.2 hne)
  obtain ⟨hfinite, -, -⟩ := totalWeight_le_counted hw
  obtain ⟨hrepeated, hlow, -⟩ := repeated_le_counted hneeded.isFinite hneeded.zero_le hneeded.le_one items.length
  rw [zero_le_iff (isNaN_of_isFinite hrepeated)] at hlow
  exact div_le_div hrepeated hfinite (isNaN_ofNat _) hlow hpos (repeated_le_totalWeight hneeded hw hle)

end Mean

/-- Items of the strongest tier that weigh just as much as is needed. -/
def leastItems (needed : Float) (n : Nat) : List EvidenceItem := List.replicate n ⟨.first, some needed⟩

theorem totalWeight_leastItems (needed : Float) (n : Nat) :
    totalWeight 0.0 (leastItems needed n) = repeated needed n := by
  induction n with
  | zero => rfl
  | succ n ih =>
    rw [leastItems, List.replicate_succ', ← leastItems, totalWeight_concat, ih]
    rfl

theorem meanWeight_leastItems (needed : Float) (n : Nat) : meanWeight (leastItems needed n) = meanOf needed n := by
  rw [meanWeight, totalWeight_leastItems, leastItems, List.length_replicate]
  rfl

theorem isUniform_leastItems (hneeded : IsShare needed) (phase : Phase) {n : Nat} (hn : 0 < n) :
    IsUniform needed phase (leastItems needed n) := by
  have hitem : ∀ e ∈ leastItems needed n, e = ⟨.first, some needed⟩ := fun e he => List.eq_of_mem_replicate he
  refine ⟨fun e he w hw => ?_, fun e he => ?_, ⟨.first, some needed⟩, List.mem_replicate.2 ⟨hn.ne', rfl⟩, ?_⟩
  · rw [hitem e he] at hw
    cases hw
    exact hneeded
  · rw [hitem e he]
    exact (le_iff hneeded.1 hneeded.1).2 (Int.le_refl _)
  · show Tier.first.number ≤ phase.weakestTier.number
    cases phase <;> decide

/-! ## The score and the gate -/

theorem IsUniform.ne_nil (h : IsUniform needed phase items) : items ≠ [] := by
  obtain ⟨e, he, -⟩ := h.holdsTier
  exact List.ne_nil_of_mem he

theorem IsUniform.score (h : IsUniform needed phase items) :
    EvidenceScore.of (.arr (items.map EvidenceItem.toValue)) (.str phase.name) = .ok ⟨meanWeight items, true⟩ := by
  obtain ⟨e, he, htier⟩ := h.holdsTier
  have hmet : items.any (fun e => e.tier.number ≤ phase.weakestTier.number) = true :=
    List.any_eq_true.2 ⟨e, he, decide_eq_true htier⟩
  rw [score_toValue h.ne_nil, hmet]

/-- **What the gate for evidence says once it is paid for**, told by the score. -/
theorem Gate.evaluate_of_score (s : Settings) {p : Proposal} {score : EvidenceScore}
    (h : EvidenceScore.of (.arr (p.evidenceItems.map EvidenceItem.toValue)) (.str phase.name) = .ok score) (mode : Mode)
    {b b' : Budget} (hcharge : b.charge (Gate.evidenceSufficiency.price s p) = .ok b') :
    ∃ r, Gate.evidenceSufficiency.evaluate ⟨s.toValue, .str phase.name, mode⟩ p.toValue b = (b', .ok r)
      ∧ r.outcome = if score.weightedScore < s.evidenceScoreThreshold
        ∨ score.minTierMet = false then .fail else .pass := by
  obtain ⟨message, hjudged⟩ := Gate.judgeEvidence_of_score s h
  have hcharged : b.chargeAny (.num (Gate.evidenceSufficiency.price s p)) = .ok b' :=
    Budget.chargeAny_eq_ok_iff.2 ⟨_, rfl, hcharge⟩
  unfold Gate.evaluate
  simp only [Gate.cost_toValue, hcharged, Gate.finding, Gate.judge, hjudged]
  refine ⟨_, rfl, ?_⟩
  split <;> rfl

/-- **Uniform evidence is enough if and only if its mean is.** -/
theorem IsUniform.suffices_iff (hneeded : IsShare needed) (h : IsUniform needed phase items) :
    Suffices needed phase items ↔ needed ≤ meanWeight items := by
  refine ⟨fun hs => ?_, fun hle => ⟨⟨_, h.score, hle, rfl⟩, fun s p mode b b' hthreshold hitems hcharge => ?_⟩⟩
  · obtain ⟨score, hscore, hle, -⟩ := hs.score
    rw [h.score] at hscore
    cases hscore
    exact hle
  · subst hitems
    have hnot : ¬meanWeight p.evidenceItems < needed :=
      (not_lt_iff (isNaN_meanWeight h.weights h.ne_nil) hneeded.1).2 hle
    obtain ⟨r, hr, hpass⟩ := Gate.evaluate_of_score s h.score mode hcharge
    rw [hthreshold, if_neg (by simpa using hnot)] at hpass
    exact ⟨r, hr, hpass⟩

/-- **When evidence in which every item is enough is enough as a whole**: for each number of items, if and only if the
needed score is at most its mean with itself.  It is for two items, and for scores with few digits up to as many items
as their sums are exact for.  And the score of such evidence is never below what is needed by more than a part in
`2^52` for each item. -/
theorem uniform_suffices (hneeded : IsShare needed) :
    (∀ n, 0 < n → ∀ phase, (∀ items, items.length = n → IsUniform needed phase items → Suffices needed phase items)
      ↔ needed ≤ meanOf needed n)
    ∧ (∀ n, 0 < n → (n ≤ 2 ∨ ∃ m k, level needed = (m * 2 ^ k : Nat) ∧ n * m ≤ 2 ^ 53) → needed ≤ meanOf needed n)
    ∧ ∀ phase items, IsUniform needed phase items →
      ∃ score, EvidenceScore.of (.arr (items.map EvidenceItem.toValue)) (.str phase.name) = .ok score
        ∧ 2 ^ 52 * level needed ≤ 2 ^ 52 * level score.weightedScore + items.length * level needed := by
  have hfinite := hneeded.isFinite
  refine ⟨fun n hn phase => ⟨fun hall => ?_, fun hmean items hlength h => ?_⟩, fun n hn hexact => ?_,
    fun phase items h => ?_⟩
  · -- among all items those that weigh the least decide
    have hleast := isUniform_leastItems hneeded phase hn
    rw [← meanWeight_leastItems]
    exact (hleast.suffices_iff hneeded).1 (hall _ (List.length_replicate ..) hleast)
  · rw [← hlength] at hmean
    exact (h.suffices_iff hneeded).2 (le_trans hmean (meanOf_le_meanWeight hneeded h.weights h.needed_le h.ne_nil))
  · exact le_meanOf_of_few hfinite hneeded.zero_le hneeded.le_one hn hexact
  · refine ⟨_, h.score, ?_⟩
    have hle := meanOf_le_meanWeight hneeded h.weights h.needed_le h.ne_nil
    have hpos := List.length_pos_iff.2 h.ne_nil
    rw [le_iff (isNaN_meanOf hfinite hneeded.zero_le hneeded.le_one hpos).1
      (isNaN_meanWeight h.weights h.ne_nil)] at hle
    have hshort := le_meanOf hfinite hneeded.zero_le hneeded.le_one hpos
    show 2 ^ 52 * level needed ≤ 2 ^ 52 * level (meanWeight items) + items.length * level needed
    omega

/-- Two items of the second tier reach a score of `0.7`, and three do not. -/
theorem three_fall_short :
    let items : List EvidenceItem := List.replicate 3 ⟨.second, none⟩
    IsShare 0.7 ∧ (0.7 : Float) ≤ meanOf 0.7 2 ∧ ¬(0.7 : Float) ≤ meanOf 0.7 3
    ∧ IsUniform 0.7 .genesis items ∧ ¬Suffices 0.7 .genesis items := by
  intro items
  have hneeded : IsShare 0.7 := ⟨by decide, by decide⟩
  have htwo : (0.7 : Float) ≤ meanOf 0.7 2 := (uniform_suffices hneeded).2.1 2 (by decide) (.inl (Nat.le_refl 2))
  have hthree : ¬(0.7 : Float) ≤ meanWeight items := by decide +kernel
  have hitem : ∀ e ∈ items, e = ⟨.second, none⟩ := fun e he => List.eq_of_mem_replicate he
  have huniform : IsUniform 0.7 .genesis items := by
    refine ⟨fun e he w hw => ?_, fun e he => ?_, ⟨.second, none⟩, List.mem_replicate.2 ⟨by decide, rfl⟩, by decide⟩
    · rw [hitem e he] at hw
      cases hw
    · rw [hitem e he]
      decide
  exact ⟨hneeded, htwo, by decide +kernel, huniform, fun h => hthree ((huniform.suffices_iff hneeded).1 h)⟩

end PolicyGates
