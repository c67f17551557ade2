import PolicyGates.Proofs.Decimal.Numeral
import PolicyGates.Proofs.Value.Form
/-!
# Numbers in settings

What JSON takes for a number is also taken for one as a setting (`setting?_of_json`), so a finite number is read back
from the way it is written, the sign of zero aside, with any blanks around it (`setting?_text`).
-/
namespace PolicyGates

namespace Text

theorem trim_surrounded {before after cs : List Char} (hbefore : before.all isBlank = true)
    (hafter : after.all isBlank = true) (hcs : ∀ c ∈ cs, isBlank c = false) :
    trim (before ++ cs ++ after) = cs := by
  rcases List.eq_nil_or_concat cs with rfl | ⟨front, z, rfl⟩
  · exact (trim_eq_nil_iff _).2 (by simp [hbefore, hafter])
  · rw [List.concat_eq_append] at hcs ⊢
    have hz : ¬isBlank z = true := by simp [hcs z]
    obtain ⟨a, rest, ha⟩ := List.exists_cons_of_ne_nil (show front ++ [z] ≠ [] by simp)
    have hfront : (before ++ (front ++ [z]) ++ after).dropWhile isBlank = front ++ [z] ++ after := by
      rw [List.append_assoc, List.dropWhile_append_of_pos (List.all_eq_true.1 hbefore), ha, List.cons_append]
      exact List.dropWhile_cons_of_neg (by simp [hcs a (ha ▸ List.mem_cons_self)])
    have hback : (front ++ [z] ++ after).reverse.dropWhile isBlank = (front ++ [z]).reverse := by
      rw [List.reverse_append,
        List.dropWhile_append_of_pos fun c hc => List.all_eq_true.1 hafter c (List.mem_reverse.1 hc),
        List.reverse_append, List.reverse_singleton, List.singleton_append]
      exact List.dropWhile_cons_of_neg hz
    rw [trim, hfront, hback, List.reverse_reverse]

theorem isBlank_of_isDigit {c : Char} (h : c.isDigit = true) : isBlank c = false := by
  obtain ⟨hlow, hhigh⟩ := Char.isDigit_iff_toNat.1 h
  change 48 ≤ c.toNat at hlow
  change c.toNat ≤ 57 at hhigh
  have hranges : ∀ r ∈ blankRanges, r.2 < 48 ∨ 57 < r.1 := by decide
  rw [isBlank, List.any_eq_false]
  intro r hr
  have := hranges r hr
  simp only [Bool.and_eq_true, decide_eq_true_eq]
  omega

end Text

namespace Decimal

/-! ## Two ways of reading a number -/

/-- The digits behind the point, if there is one, and what follows them. -/
def fractionPart : List Char → List Char × List Char
  | '.' :: r => spanDigits r
  | r => ([], r)

theorem fractionPart_of_ne {cs : List Char} (h : ∀ r, cs = '.' :: r → False) : fractionPart cs = ([], cs) := by
  unfold fractionPart
  split
  · next r => exact (h r rfl).elim
  · rfl

/-- What is read behind the sign of a setting. -/
def unsignedSetting (negative : Bool) (cs : List Char) : Option Float :=
  if cs = "Infinity".toList then some (if negative then negInfinity else posInfinity)
  else
    let (whole, cs) := spanDigits cs
    let (fraction, cs) := fractionPart cs
    if whole = [] ∧ fraction = [] then none
    else
      match exponentPart cs with
      | some (e, []) => some (assemble negative whole fraction e)
      | _ => none

theorem splitSign_of_isDigit {c : Char} (h : c.isDigit = true) (r : List Char) :
    splitSign (c :: r) = (false, c :: r) := by
  unfold splitSign
  split
  · next heq =>
    cases heq
    cases h
  · next heq =>
    cases heq
    cases h
  · rfl

theorem decimal?_eq (cs : List Char) : decimal? cs = unsignedSetting (splitSign cs).1 (splitSign cs).2 := rfl

theorem unsignedSetting_of_unsignedPart {negative : Bool} {cs : List Char} {x : Float}
    (h : unsignedPart negative cs = some (x, [])) : unsignedSetting negative cs = some x := by
  have hword : ¬cs = "Infinity".toList := by
    rintro rfl
    cases h
  unfold unsignedPart at h
  unfold unsignedSetting
  rw [if_neg hword]
  generalize spanDigits cs = span at h ⊢
  obtain ⟨whole, tail⟩ := span
  dsimp only at h ⊢
  by_cases hwhole : whole = [] ∨ (whole.head? = some '0' ∧ 1 < whole.length)
  · rw [if_pos hwhole] at h
    cases h
  · have hne : whole ≠ [] := fun hc => hwhole (.inl hc)
    rw [if_neg hwhole] at h
    split at h
    · next r =>
      rw [show fractionPart ('.' :: r) = spanDigits r from rfl]
      generalize spanDigits r = span at h ⊢
      obtain ⟨fraction, r⟩ := span
      dsimp only at h ⊢
      by_cases hfraction : fraction = []
      · rw [if_pos hfraction] at h
        cases h
      · rw [if_neg hfraction] at h
        obtain ⟨⟨e, rest⟩, he, hx⟩ := Option.map_eq_some_iff.1 h
        cases hx
        rw [if_neg fun hc => hne hc.1, he]
    · next hr =>
      obtain ⟨⟨e, rest⟩, he, hx⟩ := Option.map_eq_some_iff.1 h
      cases hx
      rw [fractionPart_of_ne hr]
      dsimp only
      rw [if_neg fun hc => hne hc.1, he]

theorem isDigit_of_unsignedPart {negative : Bool} {c : Char} {r : List Char}
    (h : unsignedPart negative (c :: r) ≠ none) :
    c.isDigit = true := by
  by_contra hdigit
  have hspan : spanDigits (c :: r) = ([], c :: r) := spanDigits_append (List.forall_mem_nil _) fun a ha => by
    rw [← Option.some.inj ha]
    simpa using hdigit
  rw [unsignedPart, hspan] at h
  exact h rfl

/-- **What JSON takes for a number is taken for the same number as a setting.** -/
theorem decimal?_of_json {cs : List Char} {x : Float} (h : json cs = some (x, [])) : decimal? cs = some x := by
  rw [decimal?_eq]
  cases cs with
  | nil => cases h
  | cons c r =>
    by_cases hminus : c = '-'
    · subst hminus
      exact unsignedSetting_of_unsignedPart ((json_minus r).symm.trans h)
    · rw [json_of_ne hminus] at h
      have hdigit := isDigit_of_unsignedPart (h ▸ Option.some_ne_none _)
      rw [splitSign_of_isDigit hdigit]
      exact unsignedSetting_of_unsignedPart h

theorem not_json_of_radix {c : Char} {r : List Char} {x : Float} (hc : c ∈ ['x', 'X', 'o', 'O', 'b', 'B']) :
    json ('0' :: c :: r) ≠ some (x, []) := by
  have hmarks : ∀ c ∈ ['x', 'X', 'o', 'O', 'b', 'B'], decide (c.isDigit = false ∧ c ≠ '.' ∧ c ≠ 'e' ∧ c ≠ 'E') = true :=
    List.all_eq_true.1 rfl
  have hends := of_decide_eq_true (hmarks c hc)
  have hread := unsignedPart_whole false isDigit_zero (List.cons_ne_nil _ _) (fun _ => Nat.le_refl 1)
    (exponentPart_ends (r := c :: r) fun a ha => Option.some.inj ha ▸ hends)
    (fun a ha => Option.some.inj ha ▸ ⟨hends.1, hends.2.1⟩)
  rw [json_digit rfl]
  intro h
  cases hread.symm.trans h

theorem setting?_of_json {s : String} {x : Float} (h : json (Text.trim s.toList) = some (x, [])) :
    setting? s = some x := by
  unfold setting?
  split
  · next ht =>
    rw [ht] at h
    cases h
  iterate 6
    · next ht =>
      rw [ht] at h
      exact (not_json_of_radix (by decide) h).elim
  · exact decimal?_of_json h

/-! ## Numbers that were written -/

theorem isBlank_of_mem_chars {x : Float} (hx : x.isFinite = true) {c : Char} (h : c ∈ chars x) :
    Text.isBlank c = false := by
  have hmarks : ∀ c ∈ ['.', 'e', '-', '+'], (!Text.isBlank c) = true := List.all_eq_true.1 rfl
  rcases Value.mem_chars (ofFloat?_ne_none hx) h with hdigit | hmark
  · exact Text.isBlank_of_isDigit hdigit
  · simpa using hmarks c hmark

theorem allBlank_text (x : Float) (hx : x.isFinite = true) (before after : String) :
    Text.allBlank (before ++ text x ++ after) = false := by
  obtain ⟨c, r, hc⟩ := List.exists_cons_of_ne_nil (Value.chars_ne_nil x)
  have hblank := isBlank_of_mem_chars hx (hc ▸ List.mem_cons_self)
  simp [Text.allBlank, text, hc, hblank]

/-- **A finite number is read back as a setting from the way it is written**, the sign of zero aside, with any blanks
around it. -/
theorem setting?_text {x : Float} (hx : x.isFinite = true) {before after : String}
    (hbefore : Text.allBlank before = true) (hafter : Text.allBlank after = true) :
    setting? (before ++ text x ++ after) = some (Value.unsigned x) := by
  have hread := json_chars hx (r := []) (fun c hc => by cases hc)
  rw [List.append_nil] at hread
  refine setting?_of_json ?_
  rw [String.toList_append, String.toList_append, text, String.toList_ofList,
    Text.trim_surrounded hbefore hafter fun c hc => isBlank_of_mem_chars hx hc]
  exact hread

end Decimal

end PolicyGates
