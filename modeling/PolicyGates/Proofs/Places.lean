import PolicyGates.Proofs.Schema
/-!
# Where a value is out of place

Every issue of a check comes with the path to it.  Which paths these are can be said without the check (`Places`): a
value that is not of the kind it should be is wrong itself, a list is wrong where its items are, and an object where
its members are, and itself if it has a member that nobody asked for.  The places that a check tells are exactly
these, whatever the check is built of (`told_of_flat`, `told_optional`, `told_listOf`, `told_closedObject`).
-/
namespace PolicyGates.Schema

/-- The places of a value that are wrong, each given by the path to it. -/
abbrev Places := Value → List String → Prop

namespace Places

/-- The value itself, unless it is what it should be. -/
def outside (D : Value → Prop) : Places := fun v path => path = [] ∧ ¬D v

/-- None, if there is no value. -/
def unlessAbsent (P : Places) : Places
  | .absent, _ => False
  | v, path => P v path

/-- Whatever is wrong in an item of a list, under its index; anything else is wrong itself. -/
def inItems (P : Places) : Places
  | .arr vs, path => ∃ (i : Nat) (w : Value) (rest : List String), vs[i]? = some w
    ∧ path = toString i :: rest ∧ P w rest
  | _, path => path = []

/-- Whatever is wrong in one of the named members of an object, under its name, and the object itself if it has any
other; anything else is wrong itself. -/
def inMembers (ps : List (String × Places)) : Places
  | .obj ms, path => (path = [] ∧ ∃ k ∈ Members.keys ms, ∀ p ∈ ps, k ≠ .whole p.1)
      ∨ ∃ p ∈ ps, ∃ rest, path = p.1 :: rest ∧ p.2 (Members.get p.1 ms) rest
  | _, path => path = []

end Places

/-- The places that a check has an issue with. -/
def told (c : Check) : Places := fun v path => ∃ i ∈ c v, i.path = path

theorem told_eq {c : Check} {P : Places} (h : ∀ v path, told c v path ↔ P v path) : told c = P :=
  funext fun v => funext fun path => propext (h v path)

/-! ## Checks of the value itself -/

/-- A check that has issues with the value itself only. -/
def IsFlat (c : Check) : Prop := ∀ v, ∀ i ∈ c v, i.path = []

theorem path_of_mem_refuse {message : Text} {i : Issue} (h : i ∈ refuse message) : i.path = [] := by
  rw [List.mem_singleton.1 h]

theorem isFlat_number (rules : List NumberRule) : IsFlat (number rules) := by
  intro v i hi
  unfold number at hi
  split at hi
  · split at hi
    · exact path_of_mem_refuse hi
    · obtain ⟨r, -, hr⟩ := List.mem_flatMap.1 hi
      exact path_of_mem_refuse hr
  · exact path_of_mem_refuse hi

theorem isFlat_text : IsFlat text := by
  intro v i hi
  unfold text at hi
  split at hi
  · cases hi
  · exact path_of_mem_refuse hi

theorem isFlat_filledText : IsFlat filledText := by
  intro v i hi
  unfold filledText at hi
  split at hi
  · split at hi
    · exact path_of_mem_refuse hi
    · cases hi
  · exact path_of_mem_refuse hi

theorem isFlat_oneOf (names : List String) : IsFlat (oneOf names) := by
  intro v i hi
  unfold oneOf at hi
  dsimp only at hi
  split at hi
  · split at hi
    · cases hi
    · exact path_of_mem_refuse hi
  · exact path_of_mem_refuse hi

theorem isFlat_oneNumberOf (numbers : List Float) : IsFlat (oneNumberOf numbers) := by
  intro v i hi
  unfold oneNumberOf at hi
  split at hi
  · split at hi
    · cases hi
    · exact path_of_mem_refuse hi
  · exact path_of_mem_refuse hi

/-- **A flat check tells of the value itself, unless it passes.** -/
theorem told_of_flat {c : Check} {D : Value → Prop} (hflat : IsFlat c) (hD : ∀ v, c v = [] ↔ D v) :
    told c = Places.outside D := by
  refine told_eq fun v path => ⟨?_, ?_⟩
  · rintro ⟨i, hi, rfl⟩
    exact ⟨hflat v i hi, fun hv => List.ne_nil_of_mem hi ((hD v).2 hv)⟩
  · rintro ⟨rfl, hv⟩
    obtain ⟨i, hi⟩ := List.exists_mem_of_ne_nil _ (mt (hD v).1 hv)
    exact ⟨i, hi, hflat v i hi⟩

/-! ## Checks of parts -/

theorem told_optional (c : Check) : told (optional c) = (told c).unlessAbsent := by
  refine told_eq fun v path => ?_
  cases v with
  | absent => exact iff_of_false (fun ⟨i, hi, _⟩ => List.not_mem_nil hi) id
  | _ => exact Iff.rfl

theorem exists_mem_under {key : String} {issues : List Issue} {path : List String} :
    (∃ i ∈ under key issues, i.path = path) ↔ ∃ rest, path = key :: rest ∧ ∃ i ∈ issues, i.path = rest := by
  unfold under
  constructor
  · rintro ⟨i, hi, rfl⟩
    obtain ⟨j, hj, rfl⟩ := List.mem_map.1 hi
    exact ⟨j.path, rfl, j, hj, rfl⟩
  · rintro ⟨rest, rfl, j, hj, rfl⟩
    exact ⟨_, List.mem_map.2 ⟨j, hj, rfl⟩, rfl⟩

theorem told_itemIssues (c : Check) (vs : List Value) (n : Nat) (path : List String) :
    (∃ i ∈ itemIssues c n vs, i.path = path)
    ↔ ∃ (k : Nat) (w : Value) (rest : List String), vs[k]? = some w ∧ path = toString (n + k) :: rest
      ∧ told c w rest := by
  induction vs generalizing n with
  | nil => simp [itemIssues]
  | cons v vs ih =>
    simp only [itemIssues, List.mem_append, or_and_right, exists_or, exists_mem_under, ih]
    constructor
    · rintro (⟨rest, hpath, hv⟩ | ⟨k, w, rest, hw, hpath, htold⟩)
      · exact ⟨0, v, rest, rfl, hpath, hv⟩
      · exact ⟨k + 1, w, rest, hw, by rwa [Nat.add_assoc, Nat.add_comm 1 k] at hpath, htold⟩
    · rintro ⟨k, w, rest, hw, hpath, htold⟩
      cases k with
      | zero =>
        cases hw
        exact .inl ⟨rest, hpath, htold⟩
      | succ k => exact .inr ⟨k, w, rest, hw, by rwa [Nat.add_assoc, Nat.add_comm 1 k], htold⟩

theorem told_of_expected {what : Text} {v : Value} {path : List String} :
    (∃ i ∈ expected what v, i.path = path) ↔ path = [] := by
  unfold expected refuse
  simp only [List.mem_singleton, exists_eq_left]
  exact eq_comm

/-- **The places in a list are those in its items.** -/
theorem told_listOf (c : Check) : told (listOf c) = (told c).inItems := by
  refine told_eq fun v path => ?_
  cases v with
  | arr vs =>
    have hitems := told_itemIssues c vs 0 path
    simp only [Nat.zero_add] at hitems
    exact hitems
  | _ => exact told_of_expected

theorem mem_listing {ms : Members} {k : Text} : k ∈ Members.listing ms ↔ k ∈ ms.keys := by
  unfold Members.listing
  simp only [List.mem_append, List.mem_map, List.mem_mergeSort, List.mem_filterMap, Option.map_eq_some_iff,
    List.mem_filter, Option.isNone_iff_eq_none]
  constructor
  · rintro (⟨a, ⟨k', hk', n, -, rfl⟩, rfl⟩ | ⟨hk, -⟩)
    · exact hk'
    · exact hk
  · intro hk
    cases hindex : Members.index? k with
    | none => exact .inr ⟨hk, rfl⟩
    | some n => exact .inl ⟨(n, k), ⟨k, hk, n, hindex, rfl⟩, rfl⟩

theorem unknown_eq_nil {fs : Fields} {ms : Members} : fs.unknown ms = [] ↔ ∀ k ∈ ms.keys, ∃ f ∈ fs, k = .whole f.1 := by
  unfold Fields.unknown
  simp only [List.filter_eq_nil_iff, mem_listing, Bool.not_eq_true', Bool.not_eq_false, List.any_eq_true, beq_iff_eq]
  exact forall₂_congr fun k _ => exists_congr fun f => and_congr_right fun _ => eq_comm

theorem told_issues {fs : Fields} {ms : Members} {path : List String} : (∃ i ∈ fs.issues ms, i.path = path)
    ↔ ∃ f ∈ fs, ∃ rest, path = f.1 :: rest ∧ told f.2 (ms.get f.1) rest := by
  unfold Fields.issues
  constructor
  · rintro ⟨i, hi, hpath⟩
    obtain ⟨f, hf, hi⟩ := List.mem_flatMap.1 hi
    exact ⟨f, hf, exists_mem_under.1 ⟨i, hi, hpath⟩⟩
  · rintro ⟨f, hf, hrest⟩
    obtain ⟨i, hi, hpath⟩ := exists_mem_under.2 hrest
    exact ⟨i, List.mem_flatMap.2 ⟨f, hf, hi⟩, hpath⟩

/-- **The places in an object are those in its members**, and the object itself if it has a key too many. -/
theorem told_closedObject (fs : Fields) :
    told (closedObject fs) = Places.inMembers (fs.map fun f => (f.1, told f.2)) := by
  refine told_eq fun v path => ?_
  cases v with
  | obj ms =>
    have hunknown : fs.unknown ms = [] ↔ ¬∃ k ∈ Members.keys ms, ∀ f ∈ fs, k ≠ .whole f.1 := by
      rw [unknown_eq_nil]
      push Not
      rfl
    simp only [told, closedObject, Places.inMembers, List.mem_append, or_and_right, exists_or, told_issues,
      List.mem_map, exists_exists_and_eq_and, forall_exists_index, and_imp, forall_apply_eq_imp_iff₂]
    rw [or_comm]
    refine or_congr_left ?_
    split
    · next h =>
      refine iff_of_false ?_ fun hc => hunknown.1 h hc.2
      rintro ⟨i, hi, -⟩
      exact List.not_mem_nil hi
    · next h =>
      refine Iff.trans ⟨?_, ?_⟩ (and_iff_left (not_not.1 (mt hunknown.2 h))).symm
      · rintro ⟨i, hi, rfl⟩
        exact path_of_mem_refuse hi
      · rintro rfl
        exact ⟨_, List.mem_singleton_self _, rfl⟩
  | _ => exact told_of_expected

end PolicyGates.Schema
