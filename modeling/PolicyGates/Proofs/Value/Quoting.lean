import PolicyGates.Proofs.Rejection
/-!
# Values that can be quoted

Not every value has a text: an object with a member under `toString` has none, and neither has a list in which one is
found, however deep (`shown?_eq_none_iff`).  And a value is gone through only so deep, so that one with a text is
quoted if its lists do not stand in one another deeper than that (`quoteWithin_eq_ok_iff`).
-/
namespace PolicyGates.Value

/-! ## Values without a text -/

/-- An object that would have to say by a member of its own how it is shown, and a list that holds a value without a
text. -/
inductive IsTextless : Value → Prop
  | obj {ms : Members} (key : .whole "toString" ∈ ms.keys) : IsTextless (.obj ms)
  | arr {vs : List Value} {v : Value} (mem : v ∈ vs) (item : IsTextless v) : IsTextless (.arr vs)

theorem isTextless_obj_iff {ms : Members} :
    IsTextless (.obj ms) ↔ ms.any (fun m => m.1 == .whole "toString") = true := by
  rw [List.any_eq_true]
  constructor
  · rintro ⟨hkey⟩
    obtain ⟨m, hm, hname⟩ := List.mem_map.1 hkey
    exact ⟨m, hm, beq_iff_eq.2 hname⟩
  · rintro ⟨m, hm, hname⟩
    exact .obj (beq_iff_eq.1 hname ▸ List.mem_map_of_mem hm)

theorem isTextless_arr_iff {vs : List Value} : IsTextless (.arr vs) ↔ ∃ v ∈ vs, IsTextless v :=
  ⟨fun h => by cases h with | arr hv h => exact ⟨_, hv, h⟩, fun ⟨_, hv, h⟩ => .arr hv h⟩

theorem not_isTextless_of_isNothing {v : Value} (h : v.isNothing = true) : ¬v.IsTextless := by
  rintro ⟨⟩ <;> cases h

/-- The text of an item of a list; a missing one has the empty text. -/
def shownItem? (v : Value) : Option Text := if v.isNothing then some "" else v.shown?

theorem shownItems?_cons (v : Value) (r : List Value) :
    shownItems? (v :: r) = v.shownItem?.bind fun s => (shownItems? r).map (s :: ·) := by
  cases v with
  | absent | null => rfl
  | _ =>
    simp only [shownItems?, shownItem?, isNothing]
    generalize shown? _ = text
    cases text <;> cases shownItems? r <;> rfl

theorem shownItems?_cons_eq_none_iff (v : Value) (r : List Value) :
    shownItems? (v :: r) = none ↔ v.shownItem? = none ∨ shownItems? r = none := by
  rw [shownItems?_cons]
  cases v.shownItem? <;> simp

mutual

/-- **Which values have no text.** -/
theorem shown?_eq_none_iff : (v : Value) → (shown? v = none ↔ IsTextless v)
  | .absent | .null | .bool _ | .num _ | .str _ =>
    iff_of_false (by rw [shown?]; exact Option.some_ne_none _) (fun h => by cases h)
  | .arr vs => by rw [shown?, Option.map_eq_none_iff, shownItems?_eq_none_iff vs, isTextless_arr_iff]
  | .obj ms => by
    rw [shown?, isTextless_obj_iff]
    split
    · next h => exact iff_of_true rfl h
    · next h => exact iff_of_false (Option.some_ne_none _) h

theorem shownItems?_eq_none_iff : (vs : List Value) → (shownItems? vs = none ↔ ∃ v ∈ vs, IsTextless v)
  | [] => by simp [shownItems?]
  | v :: r => by
    have hitem : v.shownItem? = none ↔ v.IsTextless := by
      unfold shownItem?
      split
      · next h => exact iff_of_false (Option.some_ne_none _) (not_isTextless_of_isNothing h)
      · exact shown?_eq_none_iff v
    rw [shownItems?_cons_eq_none_iff, hitem, shownItems?_eq_none_iff r, List.exists_mem_cons_iff]

end

/-! ## Values of some depth -/

mutual

/-- How deep lists stand in one another in a value. -/
def nesting : Value → Nat
  | .arr vs => deepest vs + 1
  | _ => 0

def deepest : List Value → Nat
  | [] => 0
  | v :: r => max (nesting v) (deepest r)

end

theorem quote_eq_ok_iff {v : Value} {shown : Text} : v.quote = .ok shown ↔ v.shown? = some shown := by
  unfold quote
  cases v.shown? <;> simp

theorem nesting_of_isNothing {v : Value} (h : v.isNothing = true) : v.nesting = 0 := by
  cases v <;> first | rfl | cases h

theorem quoteWithin_of_no_items {v : Value} (h : ∀ vs, v ≠ .arr vs) (depth : Nat) : v.quoteWithin depth = v.quote := by
  cases v with
  | arr vs => exact absurd rfl (h vs)
  | _ => cases depth <;> rfl

mutual

/-- **Which values are quoted**: those with a text that are not too deep. -/
theorem quoteWithin_eq_ok_iff : (depth : Nat) → (v : Value) → (shown : Text) →
    (v.quoteWithin depth = .ok shown ↔ v.shown? = some shown ∧ v.nesting ≤ depth)
  | _, .absent, _ | _, .null, _ | _, .bool _, _ | _, .num _, _ | _, .str _, _ | _, .obj _, _ => by
    rw [quoteWithin_of_no_items (by simp), quote_eq_ok_iff, nesting, and_iff_left (Nat.zero_le _)]
    simp
  | 0, .arr vs, shown => by
    rw [quoteWithin, nesting]
    exact iff_of_false (fun h => by cases h) fun h => Nat.not_succ_le_zero _ h.2
  | depth + 1, .arr vs, shown => by
    have hitems := quoteItemsWithin_eq_ok_iff depth vs
    rw [quoteWithin, shown?, nesting, Nat.succ_le_succ_iff]
    cases hquoted : quoteItemsWithin depth vs with
    | ok ss =>
      obtain ⟨hss, hle⟩ := (hitems ss).1 hquoted
      simp [hss, hle, Except.map]
    | error f =>
      refine iff_of_false (fun h => by cases h) fun ⟨hshown, hle⟩ => ?_
      obtain ⟨ss, hss, -⟩ := Option.map_eq_some_iff.1 hshown
      cases hquoted.symm.trans ((hitems ss).2 ⟨hss, hle⟩)

theorem quoteItemsWithin_eq_ok_iff : (depth : Nat) → (vs : List Value) → (ss : List Text) →
    (quoteItemsWithin depth vs = .ok ss ↔ shownItems? vs = some ss ∧ deepest vs ≤ depth)
  | _, [], ss => by simp [quoteItemsWithin, shownItems?, deepest]
  | depth, v :: r, ss => by
    have hitem : ∀ s, (if v.isNothing then .ok "" else v.quoteWithin depth : Except Failure Text) = .ok s
        ↔ v.shownItem? = some s ∧ v.nesting ≤ depth := fun s => by
      unfold shownItem?
      split
      · next h => simp [nesting_of_isNothing h]
      · exact quoteWithin_eq_ok_iff depth v s
    rw [quoteItemsWithin, shownItems?_cons, deepest, Nat.max_le]
    constructor
    · intro h
      obtain ⟨s, hs, hr⟩ := exists_of_bind_eq_ok h
      obtain ⟨ss', hss', rfl⟩ := exists_of_map_eq_ok hr
      obtain ⟨hshown, hv⟩ := (hitem s).1 hs
      obtain ⟨hshown', hr⟩ := (quoteItemsWithin_eq_ok_iff depth r ss').1 hss'
      rw [hshown, hshown']
      exact ⟨rfl, hv, hr⟩
    · rintro ⟨h, hv, hr⟩
      obtain ⟨s, hs, hss⟩ := Option.bind_eq_some_iff.1 h
      obtain ⟨ss', hss', rfl⟩ := Option.map_eq_some_iff.1 hss
      rw [(hitem s).2 ⟨hs, hv⟩, Except.bind, (quoteItemsWithin_eq_ok_iff depth r ss').2 ⟨hss', hr⟩]
      rfl

end

mutual

theorem isForeign_of_quoteWithin {f : Failure} :
    (depth : Nat) → (v : Value) → v.quoteWithin depth = .error f → f.IsForeign
  | _, .absent, h | _, .null, h | _, .bool _, h | _, .num _, h | _, .str _, h | _, .obj _, h => by
    rw [quoteWithin_of_no_items (by simp)] at h
    rw [quote_wantsText _ f h]
    exact Failure.isForeign_noText
  | 0, .arr vs, h => by
    cases h
    exact fun e he => by cases he
  | depth + 1, .arr vs, h => isForeign_of_quoteItemsWithin depth vs (eq_error_of_map_eq_error h)

theorem isForeign_of_quoteItemsWithin {f : Failure} : (depth : Nat) → (vs : List Value) →
    quoteItemsWithin depth vs = .error f → f.IsForeign
  | _, [], h => by cases h
  | depth, v :: r, h => by
    rcases bind_eq_error h with hitem | ⟨s, -, hrest⟩
    · split at hitem
      · cases hitem
      · exact isForeign_of_quoteWithin depth v hitem
    · exact isForeign_of_quoteItemsWithin depth r (eq_error_of_map_eq_error hrest)

end

end PolicyGates.Value
