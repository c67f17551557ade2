import PolicyGates.Proofs.Decimal.Numeral
import PolicyGates.Proofs.Value.Form
import PolicyGates.Value.Reader
/-!
# Reading canonical texts

A value in normal form is read back from its text (`value_render`), whatever stands behind it that can stand behind a
value, and with fuel for twice the length of the text.  So the canonical text of a value reads as its normal form
(`parse?_canonical`).
-/
namespace PolicyGates.Value

open Reader

/-- What can stand behind a value: nothing, or a character that ends it. -/
def Closes (r : List Char) : Prop := ∀ c ∈ r.head?, c = ',' ∨ c = ']' ∨ c = '}'

theorem closes_nil : Closes [] := by
  intro c h
  cases h

theorem closes_cons {c : Char} (h : c = ',' ∨ c = ']' ∨ c = '}') (r : List Char) : Closes (c :: r) := by
  intro d hd
  obtain rfl := Option.some.inj hd
  exact h

theorem skip_of_closes {r : List Char} (h : Closes r) : skip r = r := by
  cases r with
  | nil => rfl
  | cons c r =>
    rcases h c rfl with rfl | rfl | rfl <;> rfl

theorem Closes.ends {r : List Char} (h : Closes r) : Decimal.Ends r := by
  intro c hc
  rcases h c hc with rfl | rfl | rfl <;> decide

/-! ## First characters -/

theorem isSpace_of_mark {v : Value} {c : Char} (h : markOf c = mark v) : isSpace c = false := by
  cases hs : isSpace c with
  | false => rfl
  | true =>
    simp only [isSpace, Bool.or_eq_true, decide_eq_true_eq] at hs
    rcases hs with ((rfl | rfl) | rfl) | rfl <;> cases v <;> cases h

theorem skip_render (v : Value) (r : List Char) : skip (render v ++ r) = render v ++ r := by
  obtain ⟨c, s, hc, hm⟩ := markOf_render v
  rw [hc, List.cons_append, skip, List.dropWhile_cons_of_neg (by rw [isSpace_of_mark hm]; decide)]

theorem value_num {fuel : Nat} {cs : List Char} {c : Char} {s : List Char} (hc : cs = c :: s) (hm : markOf c = '0') :
    Reader.value (fuel + 1) cs = (Decimal.json cs).map (fun p => (.num p.1, p.2)) := by
  have hskip : skip cs = c :: s := by
    rw [hc, skip, List.dropWhile_cons_of_neg (by rw [isSpace_of_mark (v := .num 0.0) hm]; decide)]
  rw [Reader.value, hskip, hc]
  split
  case h_1 h => cases h
  case h_8 h =>
    obtain ⟨rfl, rfl⟩ := List.cons.inj h
    rfl
  all_goals
    next h =>
      obtain ⟨rfl, -⟩ := List.cons.inj h
      cases hm

/-! ## Items and members -/

/-- The value is read back from its text. -/
def IsRead (v : Value) : Prop :=
  ∀ fuel r, 2 * (render v).length ≤ fuel → Closes r → Reader.value fuel (render v ++ r) = some (v, r)

theorem items_last {v : Value} (h : IsRead v) {fuel : Nat} (hfuel : 2 * (render v).length ≤ fuel) (seen : List Value)
    (r : List Char) :
    Reader.items (fuel + 1) seen (render v ++ ']' :: r) = some (.arr (seen.reverse ++ [v]), r) := by
  have hcloses : Closes (']' :: r) := closes_cons (.inr (.inl rfl)) r
  simp only [Reader.items, h fuel _ hfuel hcloses, skip_of_closes hcloses, List.reverse_cons]

theorem items_next {v : Value} (h : IsRead v) {fuel : Nat} (hfuel : 2 * (render v).length ≤ fuel) (seen : List Value)
    (r : List Char) :
    Reader.items (fuel + 1) seen (render v ++ ',' :: r) = Reader.items fuel (v :: seen) r := by
  have hcloses : Closes (',' :: r) := closes_cons (.inl rfl) r
  simp only [Reader.items, h fuel _ hfuel hcloses, skip_of_closes hcloses]

theorem items_render {v : Value} {vs : List Value} (h : ∀ w ∈ v :: vs, IsRead w) {fuel : Nat} (seen : List Value)
    (r : List Char) (hfuel : 2 * (renderItems (v :: vs)).length ≤ fuel) :
    Reader.items fuel seen (renderItems (v :: vs) ++ r) = some (.arr (seen.reverse ++ v :: vs), r) := by
  have hv := h v List.mem_cons_self
  induction vs generalizing v fuel seen with
  | nil =>
    rw [renderItems, List.length_append, List.length_singleton] at hfuel
    obtain ⟨fuel, rfl⟩ : ∃ n, fuel = n + 1 := ⟨fuel - 1, by omega⟩
    rw [renderItems, List.append_assoc]
    exact items_last hv (by omega) seen r
  | cons w vs ih =>
    rw [renderItems, List.length_append, List.length_cons] at hfuel
    obtain ⟨fuel, rfl⟩ : ∃ n, fuel = n + 1 := ⟨fuel - 1, by omega⟩
    have hrest := fun u hu => h u (List.mem_cons_of_mem v hu)
    rw [renderItems, List.append_assoc, List.cons_append, items_next hv (by omega),
      ih hrest (v :: seen) (by omega) (hrest w List.mem_cons_self), List.reverse_cons, List.append_assoc]
    rfl

theorem put_of_notMem {ms : Members} {k : Text} (h : k ∉ ms.keys) (v : Value) : ms.put k v = ms ++ [(k, v)] := by
  induction ms with
  | nil => rfl
  | cons m ms ih =>
    obtain ⟨k', w⟩ := m
    obtain ⟨hk, hms⟩ := not_or.1 (mt List.mem_cons.2 h)
    rw [Members.put, if_neg (Ne.symm hk), ih hms]
    rfl

section Members

variable {k : Text} {v : Value} (h : IsRead v) {fuel : Nat} (hfuel : 2 * (render v).length ≤ fuel) {seen : Members}
  (hk : k ∉ seen.keys)
include h hfuel hk

theorem members_last (r : List Char) :
    Reader.members (fuel + 1) seen (Text.Quoted.encode k ++ ':' :: (render v ++ '}' :: r))
    = some (.obj (seen ++ [(k, v)]), r) := by
  have hcloses : Closes ('}' :: r) := closes_cons (.inr (.inr rfl)) r
  have hquote : ∀ s, skip (Text.Quoted.encode k ++ s) = '"' :: ((Text.Quoted.encode k).tail ++ s) := fun _ => rfl
  have hcolon : ∀ s, skip (':' :: s) = ':' :: s := fun _ => rfl
  simp only [Reader.members, hquote, Text.Quoted.decode_encode, hcolon, h fuel _ hfuel hcloses, skip_of_closes hcloses,
    put_of_notMem hk]

theorem members_next (r : List Char) :
    Reader.members (fuel + 1) seen (Text.Quoted.encode k ++ ':' :: (render v ++ ',' :: r))
    = Reader.members fuel (seen ++ [(k, v)]) r := by
  have hcloses : Closes (',' :: r) := closes_cons (.inl rfl) r
  have hquote : ∀ s, skip (Text.Quoted.encode k ++ s) = '"' :: ((Text.Quoted.encode k).tail ++ s) := fun _ => rfl
  have hcolon : ∀ s, skip (':' :: s) = ':' :: s := fun _ => rfl
  simp only [Reader.members, hquote, Text.Quoted.decode_encode, hcolon, h fuel _ hfuel hcloses, skip_of_closes hcloses,
    put_of_notMem hk]

end Members

theorem notMem_keys_of_nodup {seen : Members} {m : Text × Value} {ms : Members}
    (h : (Members.keys (seen ++ m :: ms)).Nodup) :
    m.1 ∉ seen.keys := by
  rw [Members.keys, List.map_append, List.nodup_append'] at h
  exact fun hmem => h.2.2 hmem (List.mem_map_of_mem List.mem_cons_self)

theorem members_render {m : Text × Value} {ms : Members} (h : ∀ n ∈ m :: ms, IsRead n.2) {fuel : Nat} {seen : Members}
    (r : List Char) (hkeys : (Members.keys (seen ++ m :: ms)).Nodup)
    (hfuel : 2 * (renderMembers (m :: ms)).length ≤ fuel) :
    Reader.members fuel seen (renderMembers (m :: ms) ++ r) = some (.obj (seen ++ m :: ms), r) := by
  have hm := h m List.mem_cons_self
  induction ms generalizing m fuel seen with
  | nil =>
    rw [renderMembers_cons, List.length_append, List.length_cons, List.length_append] at hfuel
    obtain ⟨fuel, rfl⟩ : ∃ n, fuel = n + 1 := ⟨fuel - 1, by omega⟩
    rw [renderMembers_cons, List.append_assoc, List.cons_append, List.append_assoc]
    exact members_last hm (by omega) (notMem_keys_of_nodup hkeys) r
  | cons n ms ih =>
    have hcomma : (afterMember (n :: ms)).length = (renderMembers (n :: ms)).length + 1 := rfl
    rw [renderMembers_cons, List.length_append, List.length_cons, List.length_append, hcomma] at hfuel
    obtain ⟨fuel, rfl⟩ : ∃ n, fuel = n + 1 := ⟨fuel - 1, by omega⟩
    have hrest := fun u hu => h u (List.mem_cons_of_mem m hu)
    rw [renderMembers_cons, List.append_assoc, List.cons_append, List.append_assoc]
    refine (members_next hm (by omega) (notMem_keys_of_nodup hkeys) _).trans ?_
    rw [List.append_cons] at hkeys
    have hnext := @ih n hrest fuel _ hkeys (by omega) (hrest n List.mem_cons_self)
    rwa [← List.append_cons] at hnext

/-! ## Values -/

theorem exists_fuel {v : Value} {fuel : Nat} (h : 2 * (render v).length ≤ fuel) : ∃ n, fuel = n + 1 := by
  obtain ⟨c, s, hc, -⟩ := markOf_render v
  rw [hc, List.length_cons] at h
  exact ⟨fuel - 1, by omega⟩

theorem isRead_arr {vs : List Value} (h : ∀ v ∈ vs, IsRead v) : IsRead (.arr vs) := by
  intro fuel r hfuel _
  obtain ⟨fuel, rfl⟩ := exists_fuel hfuel
  cases vs with
  | nil => rfl
  | cons v vs =>
    have hlength : (render (.arr (v :: vs))).length = (renderItems (v :: vs)).length + 1 := rfl
    have hbracket : ∀ s, skip ('[' :: s) = '[' :: s := fun _ => rfl
    have hskip : skip (renderItems (v :: vs) ++ r) = renderItems (v :: vs) ++ r := by
      rw [renderItems_cons, List.append_assoc, skip_render]
    simp only [render, List.cons_append, Reader.value, hbracket, hskip]
    split
    · next s hs =>
      rw [renderItems_cons, List.append_assoc] at hs
      exact absurd hs (render_append_ne v _ _)
    · exact items_render h [] r (by omega)

theorem isRead_obj {ms : Members} (hkeys : ms.keys.Nodup) (h : ∀ m ∈ ms, IsRead m.2) : IsRead (.obj ms) := by
  intro fuel r hfuel _
  obtain ⟨fuel, rfl⟩ := exists_fuel hfuel
  cases ms with
  | nil => rfl
  | cons m ms =>
    have hlength : (render (.obj (m :: ms))).length = (renderMembers (m :: ms)).length + 1 := rfl
    have hbrace : ∀ s, skip ('\x7b' :: s) = '\x7b' :: s := fun _ => rfl
    have hskip : skip (renderMembers (m :: ms) ++ r) = renderMembers (m :: ms) ++ r := by
      rw [renderMembers_cons]
      rfl
    simp only [render, List.cons_append, Reader.value, hbrace, hskip]
    split
    · next s hs =>
      rw [renderMembers_cons] at hs
      cases hs
    · exact @members_render m ms h fuel [] r hkeys (by omega)

/-- **A value in normal form is read back from its text.** -/
theorem value_render {v : Value} (h : v.IsNormal) : IsRead v := by
  induction h with
  | null =>
    intro fuel r hfuel _
    obtain ⟨fuel, rfl⟩ := exists_fuel hfuel
    rfl
  | bool b =>
    intro fuel r hfuel _
    obtain ⟨fuel, rfl⟩ := exists_fuel hfuel
    cases b <;> rfl
  | @num x finite zero =>
    intro fuel r hfuel hr
    obtain ⟨fuel, rfl⟩ := exists_fuel hfuel
    obtain ⟨c, s, hc, hm⟩ := markOf_render (.num x)
    rw [value_num (s := s ++ r) (by rw [hc]; rfl) hm]
    show (Decimal.json (Decimal.chars x ++ r)).map _ = _
    rw [Decimal.json_chars finite hr.ends]
    exact congrArg (fun y => some (Value.num y, r)) zero
  | str s =>
    intro fuel r hfuel _
    obtain ⟨fuel, rfl⟩ := exists_fuel hfuel
    have hquote : skip (Text.Quoted.encode s ++ r) = '"' :: ((Text.Quoted.encode s).tail ++ r) := rfl
    simp only [render, Reader.value, hquote, Text.Quoted.decode_encode, Option.map_some]
  | @arr vs items ih => exact isRead_arr ih
  | @obj ms keys sorted members ih => exact isRead_obj keys ih

/-- **The canonical text of a value reads as its normal form.** -/
theorem parse?_canonical {v : Value} (h : v.HasDistinctKeys) : parse? v.canonical = some (normal v) := by
  have hread := value_render (isNormal_normal h) (2 * (render (normal v)).length + 1) [] (by omega) closes_nil
  rw [List.append_nil] at hread
  unfold parse? canonical
  rw [String.toList_ofList]
  dsimp only
  rw [hread]
  rfl

end PolicyGates.Value
