import Mathlib.Data.List.Nodup
import PolicyGates.Proofs.Value.Rendering
/-!
# What a value says

A `Form` is what is left of a value once nobody can see in which order the members of an object were written, which of
them are absent, what else is absent and not null, which number it was that is not finite, and which sign a zero has.
The normal form of a value says the same as the value (`form_normal`), and of all values in normal form no two say the
same (`eq_of_form`).  So two values say the same exactly when their normal forms are equal (`normal_eq_iff`).
-/
namespace PolicyGates

/-- What a value says.  An object is what it answers to each key. -/
inductive Form where
  | null
  | bool (b : Bool)
  | num (x : Float)
  | str (s : Text)
  | arr (items : List Form)
  | obj (member? : Text → Option Form)

namespace Value

/-- The number, with a zero that has no sign. -/
def unsigned (x : Float) : Float := if x == 0.0 then 0.0 else x

mutual

def form : Value → Form
  | .absent => .null
  | .null => .null
  | .bool b => .bool b
  | .num x => if x.isFinite then .num (unsigned x) else .null
  | .str s => .str s
  | .arr vs => .arr (formItems vs)
  | .obj ms => .obj (formMember? ms)

def formItems : List Value → List Form
  | [] => []
  | v :: r => form v :: formItems r

/-- What members answer to a key; an absent one does not answer. -/
def formMember? : List (Text × Value) → Text → Option Form
  | [], _ => none
  | (_, .absent) :: r, key => formMember? r key
  | (k, v) :: r, key => if k = key then some (form v) else formMember? r key

end

theorem induction {motive : Value → Prop} (absent : motive .absent) (null : motive .null)
    (bool : ∀ b, motive (.bool b)) (num : ∀ x, motive (.num x)) (str : ∀ s, motive (.str s))
    (arr : ∀ vs : List Value, (∀ v ∈ vs, motive v) → motive (.arr vs))
    (obj : ∀ ms : Members, (∀ m ∈ ms, motive m.2) → motive (.obj ms)) (v : Value) :
    motive v :=
  @Value.rec motive (fun vs => ∀ v ∈ vs, motive v) (fun ms => ∀ m ∈ ms, motive m.2) (fun m => motive m.2)
    absent null bool num str arr obj (List.forall_mem_nil _) (fun _ _ hv hvs => List.forall_mem_cons.2 ⟨hv, hvs⟩)
    (List.forall_mem_nil _) (fun _ _ hm hms => List.forall_mem_cons.2 ⟨hm, hms⟩) (fun _ _ hv => hv) v

/-! ## Normal forms -/

inductive HasDistinctKeys : Value → Prop
  | absent : HasDistinctKeys .absent
  | null : HasDistinctKeys .null
  | bool (b : Bool) : HasDistinctKeys (.bool b)
  | num (x : Float) : HasDistinctKeys (.num x)
  | str (s : Text) : HasDistinctKeys (.str s)
  | arr {vs : List Value} (items : ∀ v ∈ vs, HasDistinctKeys v) : HasDistinctKeys (.arr vs)
  | obj {ms : Members} (keys : ms.keys.Nodup) (members : ∀ m ∈ ms, HasDistinctKeys m.2) : HasDistinctKeys (.obj ms)

inductive IsNormal : Value → Prop
  | null : IsNormal .null
  | bool (b : Bool) : IsNormal (.bool b)
  | num {x : Float} (finite : x.isFinite = true) (zero : unsigned x = x) : IsNormal (.num x)
  | str (s : Text) : IsNormal (.str s)
  | arr {vs : List Value} (items : ∀ v ∈ vs, IsNormal v) : IsNormal (.arr vs)
  | obj {ms : Members} (keys : ms.keys.Nodup) (sorted : ms.Pairwise (fun m n => m.1.le n.1 = true))
    (members : ∀ m ∈ ms, IsNormal m.2) : IsNormal (.obj ms)

theorem isFinite_unsigned {x : Float} (h : x.isFinite = true) : (unsigned x).isFinite = true := by
  unfold unsigned
  split
  · rfl
  · exact h

theorem unsigned_unsigned (x : Float) : unsigned (unsigned x) = unsigned x := by
  by_cases h : (x == 0.0) = true
  · have hx : unsigned x = 0.0 := if_pos h
    rw [hx]
    rfl
  · have hx : unsigned x = x := if_neg h
    rw [hx, hx]

theorem isNormal_normalNumber (x : Float) : IsNormal (normalNumber x) := by
  unfold normalNumber
  split
  · next h => exact .num (isFinite_unsigned h) (unsigned_unsigned x)
  · exact .null

theorem formItems_eq_map : ∀ vs : List Value, formItems vs = vs.map form
  | [] => rfl
  | v :: vs => by rw [formItems, formItems_eq_map vs, List.map_cons]

theorem mem_normalMembers {ms : Members} {k : Text} {u : Value} :
    (k, u) ∈ normalMembers ms ↔ ∃ v, (k, v) ∈ ms ∧ v.isAbsent = false ∧ u = normal v := by
  induction ms with
  | nil => simp [normalMembers]
  | cons m ms ih =>
    obtain ⟨k', v⟩ := m
    cases v <;> simp [normalMembers, ih, isAbsent, or_and_right, exists_or]

theorem keys_normalMembers (ms : Members) : (Members.keys (normalMembers ms)).Sublist ms.keys := by
  induction ms with
  | nil => exact List.Sublist.slnil
  | cons m ms ih =>
    obtain ⟨k, v⟩ := m
    cases v
    case absent => exact ih.cons k
    all_goals exact ih.cons_cons k

theorem mem_sortMembers {ms : Members} {m : Text × Value} : m ∈ sortMembers ms ↔ m ∈ ms :=
  (List.mergeSort_perm ms _).mem_iff

theorem sorted_sortMembers (ms : Members) : (sortMembers ms).Pairwise (fun m n => m.1.le n.1 = true) :=
  @List.pairwise_mergeSort _ (fun a b : Text × Value => a.1.le b.1) (fun _ _ _ => Text.unitsLE_trans)
    (fun _ _ => Text.unitsLE_total _ _) ms

theorem nodup_keys_sortMembers {ms : Members} (h : ms.keys.Nodup) : (sortMembers ms).keys.Nodup :=
  ((List.mergeSort_perm ms _).map Prod.fst).nodup_iff.2 h

theorem isNormal_normal {v : Value} (h : v.HasDistinctKeys) : (normal v).IsNormal := by
  induction v using induction with
  | absent => exact .null
  | null => exact .null
  | bool b => exact .bool b
  | num x => exact isNormal_normalNumber x
  | str s => exact .str s
  | arr vs ih =>
    cases h with
    | arr items =>
      rw [normal, normalItems_eq_map]
      exact .arr (List.forall_mem_map.2 (fun v hv => ih v hv (items v hv)))
  | obj ms ih =>
    cases h with
    | obj keys members =>
      refine .obj (nodup_keys_sortMembers (keys.sublist (keys_normalMembers ms))) (sorted_sortMembers _) ?_
      rintro ⟨k, u⟩ hm
      obtain ⟨v, hv, -, rfl⟩ := mem_normalMembers.1 (mem_sortMembers.1 hm)
      exact ih (k, v) hv (members (k, v) hv)

/-! ## What a normal form says -/

theorem formMember?_eq_some_iff {ms : Members} (h : ms.keys.Nodup) {k : Text} {f : Form} :
    formMember? ms k = some f ↔ ∃ v, (k, v) ∈ ms ∧ v.isAbsent = false ∧ form v = f := by
  induction ms with
  | nil => simp [formMember?]
  | cons m ms ih =>
    obtain ⟨k', v⟩ := m
    obtain ⟨hk', hms⟩ := List.nodup_cons.1 h
    have htail : v.isAbsent = false → (formMember? ((k', v) :: ms) k = some f ↔
        if k' = k then form v = f else formMember? ms k = some f) := by
      intro hv
      cases v
      case absent => cases hv
      all_goals by_cases hk : k' = k <;> simp [formMember?, hk]
    by_cases hv : v.isAbsent = false
    · rw [htail hv]
      by_cases hk : k' = k
      · subst hk
        have hnot : ∀ w, (k', w) ∉ ms := fun w hw => hk' (List.mem_map.2 ⟨(k', w), hw, rfl⟩)
        simp [hnot, hv]
      · simp [hk, ih hms, Ne.symm hk]
    · cases v
      case absent => simp [formMember?, ih hms, isAbsent, or_and_right, exists_or]
      all_goals exact absurd rfl hv

theorem isAbsent_normal (v : Value) : (normal v).isAbsent = false := by
  cases v
  case num x =>
    show (normalNumber x).isAbsent = false
    unfold normalNumber
    split <;> rfl
  all_goals rfl

theorem form_normalNumber (x : Float) : form (normalNumber x) = form (.num x) := by
  by_cases h : x.isFinite = true
  · have hn : normalNumber x = .num (unsigned x) := if_pos h
    rw [hn, form, form, if_pos h, if_pos (isFinite_unsigned h), unsigned_unsigned]
  · have hn : normalNumber x = .null := if_neg h
    rw [hn, form, form, if_neg h]

/-- **The normal form of a value says what the value says.** -/
theorem form_normal {v : Value} (h : v.HasDistinctKeys) : form (normal v) = form v := by
  induction v using induction with
  | absent => rfl
  | null => rfl
  | bool b => rfl
  | num x => exact form_normalNumber x
  | str s => rfl
  | arr vs ih =>
    cases h with
    | arr items =>
      rw [normal, form, form, normalItems_eq_map, formItems_eq_map, formItems_eq_map, List.map_map]
      exact congrArg Form.arr (List.map_congr_left (fun v hv => ih v hv (items v hv)))
  | obj ms ih =>
    cases h with
    | obj keys members =>
      have hkeys : (sortMembers (normalMembers ms)).keys.Nodup :=
        nodup_keys_sortMembers (keys.sublist (keys_normalMembers ms))
      refine congrArg Form.obj (funext fun k => Option.ext fun f => ?_)
      rw [formMember?_eq_some_iff hkeys, formMember?_eq_some_iff keys]
      constructor
      · rintro ⟨u, hu, -, rfl⟩
        obtain ⟨v, hv, habsent, rfl⟩ := mem_normalMembers.1 (mem_sortMembers.1 hu)
        exact ⟨v, hv, habsent, (ih (k, v) hv (members (k, v) hv)).symm⟩
      · rintro ⟨v, hv, habsent, rfl⟩
        exact ⟨normal v, mem_sortMembers.2 (mem_normalMembers.2 ⟨v, hv, habsent, rfl⟩), isAbsent_normal v,
          ih (k, v) hv (members (k, v) hv)⟩

theorem IsNormal.isAbsent {v : Value} (h : v.IsNormal) : v.isAbsent = false := by
  cases h <;> rfl

theorem eq_of_map_eq {α β : Type} {f : α → β} {as bs : List α} (hinj : ∀ a ∈ as, ∀ b ∈ bs, f a = f b → a = b)
    (h : as.map f = bs.map f) : as = bs := by
  have hlength : as.length = bs.length := by simpa using congrArg List.length h
  refine List.ext_getElem hlength fun i hi hi' => ?_
  refine hinj _ (List.getElem_mem hi) _ (List.getElem_mem hi') ?_
  simpa [hi, hi'] using congrArg (·[i]?) h

theorem eq_of_mem_of_keys {ms : Members} (h : ms.keys.Nodup) {k : Text} {v w : Value} (hv : (k, v) ∈ ms)
    (hw : (k, w) ∈ ms) :
    v = w :=
  congrArg Prod.snd (List.inj_on_of_nodup_map h hv hw rfl)

/-- **No two normal forms say the same.** -/
theorem eq_of_form {v w : Value} (hv : v.IsNormal) (hw : w.IsNormal) (h : form v = form w) : v = w := by
  induction hv generalizing w with
  | null => cases hw <;> simp_all [form]
  | bool b => cases hw <;> simp_all [form]
  | num finite zero => cases hw <;> simp_all [form]
  | str s => cases hw <;> simp_all [form]
  | @arr vs items ih =>
    cases hw with
    | @arr ws items' =>
      rw [form, form, formItems_eq_map, formItems_eq_map] at h
      exact congrArg Value.arr (eq_of_map_eq (fun v hv w hw => ih v hv (items' w hw)) (Form.arr.inj h))
    | num finite zero => simp [form, finite] at h
    | _ => cases h
  | @obj ms keys sorted members ih =>
    cases hw with
    | @obj ns keys' sorted' members' =>
      have hanswer : ∀ k, formMember? ms k = formMember? ns k := congrFun (Form.obj.inj h)
      have hmem : ∀ m, m ∈ ms ↔ m ∈ ns := by
        rintro ⟨k, v⟩
        constructor
        · intro hm
          have hf := (formMember?_eq_some_iff keys).2 ⟨v, hm, (members _ hm).isAbsent, rfl⟩
          rw [hanswer, formMember?_eq_some_iff keys'] at hf
          obtain ⟨w, hw, -, hform⟩ := hf
          obtain rfl : v = w := ih (k, v) hm (members' _ hw) hform.symm
          exact hw
        · intro hm
          have hf := (formMember?_eq_some_iff keys').2 ⟨v, hm, (members' _ hm).isAbsent, rfl⟩
          rw [← hanswer, formMember?_eq_some_iff keys] at hf
          obtain ⟨w, hw, -, hform⟩ := hf
          obtain rfl : w = v := ih (k, w) hw (members' _ hm) hform
          exact hw
      have hperm : ms.Perm ns :=
        (List.perm_ext_iff_of_nodup (List.Nodup.of_map _ keys) (List.Nodup.of_map _ keys')).2 hmem
      refine congrArg Value.obj (hperm.eq_of_pairwise ?_ sorted sorted')
      rintro ⟨k, v⟩ ⟨k', w⟩ hm hn hle hge
      obtain rfl : k = k' := Text.units_injective (Text.unitsLE_antisymm hle hge)
      exact Prod.ext rfl (eq_of_mem_of_keys keys' ((hmem _).1 hm) hn)
    | num finite zero => simp [form, finite] at h
    | _ => cases h

/-- **Two values say the same exactly when they have one normal form.** -/
theorem normal_eq_iff {v w : Value} (hv : v.HasDistinctKeys) (hw : w.HasDistinctKeys) :
    normal v = normal w ↔ form v = form w := by
  rw [← form_normal hv, ← form_normal hw]
  exact ⟨congrArg form, eq_of_form (isNormal_normal hv) (isNormal_normal hw)⟩

theorem IsNormal.hasDistinctKeys {v : Value} (h : v.IsNormal) : v.HasDistinctKeys := by
  induction h with
  | null => exact .null
  | bool b => exact .bool b
  | num finite zero => exact .num _
  | str s => exact .str s
  | arr items ih => exact .arr ih
  | obj keys sorted members ih => exact .obj keys ih

theorem normal_normal {v : Value} (h : v.HasDistinctKeys) : normal (normal v) = normal v :=
  (normal_eq_iff (isNormal_normal h).hasDistinctKeys h).2 (form_normal h)

end Value
end PolicyGates
