import PolicyGates.Proofs.Value.Form
/-!
# Documents

A document has no value that is absent but as a member, no number that is not finite and no key twice.  Nothing of it
is lost in its normal form but members that are absent, the order of members and the sign of zeros (`alike_normal`).
-/
namespace PolicyGates.Value

inductive IsDocument : Value → Prop
  | null : IsDocument .null
  | bool (b : Bool) : IsDocument (.bool b)
  | num {x : Float} (finite : x.isFinite = true) : IsDocument (.num x)
  | str (s : Text) : IsDocument (.str s)
  | arr {vs : List Value} (items : ∀ v ∈ vs, IsDocument v) : IsDocument (.arr vs)
  | obj {ms : Members} (keys : ms.keys.Nodup) (members : ∀ m ∈ ms, m.2 ≠ .absent → IsDocument m.2) :
    IsDocument (.obj ms)

theorem IsDocument.hasDistinctKeys {v : Value} (h : v.IsDocument) : v.HasDistinctKeys := by
  induction h with
  | null => exact .null
  | bool b => exact .bool b
  | num finite => exact .num _
  | str s => exact .str s
  | arr items ih => exact .arr ih
  | obj keys members ih =>
    refine .obj keys fun m hm => ?_
    by_cases habsent : m.2 = .absent
    · rw [habsent]
      exact .absent
    · exact ih m hm habsent

/-- Two values are the same but for the sign of zeros, members that are absent and the order of members. -/
inductive Alike : Value → Value → Prop
  | absent : Alike .absent .absent
  | null : Alike .null .null
  | bool (b : Bool) : Alike (.bool b) (.bool b)
  | num {x y : Float} (beq : (x == y) = true) : Alike (.num x) (.num y)
  | str (s : Text) : Alike (.str s) (.str s)
  | arr {vs ws : List Value} (length : vs.length = ws.length)
    (items : ∀ (i : Nat) (v w : Value), vs[i]? = some v → ws[i]? = some w → Alike v w) : Alike (.arr vs) (.arr ws)
  | obj {ms ns : Members} (members : ∀ k, Alike (Members.get k ms) (Members.get k ns)) : Alike (.obj ms) (.obj ns)

theorem get_of_mem {ms : Members} (h : ms.keys.Nodup) {k : Text} {v : Value} (hm : (k, v) ∈ ms) : ms.get k = v := by
  induction ms with
  | nil => cases hm
  | cons m ms ih =>
    obtain ⟨k', w⟩ := m
    obtain ⟨hk', hms⟩ := List.nodup_cons.1 h
    rcases List.mem_cons.1 hm with heq | hm
    · obtain ⟨rfl, rfl⟩ := Prod.mk.inj heq
      exact if_pos rfl
    · have hne : k' ≠ k := fun hc => hk' (List.mem_map.2 ⟨(k, v), hm, hc.symm⟩)
      rw [Members.get, if_neg hne, ih hms hm]

theorem get_of_notMem {ms : Members} {k : Text} (h : k ∉ ms.keys) : ms.get k = .absent := by
  induction ms with
  | nil => rfl
  | cons m ms ih =>
    obtain ⟨k', w⟩ := m
    obtain ⟨hk, hms⟩ := not_or.1 (mt List.mem_cons.2 h)
    rw [Members.get, if_neg (Ne.symm hk), ih hms]

theorem member_normal {ms : Members} (h : ms.keys.Nodup) {k : Text} {v : Value} (hm : (k, v) ∈ ms)
    (hv : v.isAbsent = false) :
    (normal (.obj ms)).member k = normal v :=
  get_of_mem (nodup_keys_sortMembers (h.sublist (keys_normalMembers ms)))
    (mem_sortMembers.2 (mem_normalMembers.2 ⟨v, hm, hv, rfl⟩))

theorem beq_unsigned {x : Float} (h : x.isFinite = true) : (x == unsigned x) = true := by
  unfold unsigned
  split
  · next h0 => exact h0
  · exact (Double.beq_iff (Double.isNaN_of_isFinite h) (Double.isNaN_of_isFinite h)).2 rfl

/-- **A document is like its normal form.** -/
theorem alike_normal {v : Value} (h : v.IsDocument) : Alike v (normal v) := by
  induction h with
  | null => exact .null
  | bool b => exact .bool b
  | @num x finite =>
    have hn : normal (.num x) = .num (unsigned x) := if_pos finite
    rw [hn]
    exact .num (beq_unsigned finite)
  | str s => exact .str s
  | @arr vs items ih =>
    rw [normal, normalItems_eq_map]
    refine .arr (List.length_map _).symm fun i v w hv hw => ?_
    rw [List.getElem?_map, hv] at hw
    cases hw
    exact ih v (List.mem_of_getElem? hv)
  | @obj ms keys members ih =>
    have hkeys : (sortMembers (normalMembers ms)).keys.Nodup :=
      nodup_keys_sortMembers (keys.sublist (keys_normalMembers ms))
    refine .obj fun k => ?_
    by_cases hk : ∃ v, (k, v) ∈ ms ∧ v.isAbsent = false
    · obtain ⟨v, hv, habsent⟩ := hk
      have hn := mem_sortMembers.2 (mem_normalMembers.2 ⟨v, hv, habsent, rfl⟩)
      rw [get_of_mem keys hv, get_of_mem hkeys hn]
      refine ih (k, v) hv fun hc => ?_
      rw [show v = .absent from hc] at habsent
      cases habsent
    · have hnot : k ∉ (sortMembers (normalMembers ms)).keys := by
        intro hmem
        obtain ⟨⟨k, u⟩, hu, rfl⟩ := List.mem_map.1 hmem
        obtain ⟨v, hv, habsent, -⟩ := mem_normalMembers.1 (mem_sortMembers.1 hu)
        exact hk ⟨v, hv, habsent⟩
      have habsent : Members.get k ms = .absent := by
        by_cases hmem : k ∈ ms.keys
        · obtain ⟨⟨k, v⟩, hv, rfl⟩ := List.mem_map.1 hmem
          rw [get_of_mem keys hv]
          cases v with
          | absent => rfl
          | _ => exact absurd ⟨_, hv, rfl⟩ hk
        · exact get_of_notMem hmem
      rw [habsent, get_of_notMem hnot]
      exact .absent

end PolicyGates.Value
