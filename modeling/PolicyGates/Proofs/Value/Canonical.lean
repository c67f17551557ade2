import PolicyGates.Proofs.Value.Reading
/-!
# Canonical texts

Values in normal form that are written alike are the same (`render_inj`), since reading takes back what was written.
Hence the main statement: two values have one canonical text exactly when they say the same.
-/
namespace PolicyGates.Value

/-- **Normal forms that are written alike are the same.** -/
theorem render_inj {v w : Value} (hv : v.IsNormal) (hw : w.IsNormal) (h : render v = render w) : v = w := by
  have hread := value_render hv (2 * (render v).length) [] (Nat.le_refl _) closes_nil
  rw [h, value_render hw _ [] (Nat.le_refl _) closes_nil] at hread
  exact (Prod.mk.inj (Option.some.inj hread)).1.symm

/-- **Values have one canonical text exactly when they say the same**: when they differ at most in members that are
absent, in what else is absent or no finite number where the other has a null, in the sign of zeros and in the order of
members, at every depth. -/
theorem canonical_eq_iff {v w : Value} (hv : v.HasDistinctKeys) (hw : w.HasDistinctKeys) :
    v.canonical = w.canonical ↔ v.form = w.form := by
  rw [← normal_eq_iff hv hw]
  refine ⟨fun h => ?_, congrArg (fun u => String.ofList (render u))⟩
  exact render_inj (isNormal_normal hv) (isNormal_normal hw) (String.ofList_injective h)

theorem canonical_pair :
    (Value.obj [("b", .arr [.num (-0.0), .absent]), ("a", .str "x"), ("c", .absent)]).canonical
      = (Value.obj [("a", .str "x"), ("b", .arr [.num 0.0, .null])]).canonical := by
  refine (canonical_eq_iff ?_ ?_).2 ?_
  · refine .obj (by decide) ?_
    simp only [List.forall_mem_cons]
    exact ⟨.arr (by simp only [List.forall_mem_cons]; exact ⟨.num _, .absent, List.forall_mem_nil _⟩), .str _, .absent,
      List.forall_mem_nil _⟩
  · refine .obj (by decide) ?_
    simp only [List.forall_mem_cons]
    exact ⟨.str _, .arr (by simp only [List.forall_mem_cons]; exact ⟨.num _, .null, List.forall_mem_nil _⟩),
      List.forall_mem_nil _⟩
  · refine congrArg Form.obj (funext fun k => ?_)
    simp only [formMember?, form, formItems]
    by_cases ha : Text.whole "a" = k
    · subst ha
      rfl
    · by_cases hb : Text.whole "b" = k
      · subst hb
        rfl
      · rw [if_neg ha, if_neg hb, if_neg ha, if_neg hb]

end PolicyGates.Value
