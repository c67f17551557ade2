import PolicyGates.Proofs.Audit.Break
import PolicyGates.Proofs.Double.Integers
/-!
# Verification in slices

A history whose numbers are integers that ascend is looked through from one number to another in one walk, or in two
with a cut anywhere between.  What a walk does at a record depends on the range only through where the record's number
lies (`exists_step`). So the second walk passes over what the first one has looked at and comes to its own first
record with the link that one walk over everything has there (`exists_walk_slices`), and nothing is lost at a cut:
`slices_exact`.
-/
namespace PolicyGates

open Double (IsSafe level limit wholeLevel)

/-- An integer as the bound of a range. -/
def Value.ofInt (z : Int) : Value := .num (Float.ofInt z)

namespace Audit

/-- Every number is an integer, and greater than the one before it. -/
structure IsAscending (history : List Record) : Prop where
  whole : ∀ r ∈ history, ∃ x, r.sequenceNumber = .num x ∧ Decimal.isWhole x = true
  ascending : history.Pairwise fun r s => r.sequenceNumber.less s.sequenceNumber = .ok true

/-- What two walks come to, the second of which goes on where the first one ended. -/
def Finding.followedBy (f g : Finding) : Finding := if f.valid then { g with checked := f.checked + g.checked } else f

/-- The number of a record is this integer. -/
def Record.IsNumbered (r : Record) (z : Int) : Prop :=
  ∃ x, r.sequenceNumber = .num x ∧ x.isNaN = false ∧ level x = z * wholeLevel 1

variable {history rest : List Record} {r s : Record} {l : Link} {k n : Nat} {a b c z w : Int} {x : Float}
  {first last : Value}

theorem isAscending_cons : IsAscending (r :: rest) ↔ (∃ x, r.sequenceNumber = .num x ∧ Decimal.isWhole x = true)
    ∧ (∀ s ∈ rest, r.sequenceNumber.less s.sequenceNumber = .ok true) ∧ IsAscending rest := by
  constructor
  · rintro ⟨hwhole, hascending⟩
    rw [List.forall_mem_cons] at hwhole
    rw [List.pairwise_cons] at hascending
    exact ⟨hwhole.1, hascending.1, hwhole.2, hascending.2⟩
  · rintro ⟨hr, hless, hwhole, hascending⟩
    exact ⟨List.forall_mem_cons.2 ⟨hr, hwhole⟩, List.pairwise_cons.2 ⟨hless, hascending⟩⟩

theorem IsAscending.exists_isNumbered (h : IsAscending history) (hr : r ∈ history) : ∃ z, r.IsNumbered z := by
  obtain ⟨x, hx, hwhole⟩ := h.whole r hr
  obtain ⟨z, hz⟩ := Double.exists_level_eq hwhole
  exact ⟨z, x, hx, Double.isNaN_of_isFinite (Decimal.isFinite_of_isWhole hwhole), hz⟩

namespace Record.IsNumbered

theorem less (h : r.IsNumbered z) (hb : b.natAbs ≤ limit) :
    (Value.ofInt b).less r.sequenceNumber = .ok (decide (b < z)) := by
  obtain ⟨x, hx, hnumber, hlevel⟩ := h
  simp [hx, Value.ofInt, Double.ofInt_lt_iff_of_level hb hnumber hlevel]

theorem atMost (h : r.IsNumbered z) (ha : a.natAbs ≤ limit) :
    (Value.ofInt a).atMost r.sequenceNumber = .ok (decide (a ≤ z)) := by
  obtain ⟨x, hx, hnumber, hlevel⟩ := h
  simp [hx, Value.ofInt, Double.ofInt_le_iff_of_level ha hnumber hlevel]

theorem lt (h : r.IsNumbered z) (h' : s.IsNumbered w) (hless : r.sequenceNumber.less s.sequenceNumber = .ok true) :
    z < w := by
  obtain ⟨x, hx, hnumber, hlevel⟩ := h
  obtain ⟨x', hx', hnumber', hlevel'⟩ := h'
  have hone : (0 : Int) < wholeLevel 1 := Int.natCast_pos.2 (Double.wholeLevel_pos Nat.one_pos)
  rw [hx, hx', Value.less_num, Except.ok.injEq, decide_eq_true_eq, Double.lt_iff hnumber hnumber', hlevel, hlevel',
    Int.mul_lt_mul_right hone] at hless
  exact hless

/-- **What a walk does at a record that has a number**, in one equation for all ranges. -/
theorem exists_step (hr : r.IsNumbered z) (hl : l.next = .num x) : ∃ flaw l' y, l'.next = .num y ∧
    ∀ {a b : Int}, a.natAbs ≤ limit → b.natAbs ≤ limit → ∀ (k : Nat) (rest : List Record),
      walk (.ofInt a) (.ofInt b) l k (r :: rest) =
        if b < z then .ok (.intact k)
        else if a ≤ z then
          match flaw with
          | some (link, reason) => .ok (.broken link reason k)
          | none => walk (.ofInt a) (.ofInt b) l' (k + 1) rest
        else walk (.ofInt a) (.ofInt b) l' k rest := by
  obtain ⟨y, hy, -, -⟩ := id hr
  obtain ⟨flaw, hflaw, -⟩ := exists_flaw? hy hl
  have hlink : r.link = .ok ⟨.num (y + 1.0), r.recordHash⟩ := by
    rw [Record.link, hy]
    rfl
  refine ⟨flaw, ⟨.num (y + 1.0), r.recordHash⟩, y + 1.0, rfl, fun {a b} ha hb k rest => ?_⟩
  rw [walk, hr.less hb, hr.atMost ha, hflaw, hlink]
  by_cases hbeyond : b < z
  · rw [decide_eq_true hbeyond, if_pos hbeyond]
    rfl
  · rw [decide_eq_false hbeyond, if_neg hbeyond]
    by_cases hcounted : a ≤ z
    · rw [decide_eq_true hcounted, if_pos hcounted]
      cases flaw <;> rfl
    · rw [decide_eq_false hcounted, if_neg hcounted]
      rfl

end Record.IsNumbered

/-! ## Two walks that do the same -/

/-- **What has been counted before a walk is only added to what it counts.** -/
theorem walk_shift (history : List Record) :
    walk first last l (k + n) history = (walk first last l n history).map (Finding.intact k).followedBy := by
  induction history generalizing l n with
  | nil => rfl
  | cons r rest ih =>
    simp only [walk]
    rcases last.less r.sequenceNumber with e | _ | _
    · rfl
    · rcases first.atMost r.sequenceNumber with e | _ | _
      · rfl
      · -- The record is passed over.
        rcases r.link with e | l'
        · rfl
        · exact ih
      · rcases r.flaw? l with e | _ | p
        · rfl
        · rcases r.link with e | l'
          · rfl
          · exact ih (n := n + 1)
        · rfl
    · rfl

/-- Where a range starts does not matter to a walk over records that have all come to it. -/
theorem walk_congr_first {first' : Value}
    (h : ∀ r ∈ history, first.atMost r.sequenceNumber = first'.atMost r.sequenceNumber) :
    walk first last l k history = walk first' last l k history := by
  induction history generalizing l k with
  | nil => rfl
  | cons r rest ih =>
    obtain ⟨hr, hrest⟩ := List.forall_mem_cons.1 h
    simp only [walk, hr, ih hrest]

/-- Past the end of one range, all numbers of an ascending history have come to the next one. -/
theorem IsAscending.atMost_eq (h : IsAscending (r :: rest)) (hr : r.IsNumbered z) (hz : b < z) (hab : a ≤ b)
    (ha : a.natAbs ≤ limit) (hb : (b + 1).natAbs ≤ limit) :
    ∀ s ∈ r :: rest, (Value.ofInt a).atMost s.sequenceNumber = (Value.ofInt (b + 1)).atMost s.sequenceNumber := by
  intro s hs
  obtain ⟨w, hw, hlt⟩ : ∃ w, s.IsNumbered w ∧ b < w := by
    rcases List.mem_cons.1 hs with rfl | hrest
    · exact ⟨z, hr, hz⟩
    · obtain ⟨w, hw⟩ := h.exists_isNumbered hs
      exact ⟨w, hw, hz.trans (hr.lt hw ((isAscending_cons.1 h).2.1 s hrest))⟩
  rw [hw.atMost ha, hw.atMost hb, decide_eq_true (show a ≤ w by omega), decide_eq_true (show b + 1 ≤ w by omega)]

/-! ## One walk and two -/

theorem exists_walk (ha : a.natAbs ≤ limit) (hb : b.natAbs ≤ limit) (hl : l.next = .num x) (h : IsAscending history)
    (k : Nat) :
    ∃ f, walk (.ofInt a) (.ofInt b) l k history = .ok f := by
  induction history generalizing l k x with
  | nil => exact ⟨_, rfl⟩
  | cons r rest ih =>
    obtain ⟨z, hz⟩ := h.exists_isNumbered List.mem_cons_self
    obtain ⟨flaw, l', y, hl', hwalk⟩ := hz.exists_step hl
    have hrest := (isAscending_cons.1 h).2.2
    rw [hwalk ha hb]
    split_ifs
    · exact ⟨_, rfl⟩
    · cases flaw with
      | some p => exact ⟨_, rfl⟩
      | none => exact ih hl' hrest (k + 1)
    · exact ih hl' hrest k

/-- **A walk over a range is two walks over its parts, one after the other.** -/
theorem exists_walk_slices (ha : a.natAbs ≤ limit) (hc : c.natAbs ≤ limit) (hab : a ≤ b) (hbc : b < c)
    (hl : l.next = .num x) (h : IsAscending history) (k : Nat) :
    ∃ f g, walk (.ofInt a) (.ofInt b) l k history = .ok f ∧ walk (.ofInt (b + 1)) (.ofInt c) l 0 history = .ok g
      ∧ walk (.ofInt a) (.ofInt c) l k history = .ok (f.followedBy g) := by
  have hb : b.natAbs ≤ limit := by omega
  have hb' : (b + 1).natAbs ≤ limit := by omega
  induction history generalizing l k x with
  | nil => exact ⟨_, _, rfl, rfl, rfl⟩
  | cons r rest ih =>
    obtain ⟨z, hz⟩ := h.exists_isNumbered List.mem_cons_self
    obtain ⟨flaw, l', y, hl', hwalk⟩ := hz.exists_step hl
    have hrest := (isAscending_cons.1 h).2.2
    by_cases hcut : b < z
    · -- The first part ends here, and the second one and the whole go on alike.
      obtain ⟨g, hg⟩ := exists_walk hb' hc hl h 0
      refine ⟨.intact k, g, by rw [hwalk ha hb, if_pos hcut], hg, ?_⟩
      rw [← Nat.add_zero k, walk_shift, walk_congr_first (h.atMost_eq hz hcut hab ha hb'), hg]
      rfl
    · -- The second part passes over the record, and the first one and the whole do the same with it.
      rw [hwalk ha hb, hwalk hb' hc, hwalk ha hc, if_neg hcut, if_neg (show ¬c < z by omega),
        if_neg (show ¬c < z by omega), if_neg (show ¬b + 1 ≤ z by omega)]
      by_cases hcounted : a ≤ z
      · rw [if_pos hcounted, if_pos hcounted]
        cases flaw with
        | some p =>
          obtain ⟨g, hg⟩ := exists_walk hb' hc hl' hrest 0
          exact ⟨_, g, rfl, hg, rfl⟩
        | none => exact ih hl' hrest (k + 1)
      · rw [if_neg hcounted, if_neg hcounted]
        exact ih hl' hrest k

/-- **Looking through a history in slices misses nothing.**  With a cut anywhere in a range, the whole range is found
valid if and only if both parts are; as many records are then checked as in the two together, and otherwise the same
break is found as in the first part that is not valid. -/
theorem slices_exact (h : IsAscending history) (ha : IsSafe a) (hc : IsSafe c) (hab : a ≤ b) (hbc : b < c) :
    ∃ f g whole, verify (.ofInt a) (.ofInt b) history = .ok f ∧ verify (.ofInt (b + 1)) (.ofInt c) history = .ok g
      ∧ verify (.ofInt a) (.ofInt c) history = .ok whole
      ∧ (whole.valid = true ↔ f.valid = true ∧ g.valid = true)
      ∧ (whole.valid = true → whole.checked = f.checked + g.checked)
      ∧ (whole.valid = false → (whole.firstBrokenLink, whole.reason)
          = if f.valid then (g.firstBrokenLink, g.reason) else (f.firstBrokenLink, f.reason)) := by
  obtain ⟨f, g, hf, hg, hwhole⟩ :=
    exists_walk_slices (l := .genesis) (Nat.le_of_lt ha) (Nat.le_of_lt hc) hab hbc rfl h 0
  refine ⟨f, g, _, hf, hg, hwhole, ?_⟩
  cases hvalid : f.valid <;> simp [Finding.followedBy, hvalid]

/-- The record at the cut is missing, and the second part tells it. -/
theorem missing_boundary_found :
    let numbered (x : Float) : Record := ⟨.num x, .str "p", .ofText "q", .str "\x7b\x7d", .ofText "r", .obj []⟩
    IsAscending [numbered 2, numbered 3]
      ∧ ∃ f g whole, verify (.ofInt 1) (.ofInt 1) [numbered 2, numbered 3] = .ok f ∧ f.valid = true
      ∧ verify (.ofInt 2) (.ofInt 3) [numbered 2, numbered 3] = .ok g ∧ g.valid = false
      ∧ verify (.ofInt 1) (.ofInt 3) [numbered 2, numbered 3] = .ok whole ∧ whole.valid = false
      ∧ whole.firstBrokenLink = some (.num 1.0) := by
  intro numbered
  have hascending : IsAscending [numbered 2, numbered 3] := by
    refine ⟨?_, ?_⟩
    · simp only [List.forall_mem_cons, List.not_mem_nil, false_implies, implies_true, and_true]
      exact ⟨⟨_, rfl, by decide⟩, ⟨_, rfl, by decide⟩⟩
    · rw [List.pairwise_pair]
      rfl
  obtain ⟨f, g, whole, hf, hg, hwhole, hvalid, -, hbroken⟩ :=
    slices_exact (a := 1) (b := 1) (c := 3) hascending (by decide) (by decide) (by decide) (by decide)
  obtain rfl : f = .intact 0 := (Except.ok.inj hf).symm
  obtain rfl : g = .broken (.num 1.0) "expected sequence 1, found 2" 0 := (Except.ok.inj hg).symm
  have hinvalid : whole.valid = false := by simpa [Finding.broken] using hvalid
  exact ⟨hascending, _, _, whole, hf, rfl, hg, rfl, hwhole, hinvalid, congrArg Prod.fst (hbroken hinvalid)⟩

end Audit
end PolicyGates
