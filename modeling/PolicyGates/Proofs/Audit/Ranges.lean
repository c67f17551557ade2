import PolicyGates.Audit.Log
import PolicyGates.Proofs.Audit.Chain
import PolicyGates.Proofs.Double.Products
import PolicyGates.Proofs.Value.Document
/-!
# Ranges of a chain

The records of a chain stand in the order of their numbers, so those between two numbers are a slice of it
(`IsChain.range_eq`). On the wire a record keeps the fields that are hashed.  So whoever receives a whole chain can
count it, follow its links and work out its hashes (`ChainFrom.linksFrom`).
-/
namespace PolicyGates

theorem filterM_eq_slice {ε α : Type} {p : α → Except ε Bool} {l : List α} {low high : Nat}
    (h : ∀ i x, l[i]? = some x → p x = .ok (decide (low ≤ i ∧ i < high))) :
    l.filterM p = .ok ((l.take high).drop low) := by
  have haux : ∀ kept, List.filterAuxM p l kept = .ok (((l.take high).drop low).reverse ++ kept) := by
    induction l generalizing low high with
    | nil =>
      intro kept
      rw [List.take_nil, List.drop_nil]
      rfl
    | cons x l ih =>
      intro kept
      have hplaces : ∀ i y, l[i]? = some y → p y = .ok (decide (low - 1 ≤ i ∧ i < high - 1)) := fun i y hy => by
        rw [h (i + 1) y hy]
        congr 2
        exact propext (by omega)
      have hrest := ih hplaces
      rw [List.filterAuxM, h 0 x rfl]
      simp only [bind, Except.bind, hrest]
      cases high with
      | zero => simp
      | succ high => cases low <;> simp
  unfold List.filterM
  rw [haux []]
  simp [bind, Except.bind, pure, Except.pure]

namespace Audit

open Double (counted limit)

/-- The records from one place to another, both included and counted from one. -/
def slice (first last : Nat) (history : List Record) : List Record := (history.take last).drop (first - 1)

variable {history : List Record}

/-- **The records of a chain between two numbers** are a slice of it. -/
theorem IsChain.range_eq (h : IsChain history) {x y : Float} {first last : Nat}
    (hxy : ∀ i, 0 < i → i ≤ history.length → (x ≤ counted i ∧ counted i ≤ y ↔ first ≤ i ∧ i ≤ last)) :
    range (.num x) (.num y) history = .ok (slice first last history) := by
  refine filterM_eq_slice fun i r hr => ?_
  obtain ⟨hi, -⟩ := List.getElem?_eq_some_iff.1 hr
  have hplace := hxy (i + 1) (Nat.succ_pos i) hi
  have hnumber : r.sequenceNumber = .num (counted (i + 1)) := by
    rw [(h i r hr).sequenceNumber, Nat.zero_add]
  rw [show decide (first - 1 ≤ i ∧ i < last) = decide (x ≤ counted (i + 1) ∧ counted (i + 1) ≤ y) from
    decide_eq_decide.2 (by rw [hplace]; omega)]
  unfold Record.isWithin
  rw [hnumber, Value.atMost_num, Value.atMost_num]
  by_cases hx : x ≤ counted (i + 1)
  · simp [hx, bind, Except.bind]
  · simp [hx, bind, Except.bind, pure, Except.pure]

theorem ofNat_between_iff {first last : Nat} (h : last < limit) (i : Nat) :
    Float.ofNat first ≤ counted i ∧ counted i ≤ Float.ofNat last ↔ first ≤ i ∧ i ≤ last := by
  have hhigh : counted i ≤ Float.ofNat last ↔ i ≤ last := by
    rw [counted, Double.ofNat_le_iff (Nat.min_le_right _ _) h.le]
    omega
  rw [hhigh]
  refine and_congr_left fun hi => ?_
  rw [Double.counted_of_le (by omega)]
  rcases Nat.le_total first limit with hfirst | hfirst
  · exact Double.ofNat_le_iff hfirst (by omega)
  · -- the double of a number past the limit lies past all that are counted
    refine ⟨fun hle => ?_, fun hle => Double.ofNat_le_ofNat hle⟩
    have hlimit : Float.ofNat limit ≤ Float.ofNat i := Double.le_trans (Double.ofNat_le_ofNat hfirst) hle
    rw [Double.ofNat_le_iff (Nat.le_refl _) (by omega)] at hlimit
    omega

theorem firstSequence_eq : firstSequence = .num (Float.ofNat 1) := congrArg Value.num (by decide)

theorem lastSequence_eq : lastSequence = .num (Float.ofNat (limit - 1)) := congrArg Value.num Double.maxSafe_eq

theorem IsChain.range_ofNat (h : IsChain history) {first last : Nat} (hlast : last < limit) :
    range (.num (Float.ofNat first)) (.num (Float.ofNat last)) history = .ok (slice first last history) :=
  h.range_eq fun i _ _ => ofNat_between_iff hlast i

theorem IsChain.range_all (h : IsChain history) {last : Nat} (hlast : limit ≤ last) :
    range firstSequence (.num (Float.ofNat last)) history = .ok history := by
  have hall : ∀ i, 0 < i → i ≤ history.length →
      ((1.0 : Float) ≤ counted i ∧ counted i ≤ Float.ofNat last ↔ 1 ≤ i ∧ i ≤ history.length) := fun i hi hlen => by
    have hlow : (1.0 : Float) ≤ counted i :=
      (Double.ofNat_le_counted (m := 1) (by decide)).2 (Nat.le_min.2 ⟨hi, by decide⟩)
    have hhigh : counted i ≤ Float.ofNat last := Double.ofNat_le_ofNat (Nat.le_trans (Nat.min_le_right _ _) hlast)
    exact ⟨fun _ => ⟨hi, hlen⟩, fun _ => ⟨hlow, hhigh⟩⟩
  have hrange := h.range_eq hall
  rw [slice, Nat.sub_self, List.drop_zero, List.take_length] at hrange
  exact hrange

/-- **The numbers in a slice go up by one from the first.** -/
theorem IsChain.slice_numbers (h : IsChain history) {first last : Nat} (hfirst : 0 < first) (hlast : last ≤ limit) :
    (slice first last history).map Record.sequenceNumber
      = (List.range' first (min last history.length + 1 - first)).map Value.ofCount := by
  have htaken : IsChain (history.take last) := ChainFrom.of_append ((List.take_append_drop last history).symm ▸ h)
  have hnumbers := htaken.numbers (by rw [List.length_take]; omega)
  have hcount : min last history.length - (first - 1) = min last history.length + 1 - first := by omega
  rw [slice, List.map_drop, hnumbers, List.length_take, ← List.map_drop, List.drop_range', Nat.mul_one,
    Nat.add_sub_cancel' hfirst, hcount]

/-! ## On the wire -/

/-- A record as it arrives. -/
def Record.onWire (r : Record) : Value := r.toWire.toValue.normal

/-- What has arrived comes at a place of the count, links back to a hash and has the hash of its own fields. -/
structure Links (v : Value) (number : Nat) (prev : Value) : Prop where
  number : v.member "sequence_number" = .num (counted number)
  prev : v.member "prev_hash" = prev
  hash : v.member "record_hash"
    = .str (recordHash (v.member "sequence_number") (v.member "proposal_hash") (v.member "prev_hash")
    (v.member "decision_summary"))

/-- What has arrived is one chain that goes on from a number and a hash. -/
def LinksFrom : Nat → Value → List Value → Prop
  | _, _, [] => True
  | number, prev, v :: rest => Links v (number + 1) prev ∧ LinksFrom (number + 1) (v.member "record_hash") rest

/-- **A record is told with the fields that its hash covers.** -/
theorem Record.Continues.links {r : Record} {number : Nat} {prev t : Text} (h : r.Continues number (.str prev))
    (ht : r.proposalHash = .str t) :
    Links r.onWire number (.str prev) ∧ r.onWire.member "record_hash" = r.recordHash.value := by
  have hkeys : (Value.members r.toWire.toValue).keys.Nodup := by
    show (["sequence_number", "proposal_hash", "prev_hash", "decision_summary", "record_hash"] : List Text).Nodup
    decide
  have hnumber : Value.normal (.num (counted number)) = .num (counted number) :=
    Value.normal_ofCount (Nat.min_le_right _ _)
  have hfields : ∀ m ∈ Value.members r.toWire.toValue, m.2.isAbsent = false ∧ m.2.normal = m.2 := by
    simp only [Wire.toValue, Value.members, List.forall_mem_cons]
    rw [Record.toWire, h.sequenceNumber, ht, h.prevHash, h.decisionSummary, h.recordHash, hnumber]
    exact ⟨⟨rfl, rfl⟩, ⟨rfl, rfl⟩, ⟨rfl, rfl⟩, ⟨rfl, rfl⟩, ⟨rfl, rfl⟩, List.forall_mem_nil _⟩
  have hmember : ∀ m ∈ Value.members r.toWire.toValue, r.onWire.member m.1 = m.2 := fun m hm =>
    (Value.member_normal hkeys hm (hfields m hm).1).trans (hfields m hm).2
  simp only [Wire.toValue, Value.members, List.forall_mem_cons] at hmember
  obtain ⟨hnumber, hproposal, hprev, hsummary, hhash, -⟩ := hmember
  refine ⟨⟨hnumber.trans h.sequenceNumber, hprev.trans h.prevHash, ?_⟩, hhash⟩
  rw [hnumber, hproposal, hprev, hsummary, hhash]
  exact h.recordHash

/-- **A chain arrives as one.** -/
theorem ChainFrom.linksFrom {number : Nat} {prev : Text} (h : ChainFrom number (.str prev) history)
    (ht : ∀ r ∈ history, ∃ t, r.proposalHash = .str t) : LinksFrom number (.str prev) (history.map Record.onWire) := by
  induction history generalizing number prev with
  | nil => trivial
  | cons r rest ih =>
    obtain ⟨hr, hrest⟩ := chainFrom_cons.1 h
    obtain ⟨⟨t, ht⟩, hrests⟩ := List.forall_mem_cons.1 ht
    obtain ⟨hlinks, hhash⟩ := hr.links ht
    refine ⟨hlinks, ?_⟩
    rw [hhash, hr.recordHash]
    rw [hr.recordHash] at hrest
    exact ih hrest hrests

end Audit
end PolicyGates
