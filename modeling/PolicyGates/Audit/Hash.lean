import PolicyGates.Value.Arithmetic
/-!
# Hashes as they stand in records

A hash ought to be a text, but a store is kept by others and may hand back anything.  Texts, and all
other values without parts, are the same when they are equal.  A list or an object is the same
only as itself, and where the log hands the hash of one record on to the next, it is that very list
or object that it hands on.  So lists and objects are numbered as they arrive in a store, and each
keeps its number wherever it is handed on.
-/
namespace PolicyGates.Audit

structure Hash where
  value : Value
  /-- The number of a list or an object that has arrived in a store. -/
  arrival : Option Nat
  /-- Nothing else is numbered. -/
  hasParts : arrival.isSome = true → value.hasParts = true

namespace Hash

/-- A value that has not arrived anywhere. -/
def loose (v : Value) : Hash := ⟨v, none, fun h => by cases h⟩

instance : Inhabited Hash := ⟨loose .absent⟩

/-- What a hash ought to be. -/
def ofText (t : Text) : Hash := loose (.str t)

/-- The hash after its arrival, where `number` is the next one to be given. -/
def arrived (number : Nat) (h : Hash) : Hash :=
  if hp : h.value.hasParts = true ∧ h.arrival = none then ⟨h.value, some number, fun _ => hp.1⟩ else h

/-- Two hashes are equal values or one list or object. -/
def same (a b : Hash) : Bool := a.value.same b.value || (a.arrival.isSome && a.arrival == b.arrival)

theorem arrival_eq_none {h : Hash} {t : Text} (hv : h.value = .str t) : h.arrival = none := by
  cases ha : h.arrival with
  | none => rfl
  | some n =>
    have := h.hasParts (by rw [ha]; rfl)
    rw [hv] at this
    cases this

/-- A hash is the same as a text if it is that text. -/
theorem same_iff {a b : Hash} {t : Text} (hb : b.value = .str t) : a.same b = true ↔ a.value = .str t := by
  have hs : a.same b = a.value.same (.str t) := by
    unfold same
    rw [arrival_eq_none hb, hb]
    cases ha : a.arrival <;> simp
  rw [hs, Value.same_str]

end Hash

end PolicyGates.Audit
