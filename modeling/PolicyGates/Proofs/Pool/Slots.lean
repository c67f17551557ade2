import Mathlib.Tactic.ByContra
import PolicyGates.Pool
/-!
# Slots

All slots of a pool are accounted for: so many are taken, and nobody stands in line while one is free
(`Pool.Serves`).  Asking takes a free slot or a place in line, and giving up a slot hands it to the first in line or
sets it free.
-/
namespace PolicyGates.Pool

/-- All slots are accounted for, where so many are taken, and nobody is in line while one is free. -/
structure Serves (p : Pool) (slots taken : Nat) : Prop where
  size : p.size = slots
  active : p.active = taken
  le : taken ≤ slots
  full : p.waiting ≠ [] → taken = slots

variable {p : Pool} {slots taken : Nat}

theorem serves_idle (slots : Nat) : (idle slots).Serves slots 0 := ⟨rfl, rfl, Nat.zero_le _, fun h => absurd rfl h⟩

theorem Serves.eq_idle (h : p.Serves slots taken) (htaken : taken = 0) (hslots : 1 ≤ slots) : p = .idle slots := by
  obtain ⟨hsize, hactive, -, hfull⟩ := h
  have hempty : p.waiting = [] := by
    by_contra hwaiting
    have := hfull hwaiting
    omega
  obtain ⟨size, active, waiting⟩ := p
  rw [Pool.idle, Pool.mk.injEq]
  exact ⟨hsize, hactive.trans htaken, hempty⟩

/-- **Who asks takes a free slot or a place in line.** -/
theorem Serves.ask (h : p.Serves slots taken) (task : Nat) :
    (∃ p', p.ask task = (p', true) ∧ p'.waiting = p.waiting ∧ p'.Serves slots (taken + 1))
    ∨ ∃ p', p.ask task = (p', false) ∧ p'.waiting = p.waiting ++ [task] ∧ p'.Serves slots taken := by
  obtain ⟨hsize, hactive, hle, hfull⟩ := h
  unfold Pool.ask
  by_cases hbusy : p.size ≤ p.active
  · rw [if_pos hbusy]
    exact .inr ⟨_, rfl, rfl, hsize, hactive, hle, fun _ => by omega⟩
  · rw [if_neg hbusy]
    refine .inl ⟨_, rfl, rfl, hsize, congrArg (· + 1) hactive, by omega, fun hline => ?_⟩
    have := hfull hline
    omega

/-- **A slot that is given up goes to the first in line, or is free.** -/
theorem Serves.release (h : p.Serves slots (taken + 1)) :
    (∃ p', p.release = (p', none) ∧ p.waiting = [] ∧ p'.waiting = [] ∧ p'.Serves slots taken)
    ∨ ∃ p' next, p.release = (p', some next) ∧ p.waiting = next :: p'.waiting ∧ p'.Serves slots (taken + 1) := by
  obtain ⟨hsize, hactive, hle, hfull⟩ := h
  unfold Pool.release
  cases hw : p.waiting with
  | nil =>
    refine .inl ⟨_, rfl, rfl, rfl, hsize, ?_, by omega, fun hline => absurd rfl hline⟩
    show p.active - 1 = taken
    omega
  | cons next rest => exact .inr ⟨_, next, rfl, rfl, hsize, hactive, hle, fun _ => hfull (by rw [hw]; simp)⟩

end PolicyGates.Pool
