import PolicyGates.Value.Arithmetic
/-!
# Sign-off

Escalated decisions wait for somebody to sign them.  The ledger keeps the first
acknowledgment of every decision and never takes one back.
-/
namespace PolicyGates

structure Acknowledgment where
  decisionId : Value
  approver : Value
  /-- A remark, absent if there is none; one that says nothing is none. -/
  note : Value
  acknowledgedAt : Value

def Acknowledgment.toValue (a : Acknowledgment) : Value :=
  .obj [("decisionId", a.decisionId), ("approver", a.approver), ("acknowledgedAt", a.acknowledgedAt),
    ("note", a.note)]

/-- The acknowledgments, in the order in which they came. -/
structure Ledger where
  entries : List Acknowledgment

namespace Ledger

def empty : Ledger := ⟨[]⟩

def get? (l : Ledger) (decisionId : Value) : Option Acknowledgment :=
  l.entries.find? (fun a => a.decisionId.same decisionId)

/-- Enters an acknowledgment unless the decision has one, and tells the one that counts. -/
def record (l : Ledger) (decisionId approver acknowledgedAt note : Value) : Ledger × Acknowledgment :=
  match l.get? decisionId with
  | some a => (l, a)
  | none =>
    let a : Acknowledgment := ⟨decisionId, approver, if note.isTelling then note else .absent, acknowledgedAt⟩
    (⟨l.entries ++ [a]⟩, a)

/-- What `record` tells is what the ledger holds from then on, for an id that can be found again. -/
theorem get?_record_self (l : Ledger) {id : Value} (h : id.same id = true) (approver time note : Value) :
    (l.record id approver time note).1.get? id = some (l.record id approver time note).2 := by
  unfold record
  split
  · next hg => exact hg
  · next hg =>
    simp only [get?] at hg ⊢
    rw [List.find?_append, hg]
    simp [h]

/-- The first acknowledgment of a decision stays. -/
theorem record_of_get? {l : Ledger} {id : Value} {a : Acknowledgment} (h : l.get? id = some a)
    (approver time note : Value) : l.record id approver time note = (l, a) := by
  simp [record, h]

/-- What a decision permits may be done: it approves, or it is escalated and has been signed.
Nothing at all is no decision. -/
def isCleared (l : Ledger) (decision : Value) : Except Failure Bool := do
  let overall ← decision.ask "overall"
  return overall.same (.str "APPROVE")
    || (overall.same (.str "ESCALATE_HUMAN") && (l.get? (decision.entry "decisionId")).isSome)

end Ledger

end PolicyGates
