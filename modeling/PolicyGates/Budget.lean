import PolicyGates.Failure
/-!
# Energy budgets

One evaluation draws on one budget.  Charges only add up, nothing is refunded, and a charge
that does not fit leaves the budget as it was.  Once closed, a budget takes no charge.
-/
namespace PolicyGates

structure Budget where
  maxTokens : Float
  spent : Float
  closed : Bool
  deriving DecidableEq

namespace Budget

def remaining (b : Budget) : Float := b.maxTokens - b.spent

def fresh (cap : Float) : Budget := ⟨cap, 0.0, false⟩

/-- A fresh budget; its cap has to be a positive whole number. -/
def start (cap : Float) : Except PolicyError Budget :=
  if Decimal.isWhole cap ∧ !(cap ≤ 0.0) then .ok (fresh cap)
  else .error (.invalidProposal (.unfundable (Decimal.text cap)))

def charge (b : Budget) (amount : Float) : Except PolicyError Budget :=
  if b.closed then .error .budgetClosed
  else if !amount.isFinite ∨ amount < 0.0 then .error (.unchargeable (Decimal.text amount))
  else if b.maxTokens < b.spent + amount then .error (.budgetExceeded amount b.remaining)
  else .ok { b with spent := b.spent + amount }

/-- Closing twice changes nothing more; what was spent stays. -/
def close (b : Budget) : Budget := { b with closed := true }

/-- A closed budget takes no charge, whatever the amount. -/
theorem charge_of_closed {b : Budget} (h : b.closed = true) (amount : Float) :
    b.charge amount = .error .budgetClosed := by
  simp [charge, h]

/-! ## Caps and amounts that were not checked to be numbers -/

/-- As `start`, for a cap of any kind: what is no number is no positive whole number. -/
def startAny (cap : Value) : Except Failure Budget :=
  match cap with
  | .num x =>
    match start x with
    | .ok b => .ok b
    | .error e => .error (.policy e)
  | v => v.quote.bind (fun shown => .error (.policy (.invalidProposal (.unfundable shown))))

/-- As `charge`, for an amount of any kind: what is no number is never charged. -/
def chargeAny (b : Budget) (amount : Value) : Except Failure Budget :=
  match amount with
  | .num x =>
    match b.charge x with
    | .ok b => .ok b
    | .error e => .error (.policy e)
  | v =>
    if b.closed then .error (.policy .budgetClosed)
    else v.quote.bind (fun shown => .error (.policy (.unchargeable shown)))

/-- Charges one amount after the other, up to the first that is refused; tells why it was. -/
def chargeAll (b : Budget) : List Value → Budget × Option Failure
  | [] => (b, none)
  | amount :: r =>
    match b.chargeAny amount with
    | .ok b => b.chargeAll r
    | .error e => (b, some e)

/-! ## Calls -/

/-- What can be asked of a budget by whoever holds it. -/
inductive Call where
  | charge (amount : Value)
  | close

/-- What a call that is not refused comes back with. -/
inductive Reply where
  | charged
  /-- What was spent in all. -/
  | total (spent : Float)
  deriving DecidableEq

def call (b : Budget) : Call → Budget × Except Failure Reply
  | .charge amount =>
    match b.chargeAny amount with
    | .ok charged => (charged, .ok .charged)
    | .error f => (b, .error f)
  | .close => (b.close, .ok (.total b.close.spent))

/-- Calls one after the other, with the reply to each; a refusal keeps none of the others from being made. -/
def callAll (b : Budget) : List Call → Budget × List (Except Failure Reply)
  | [] => (b, [])
  | c :: r =>
    match b.call c with
    | (after, reply) =>
      match after.callAll r with
      | (left, replies) => (left, reply :: replies)

/-! ## Scopes -/

/-- Opens a budget for the length of a body, which is handed the budget and gives it back with
its result, and closes it however the body ends. -/
def scopeAny (cap : Value) (body : Budget → Budget × Except Failure α) :
    Except Failure (Budget × Except Failure α) :=
  (startAny cap).map (fun b => ((body b).1.close, (body b).2))

end Budget

end PolicyGates
