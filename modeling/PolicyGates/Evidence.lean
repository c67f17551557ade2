import PolicyGates.Proposal.Basic
import PolicyGates.Value.Arithmetic
import PolicyGates.Value.Shared
/-!
# Weighing evidence

A body of evidence has a score, the mean weight of its items, and it may or may not hold an
item strong enough for the phase.  Weights are added in the order of the items.

Evidence is weighed as it stands in the document, checked or not.  An item of an unknown tier has no
weight, which makes the mean no number at all, and under an unknown phase no item is strong
enough.  A name that is no tier or phase may still be that of a member that all tables share.
-/
namespace PolicyGates

namespace Tier

def weight : Tier → Float
  | .first => 1.0
  | .second => 0.7
  | .third => 0.5
  | .fourth => 0.3

/-- How a tier is named by its number. -/
def key (t : Tier) : String := String.ofList [Nat.digitChar t.number]

def ofKey? (name : Text) : Option Tier := all.find? (fun t => .whole t.key == name)

end Tier

namespace Phase

/-- The weakest tier that is strong enough for a phase. -/
def weakestTier : Phase → Tier
  | .genesis => .fourth
  | .adolescent => .third
  | .mature => .second
  | .systemic => .first

/-- What an item is held against in the phase that a value names: the number of the weakest tier that is
strong enough. -/
def threshold (phase : Value) : Except Failure Value := do
  let name ← phase.quote
  return match Phase.ofName? name.plain with
    | some p => .ofCount p.weakestTier.number
    | none => .ofOption SharedMember.toValue (SharedMember.ofName? name)

end Phase

namespace Evidence

/-- What an item weighs. -/
inductive Weight where
  /-- A weight of its own or that of its tier; absent without either. -/
  | value (v : Value)
  /-- What the table of weights holds under the name of its tier without being a weight. -/
  | shared (m : SharedMember)

namespace Weight

def toValue : Weight → Value
  | .value v => v
  | .shared m => m.toValue

def told : Weight → Value
  | .value v => v
  | .shared m => m.told

end Weight

/-- What the table of weights holds under a name. -/
def weightUnder (name : Text) : Weight :=
  match Tier.ofKey? name, SharedMember.ofName? name with
  | some t, _ => .value (.num t.weight)
  | none, some m => .shared m
  | none, none => .value .absent

/-- What an item weighs: its own weight if it has one, else that of the tier it names. -/
def weight (item : Value) : Except Failure Weight := do
  let own ← item.ask "weightOverride"
  if own.isNothing then return weightUnder (← (item.entry "tier").quote)
  else return .value own

def total (items : List Value) : Except Failure Value :=
  items.foldlM (fun sum item => do sum.plus (← weight item).toValue) (.num 0.0)

/-- The item is at least as strong as the tier with a number. -/
def meets (threshold item : Value) : Except Failure Bool := do
  let tier ← item.ask "tier"
  tier.atMost threshold

end Evidence

structure EvidenceScore where
  weightedScore : Float
  minTierMet : Bool
  deriving DecidableEq

/-- The score of a body of evidence.  No evidence scores zero and meets no tier. -/
def EvidenceScore.of (items phase : Value) : Except Failure EvidenceScore := do
  let length ← items.ask "length"
  if length.same (.num 0.0) then return ⟨0.0, false⟩
  else
    match items with
    | .arr vs =>
      let total ← (← Evidence.total vs).number
      let threshold ← Phase.threshold phase
      let met ← vs.anyM (Evidence.meets threshold)
      return ⟨total / Float.ofNat vs.length, met⟩
    | v => .error (v.lacks "items" "reduce")

end PolicyGates
