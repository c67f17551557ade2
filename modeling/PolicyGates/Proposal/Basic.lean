import PolicyGates.Value.Basic
/-!
# Proposals

A proposal is what the gates judge: an account of the energy it takes and yields, the memory
it needs, the evidence behind it, how strongly it bears on people, and the proposals that
have to be decided before it.
-/
namespace PolicyGates

/-- Growth stages of the population, each asking for stronger evidence than the one before. -/
inductive Phase where
  | genesis
  | adolescent
  | mature
  | systemic
  deriving DecidableEq, Repr, Inhabited

namespace Phase

def all : List Phase := [.genesis, .adolescent, .mature, .systemic]

def name : Phase → String
  | .genesis => "Genesis"
  | .adolescent => "Adolescent"
  | .mature => "Mature"
  | .systemic => "Systemic"

def ofName? (s : String) : Option Phase := all.find? (fun p => p.name == s)

def ofEntityCount (n : Float) : Phase :=
  if n < 10.0 then .genesis
  else if n < 100.0 then .adolescent
  else if n < 1000.0 then .mature
  else .systemic

end Phase

/-- How strong a piece of evidence is; the first tier is the strongest. -/
inductive Tier where
  | first
  | second
  | third
  | fourth
  deriving DecidableEq, Repr, Inhabited

namespace Tier

def all : List Tier := [.first, .second, .third, .fourth]

def number : Tier → Nat
  | .first => 1
  | .second => 2
  | .third => 3
  | .fourth => 4

def ofNumber? (x : Float) : Option Tier := all.find? (fun t => Float.ofNat t.number == x)

end Tier

structure EvidenceItem where
  tier : Tier
  /-- Counts in place of the weight of the tier. -/
  weightOverride : Option Float
  deriving DecidableEq, Inhabited

/-- The part of the organisation that a proposal belongs to. -/
inductive SystemFunction where
  | a
  | b
  | c
  | d
  | e
  deriving DecidableEq, Repr, Inhabited

namespace SystemFunction

def all : List SystemFunction := [.a, .b, .c, .d, .e]

def name : SystemFunction → String
  | .a => "A"
  | .b => "B"
  | .c => "C"
  | .d => "D"
  | .e => "E"

def ofName? (s : String) : Option SystemFunction := all.find? (fun f => f.name == s)

end SystemFunction

structure Proposal where
  proposalId : Text
  eIndustrial : Float
  eEcosystem : Float
  eInteraction : Float
  eInvested : Float
  eProduction : Float
  estimatedMemoryBytes : Float
  evidenceItems : List EvidenceItem
  rAbsolute : Float
  entityTrustScore : Float
  energyBudgetTokens : Float
  vsmFunction : SystemFunction
  phaseContext : Phase
  alternativeModels : List Text
  impactScore : Float
  viabilityPowerClaim : Float
  dependsOn : List Text
  deriving DecidableEq, Inhabited

namespace Proposal

/-- The energy that is left over: the three terms added from left to right. -/
def netEnergy (p : Proposal) : Float := p.eIndustrial + p.eEcosystem + p.eInteraction

end Proposal

/-! ## Proposals as values -/

def EvidenceItem.toValue (e : EvidenceItem) : Value :=
  .obj [("tier", .ofCount e.tier.number), ("weightOverride", .ofOption .num e.weightOverride)]

/-- The item that a value describes.  Only values that passed the checks are described in full;
of any other value, what is out of place is read as some default. -/
def EvidenceItem.ofValue (v : Value) : EvidenceItem where
  tier := ((v.member "tier").asNumber?.bind Tier.ofNumber?).getD default
  weightOverride := (v.member "weightOverride").asNumber?

namespace Proposal

def toValue (p : Proposal) : Value :=
  .obj [
    ("proposalId", .str p.proposalId),
    ("eIndustrial", .num p.eIndustrial),
    ("eEcosystem", .num p.eEcosystem),
    ("eInteraction", .num p.eInteraction),
    ("eInvested", .num p.eInvested),
    ("eProduction", .num p.eProduction),
    ("estimatedMemoryBytes", .num p.estimatedMemoryBytes),
    ("evidenceItems", .arr (p.evidenceItems.map EvidenceItem.toValue)),
    ("rAbsolute", .num p.rAbsolute),
    ("entityTrustScore", .num p.entityTrustScore),
    ("energyBudgetTokens", .num p.energyBudgetTokens),
    ("vsmFunction", .str p.vsmFunction.name),
    ("phaseContext", .str p.phaseContext.name),
    ("alternativeModels", .arr (p.alternativeModels.map .str)),
    ("impactScore", .num p.impactScore),
    ("viabilityPowerClaim", .num p.viabilityPowerClaim),
    ("dependsOn", .arr (p.dependsOn.map .str))]

/-- The proposal that a value describes, under the same proviso as `EvidenceItem.ofValue`.  What is
absent has its default: no alternative models, no impact, no claim, no dependencies. -/
def ofValue (v : Value) : Proposal :=
  let text (key : String) : Text := (v.member key).asText?.getD default
  let number (key : String) : Float := (v.member key).asNumber?.getD 0.0
  let texts (key : String) : List Text := (v.member key).items.filterMap Value.asText?
  { proposalId := text "proposalId"
    eIndustrial := number "eIndustrial"
    eEcosystem := number "eEcosystem"
    eInteraction := number "eInteraction"
    eInvested := number "eInvested"
    eProduction := number "eProduction"
    estimatedMemoryBytes := number "estimatedMemoryBytes"
    evidenceItems := (v.member "evidenceItems").items.map EvidenceItem.ofValue
    rAbsolute := number "rAbsolute"
    entityTrustScore := number "entityTrustScore"
    energyBudgetTokens := number "energyBudgetTokens"
    vsmFunction := (SystemFunction.ofName? (text "vsmFunction").plain).getD default
    phaseContext := (Phase.ofName? (text "phaseContext").plain).getD default
    alternativeModels := texts "alternativeModels"
    impactScore := number "impactScore"
    viabilityPowerClaim := number "viabilityPowerClaim"
    dependsOn := texts "dependsOn" }

end Proposal

end PolicyGates
