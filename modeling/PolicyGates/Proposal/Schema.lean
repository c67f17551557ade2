import PolicyGates.Failure
import PolicyGates.Proposal.Basic
import PolicyGates.Schema
/-!
# The form of a proposal

What a document has to look like to be taken as a proposal.  A document that passes is read
in full; of one that does not, every place that is wrong is told and nothing is evaluated.
-/
namespace PolicyGates

open Schema

def Schema.share : Check := number [.least 0.0, .greatest 1.0]

def EvidenceItem.fields : Fields :=
  [("tier", oneNumberOf (Tier.all.map (fun t => Float.ofNat t.number))),
   ("weightOverride", optional share)]

namespace Proposal

/-- The members of a proposal, in the order in which issues are told. -/
def fields : Fields :=
  [("proposalId", filledText),
   ("eIndustrial", number [.finite]),
   ("eEcosystem", number [.finite]),
   ("eInteraction", number [.finite]),
   ("eInvested", number [.finite]),
   ("eProduction", number [.finite]),
   ("estimatedMemoryBytes", number [.whole, .least 0.0]),
   ("evidenceItems", listOf (closedObject EvidenceItem.fields)),
   ("rAbsolute", number [.finite]),
   ("entityTrustScore", share),
   ("energyBudgetTokens", number [.whole, .above 0.0]),
   ("vsmFunction", oneOf (SystemFunction.all.map SystemFunction.name)),
   ("phaseContext", oneOf (Phase.all.map Phase.name)),
   ("alternativeModels", optional (listOf text)),
   ("impactScore", optional share),
   ("viabilityPowerClaim", optional (number [.finite, .least 0.0])),
   ("dependsOn", optional (listOf filledText))]

def issues : Check := closedObject fields

/-- The proposal that a document holds, or all that is wrong with the document. -/
def create (v : Value) : Except PolicyError Proposal :=
  match issues v with
  | [] => .ok (ofValue v)
  | is => .error (.invalidProposal (.malformed (is.map (Issue.text "<root>"))))

end Proposal

end PolicyGates
