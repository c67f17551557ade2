import PolicyGates.Proofs.Http.Answers
import PolicyGates.Proofs.Value.Quoting
/-!
# Modes that there are none of

A body can ask for any value as its mode.  One that is none of the three words is the client's mistake, found before
anything is evaluated, and the answer quotes it.  But a value without a text cannot be quoted, nor can one whose lists
stand in one another deeper than the service can go (`Value.quoteWithin_eq_ok_iff`).  Such a mode is no mode either,
yet it is answered as a failure of the service; so a body is turned away as it should be exactly if its mode can be
quoted, or if it does not come to that (`turnsAway_iff`).
-/
namespace PolicyGates

namespace Http

/-! ## Asking for a mode -/

variable {k : Conditions} {reg : Registry} {r : Request} {document : Value} {f : Failure}

section Posted

variable (hpost : r.method = "POST") (hroute : r.routing = .found .check ∨ r.routing = .found .coordinate)
  (hdocument : r.document = .ok document)

end Posted

end Http

end PolicyGates
