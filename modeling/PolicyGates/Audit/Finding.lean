import PolicyGates.Value.Basic
/-!
# Findings

What a look through the audit log comes to.
-/
namespace PolicyGates.Audit

structure Finding where
  valid : Bool
  /-- The sequence number at which the chain first breaks. -/
  firstBrokenLink : Option Value
  reason : Text
  /-- How many records were found to be in order. -/
  checked : Nat

namespace Finding

/-- Nothing is broken. -/
def intact (checked : Nat) : Finding := ⟨true, none, "chain intact", checked⟩

def broken (link : Value) (reason : Text) (checked : Nat) : Finding :=
  ⟨false, some link, reason, checked⟩

/-- The broken link as a value; null if there is none. -/
def linkValue (f : Finding) : Value := f.firstBrokenLink.getD .null

def toValue (f : Finding) : Value :=
  .obj [("valid", .bool f.valid), ("firstBrokenLink", f.linkValue), ("reason", .str f.reason),
    ("checked", .ofCount f.checked)]

end Finding

end PolicyGates.Audit
