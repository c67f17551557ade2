import PolicyGates.Failure
import PolicyGates.Schema
import PolicyGates.Settings.Basic
/-!
# Making settings

Settings are the standard ones with some of them overridden.  Overriding works member by
member, two levels deep for the costs of the gates; what comes out is then checked as a
whole, so a member that is overridden with nothing is missing, while one that is not
mentioned keeps its standard value.
-/
namespace PolicyGates

open Schema

/-- The members that a value contributes when it is laid over an object: those of an object,
the items of a list and the units of a text under their indices, and none otherwise. -/
def Value.overlay : Value → Members
  | .obj ms => ms
  | .arr vs => vs.mapIdx (fun i v => (.whole (toString i), v))
  | .str s => s.units.mapIdx (fun i u => (.whole (toString i), .str (.ofUnits [u])))
  | _ => []

namespace Settings

def phaseSourceCheck : Check := fun v =>
  match v with
  | .obj ms =>
    match Members.get "kind" ms with
    | .str (.whole "proposal") => []
    | .str (.whole "entityCount") => Fields.issues [("entityCount", number [.whole, .least 0.0])] ms
    | _ => under "kind" (refuse "Invalid discriminator value. Expected 'proposal' | 'entityCount'")
  | v => expected "object" v

/-- A price: a whole number that is not negative. -/
def priceCheck : Check := number [.whole, .least 0.0]

def costFields : Fields :=
  [("base", openObject (Gate.all.map (fun g => (g.key, priceCheck)))), ("perEvidenceItem", priceCheck)]

/-- The members of settings, in the order in which issues are told. -/
def fields : Fields :=
  [("mode", oneOf Mode.names),
   ("memoryLimitBytes", number [.whole, .above 0.0]),
   ("evidenceScoreThreshold", number [.least 0.0, .greatest 1.0]),
   ("rAbsoluteThreshold", number [.finite]),
   ("escalationThreshold", number [.least 0.0, .greatest 1.0]),
   ("phaseSource", phaseSourceCheck),
   ("gateCosts", openObject costFields),
   ("concurrency", number [.whole, .above 0.0]),
   ("timeoutMs", optional (number [.whole, .above 0.0]))]

def issues : Check := openObject fields

/-- The standard settings with those of a value laid over them. -/
def merged (overrides : Value) : Value :=
  let costs := overrides.member "gateCosts"
  let base := Members.override (standard.gateCosts.toValue.member "base").members (costs.member "base").overlay
  let perItem := costs.member "perEvidenceItem"
  let costs : Members :=
    [("base", .obj base),
     ("perEvidenceItem", if perItem.isNothing then .num standard.gateCosts.perEvidenceItem else perItem)]
  .obj (Members.put (Members.override standard.toValue.members overrides.overlay) "gateCosts" (.obj costs))

/-- The settings that a value describes, or all that is wrong with it. -/
def ofChecked (v : Value) : Except PolicyError Settings :=
  match issues v with
  | [] => .ok (ofValue v)
  | is => .error (.invalidConfig (.malformed (is.map (Issue.text ""))))

/-- The standard settings with the given overrides; without any, the standard settings.  A null
cannot be asked for its overrides. -/
def create (overrides : Value) : Except Failure Settings :=
  match overrides with
  | .null => .error (.noMembers .null "gateCosts")
  | v =>
    match ofChecked (merged v) with
    | .ok s => .ok s
    | .error e => .error (.policy e)

end Settings

end PolicyGates
