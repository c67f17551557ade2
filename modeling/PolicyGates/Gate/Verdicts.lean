import PolicyGates.Budget
import PolicyGates.Evidence
import PolicyGates.Gate.Basic
import PolicyGates.Settings.Basic
import PolicyGates.Text.Blank
/-!
# What the gates check

Each gate charges its cost to the budget and then looks at the proposal.  What it finds depends
on the proposal, the settings and the phase, and on nothing that happened before: neither on
the mode nor on the budget nor on other gates.

A gate looks at the document of a proposal and takes it as it is.  With a document that was
checked nothing can go wrong; of any other a gate says what it can, and fails where a member
that it needs is not there or is of no use.
-/
namespace PolicyGates

/-- What a gate looks at besides the proposal.  Settings and phase are values, since a run may be
asked for with settings that nobody has checked. -/
structure Circumstances where
  settings : Value
  phase : Value
  mode : Mode

/-- What a check comes to, before its cost is known. -/
structure Opinion where
  outcome : Outcome
  message : Text
  viabilityPowerDelta : Value

namespace Opinion

def pass (message : Text) : Opinion := ⟨.pass, message, .absent⟩

def fail (message : Text) : Opinion := ⟨.fail, message, .absent⟩

def escalate (message : Text) : Opinion := ⟨.escalate, message, .absent⟩

end Opinion

namespace Gate

/-- The energy that is left over: the three terms added from left to right. -/
def netEnergy (p : Value) : Except Failure Value := do
  let industrial ← p.ask "eIndustrial"
  let ecosystem ← p.ask "eEcosystem"
  let sum ← industrial.plus ecosystem
  sum.plus (← p.ask "eInteraction")

/-- More energy is yielded than taken, in sum and by what is invested. -/
def judgeSolvency (p : Value) : Except Failure Opinion := do
  let net ← netEnergy p
  let netText ← net.quote
  if ← net.atMost (.num 0.0) then
    return .fail ("thermodynamically insolvent: E_net " ++ netText ++ " <= 0")
  else
    let invested ← p.ask "eInvested"
    let production ← p.ask "eProduction"
    let taken ← invested.quote
    let yielded ← production.quote
    if ← production.atMost invested then
      return .fail ("thermodynamically insolvent: E_invested " ++ taken ++ " >= E_production " ++ yielded)
    else
      return .pass ("Solvent: E_net " ++ netText ++ ", E_invested " ++ taken ++ " < E_production " ++ yielded)

/-- An alternative model counts if it is named by more than blanks. -/
def countsAsModel : Value → Except Failure Bool
  | .str name => .ok (!Text.allBlank name.plain)
  | v => .error (v.lacks "m" "trim")

/-- At least one alternative model is declared. -/
def judgeVariety (p : Value) : Except Failure Opinion := do
  match ← p.ask "alternativeModels" with
  | .arr vs =>
    let models ← vs.filterM countsAsModel
    if models.length = 0 then return .fail "No dissenting or alternative model declared"
    else return .pass (Decimal.text (Float.ofNat models.length) ++ " alternative model(s) declared")
  | v => .error (v.lacks "p.alternativeModels" "filter")

/-- The memory stays below the limit. -/
def judgeHardware (settings p : Value) : Except Failure Opinion := do
  let limit ← settings.ask "memoryLimitBytes"
  let memory ← p.ask "estimatedMemoryBytes"
  let limitText ← limit.quote
  let memoryText ← memory.quote
  if ← limit.atMost memory then
    return .fail ("Hard resource limit: estimated memory " ++ memoryText ++ " bytes >= limit " ++ limitText ++ " bytes")
  else
    return .pass ("Estimated memory " ++ memoryText ++ " bytes within limit " ++ limitText ++ " bytes")

/-- The evidence weighs enough and some of it is strong enough for the phase. -/
def judgeEvidence (settings phase p : Value) : Except Failure Opinion := do
  let score ← EvidenceScore.of (← p.ask "evidenceItems") phase
  let threshold ← settings.ask "evidenceScoreThreshold"
  let shown := Decimal.text score.weightedScore
  let light ← (Value.num score.weightedScore).less threshold
  let needed ← threshold.quote
  let phaseName ← phase.quote
  let problems : List Text :=
    (if light then ["weighted score " ++ shown ++ " < " ++ needed] else [])
    ++ (if score.minTierMet then [] else ["no evidence meets the minimum tier for phase " ++ phaseName])
  if problems = [] then return .pass ("Evidence sufficient: weighted score " ++ shown ++ " >= " ++ needed)
  else return .fail ("Insufficient evidence: " ++ Text.intercalate "; " problems)

/-- Viability power is claimed only where regeneration reaches its threshold. -/
def judgeViability (settings p : Value) : Except Failure Opinion := do
  let threshold ← settings.ask "rAbsoluteThreshold"
  let regeneration ← p.ask "rAbsolute"
  let needed ← threshold.quote
  let shown ← regeneration.quote
  let claim ← p.ask "viabilityPowerClaim"
  if ← threshold.atMost regeneration then
    return ⟨.pass, "VP accrual permitted: R_absolute " ++ shown ++ " >= " ++ needed, claim⟩
  else if ← (Value.num 0.0).less claim then
    return ⟨.fail, "VP accrual of " ++ (← claim.quote) ++ " claimed with R_absolute " ++ shown ++ " < " ++ needed,
      .num 0.0⟩
  else return ⟨.pass, "VP delta zero: R_absolute " ++ shown ++ " < " ++ needed, .num 0.0⟩

/-- What bears too strongly on people is theirs to judge. -/
def judgeImpact (settings p : Value) : Except Failure Opinion := do
  let threshold ← settings.ask "escalationThreshold"
  let impact ← p.ask "impactScore"
  let limit ← threshold.quote
  let shown ← impact.quote
  if ← threshold.less impact then
    return .escalate ("Impact " ++ shown ++ " exceeds escalation threshold " ++ limit ++ ": human judgment required")
  else return .pass ("Impact " ++ shown ++ " within threshold " ++ limit)

/-- What the gate says of a proposal. -/
def judge (g : Gate) (settings phase p : Value) : Except Failure Opinion :=
  match g with
  | .thermodynamicSolvency => judgeSolvency p
  | .cognitiveVariety => judgeVariety p
  | .hardwareViability => judgeHardware settings p
  | .evidenceSufficiency => judgeEvidence settings phase p
  | .viabilityPower => judgeViability settings p
  | .humanEscalation => judgeImpact settings p

/-- What the gate costs beyond its base price: the evidence gate looks at every item. -/
def surcharge (g : Gate) (costs p : Value) : Except Failure Value := do
  match g with
  | .evidenceSufficiency =>
    let count ← (← p.ask "evidenceItems").ask "length"
    count.times (← costs.ask "perEvidenceItem")
  | _ => return .num 0.0

/-- What it costs to take a proposal through the gate. -/
def cost (g : Gate) (settings p : Value) : Except Failure Value := do
  let costs ← settings.ask "gateCosts"
  let base ← (← costs.ask "base").ask g.key
  base.plus (← g.surcharge costs p)

/-- What the gate finds, at its full cost. -/
def finding (g : Gate) (c : Circumstances) (p : Value) (cost : Float) : Except Failure GateResult := do
  let o ← g.judge c.settings c.phase p
  return ⟨g, o.outcome, o.message, cost, o.viabilityPowerDelta⟩

/-- Takes a proposal through the gate: the cost is charged first, and a charge that is refused
keeps the gate from looking.  What is charged stays charged, also if the gate then fails. -/
def evaluate (g : Gate) (c : Circumstances) (p : Value) (b : Budget) : Budget × Except Failure GateResult :=
  match g.cost c.settings p with
  | .error f => (b, .error f)
  | .ok cost =>
    match b.chargeAny cost with
    | .error f => (b, .error f)
    | .ok charged => (charged, g.finding c p (cost.asNumber?.getD 0.0))

end Gate

end PolicyGates
