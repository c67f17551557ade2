import PolicyGates.Proofs.Audit.Growth
import PolicyGates.Proofs.Coordination
import PolicyGates.Proofs.Decision
import PolicyGates.Proofs.Value.Reading
/-!
# Records that come back from the wire

The text of a decision is read back as its normal form, so the record that comes back has the hashed fields of the one
that was sent and a decision with the same text (`exists_returned`).  A verification asks a record for nothing else: it
finds in a history that came back what it finds in the one that was sent (`walk_of_returns`).
-/
namespace PolicyGates

/-- A decision as registries draw them up: on a run of a checked proposal under checked settings, in any mode that a
document can ask for. -/
def Decision.IsDrawn (d : Decision) : Prop :=
  ∃ (reg : Registry) (p : Proposal) (mode : Mode) (r : Run) (b : Budget) (time : Instant),
    reg.settings.IsChecked ∧ p.IsChecked ∧ (∀ asked, mode = .unlisted asked → asked.IsDocument)
    ∧ Progress.EndsIn (reg.circumstances p mode) p.toValue (.fresh (.fresh p.energyBudgetTokens)) r b
    ∧ d = reg.drawn p mode r b.spent time

theorem Decision.IsDrawn.isDocument {d : Decision} (h : d.IsDrawn) : d.toValue.IsDocument := by
  obtain ⟨reg, p, mode, r, b, time, hs, hp, hmode, hends, rfl⟩ := h
  obtain ⟨hr, hb⟩ := Progress.EndsIn.isReported hs hp hends
  exact hr.isDocument hb.spent (Mode.isDocument hmode) _ _ _

namespace Audit

/-- A record with what a record that came back has to have of it. -/
structure Record.Returns (r r' : Record) : Prop where
  sequenceNumber : r'.sequenceNumber = r.sequenceNumber
  proposalHash : r'.proposalHash = r.proposalHash
  prevHash : r'.prevHash.value = r.prevHash.value
  decisionSummary : r'.decisionSummary = r.decisionSummary
  recordHash : r'.recordHash.value = r.recordHash.value
  canonical : .str r'.decision.canonical = r.decisionSummary
  decision : Value.Alike r.decision r'.decision

theorem exists_returned {r : Record} (hdoc : r.decision.IsDocument)
    (hsummary : r.decisionSummary = .str r.decision.canonical) :
    ∃ r', Record.ofWire r.toWire = .ok r' ∧ r.Returns r' := by
  let r' : Record :=
    ⟨r.sequenceNumber, r.proposalHash, .loose r.prevHash.value, r.decisionSummary, .loose r.recordHash.value,
      Value.normal r.decision⟩
  refine ⟨r', ?_, ⟨rfl, rfl, rfl, rfl, rfl, ?_, Value.alike_normal hdoc⟩⟩
  · have hparse : Value.parseText? (.whole r.decision.canonical) = some (Value.normal r.decision) :=
      Value.parse?_canonical hdoc.hasDistinctKeys
    have hquote : r.toWire.decisionSummary.quote = .ok (.whole r.decision.canonical) := by
      show r.decisionSummary.quote = _
      rw [hsummary]
      rfl
    unfold Record.ofWire
    rw [hquote]
    simp only [bind, Except.bind, hparse]
    rfl
  · show Value.str (Value.normal r.decision).canonical = r.decisionSummary
    rw [hsummary]
    unfold Value.canonical
    rw [Value.normal_normal hdoc.hasDistinctKeys]

/-! ## Verification -/

/-- A link that asks for the same number and the same text. -/
def Link.Matches (l l' : Link) : Prop := l'.next = l.next ∧ ∃ t, l.prev.value = .str t ∧ l'.prev.value = .str t

theorem flaw?_of_returns {r r' : Record} {l l' : Link} (h : r.Returns r') (hl : l.Matches l')
    (hcanonical : r.decisionSummary = .str r.decision.canonical) : r'.flaw? l' = r.flaw? l := by
  obtain ⟨hnext, t, ht, ht'⟩ := hl
  have hprev : r'.prevHash.same l'.prev = r.prevHash.same l.prev := by
    rw [Bool.eq_iff_iff, Hash.same_iff ht', Hash.same_iff ht, h.prevHash]
  have hproper : r'.properHash = r.properHash := by
    unfold Record.properHash
    rw [h.sequenceNumber, h.proposalHash, h.prevHash, h.decisionSummary]
  have hdecision : r'.decision.canonical = r.decision.canonical := by
    have := h.canonical.trans hcanonical
    rw [Value.str.injEq, Text.whole.injEq] at this
    exact this
  unfold Record.flaw?
  rw [h.sequenceNumber, hnext, hprev, hproper, h.recordHash, hdecision, h.decisionSummary]

theorem link_of_returns {r r' : Record} (h : r.Returns r') {t : Text} (ht : r.recordHash.value = .str t) :
    (∃ f, r.link = .error f ∧ r'.link = .error f) ∨ ∃ l l', r.link = .ok l ∧ r'.link = .ok l' ∧ l.Matches l' := by
  unfold Record.link
  rw [h.sequenceNumber]
  cases r.sequenceNumber.plus (.num 1.0) with
  | error f => exact .inl ⟨f, rfl, rfl⟩
  | ok next => exact .inr ⟨_, _, rfl, rfl, rfl, t, ht, h.recordHash.trans ht⟩

theorem walk_of_returns (first last : Value) {history history' : List Record}
    (h : List.Forall₂ Record.Returns history history')
    (hsound : ∀ r ∈ history, r.decisionSummary = .str r.decision.canonical ∧ ∃ t, r.recordHash.value = .str t)
    {l l' : Link} (hl : l.Matches l') (checked : Nat) :
    walk first last l' checked history' = walk first last l checked history := by
  induction h generalizing l l' checked with
  | nil => rfl
  | @cons r r' rest rest' hr hrest ih =>
    obtain ⟨⟨hsummary, t, ht⟩, hsound⟩ := List.forall_mem_cons.1 hsound
    rw [walk, walk, hr.sequenceNumber, flaw?_of_returns hr hl hsummary]
    have hgo : ∀ n : Nat, (do walk first last (← r'.link) n rest') = (do walk first last (← r.link) n rest) := by
      intro n
      rcases link_of_returns hr ht with ⟨f, hlink, hlink'⟩ | ⟨m, m', hlink, hlink', hm⟩
      · rw [hlink, hlink']
        rfl
      · rw [hlink, hlink']
        exact ih hsound hm n
    simp only [hgo]

section Judged

variable (reg : Registry) (p : Proposal) (time : Instant)

/-- What is decided on a proposal that nobody gives up. -/
def judged : Decision :=
  let (r, b) := Run.of (reg.circumstances p .enforce) p.toValue (.fresh p.energyBudgetTokens) fun _ => none
  reg.drawn p .enforce r b.spent time

variable {reg p}

theorem isDrawn_judged (hs : reg.settings.IsChecked) (hp : p.IsChecked) : (judged reg p time).IsDrawn := by
  have hends := Progress.endsIn_of (reg.circumstances p .enforce) p.toValue (.fresh p.energyBudgetTokens) fun _ => none
  exact ⟨reg, p, .enforce, _, _, time, hs, hp, (fun asked h => by cases h), hends, rfl⟩

end Judged

/-- **Records come back from the wire.**  The record of a decision comes back with the same hashed fields and hash, and
with a decision that is the same but for the sign of zeros and has the text that was hashed.  So of every log that has
recorded only decisions, all records come back, and a verification of any range finds the same in them. -/
theorem wire_exact :
    (∀ (l l' : Log) (proposalHash : Value) (d : Decision) (r : Record), d.IsDrawn →
      l.append proposalHash d.toValue = (l', .ok r) → ∃ r', Record.ofWire r.toWire = .ok r' ∧ r.Returns r')
    ∧ ∀ s : SharedLog, s.IsReachable → (∀ r ∈ s.log.history, ∃ d : Decision, d.IsDrawn ∧ r.decision = d.toValue) →
      ∃ history', s.log.history.mapM (fun r => Record.ofWire r.toWire) = .ok history'
        ∧ List.Forall₂ Record.Returns s.log.history history'
        ∧ ∀ first last, verify first last history' = verify first last s.log.history := by
  refine ⟨fun l l' proposalHash d r hd h => ?_, fun s hs hdrawn => ?_⟩
  · obtain ⟨number, rfl⟩ := Log.exists_make (Log.append_eq_ok h).1
    exact exists_returned hd.isDocument rfl
  · have hsound : ∀ r ∈ s.log.history, r.decisionSummary = .str r.decision.canonical
      ∧ ∃ t, r.recordHash.value = .str t := by
      intro r hr
      obtain ⟨i, hi⟩ := List.mem_iff_getElem?.1 hr
      have hcont := hs.isSound.log.chain i r hi
      exact ⟨hcont.decisionSummary, _, hcont.recordHash⟩
    have hreturned : ∀ r ∈ s.log.history, ∃ r', Record.ofWire r.toWire = .ok r' ∧ r.Returns r' := by
      intro r hr
      obtain ⟨d, hd, hdecision⟩ := hdrawn r hr
      exact exists_returned (hdecision ▸ hd.isDocument) (hsound r hr).1
    obtain ⟨history', hmap, hreturns⟩ := exists_mapM_eq_ok hreturned
    exact ⟨history', hmap, hreturns, fun first last => walk_of_returns first last hreturns hsound ⟨rfl, _, rfl, rfl⟩ 0⟩

/-- A decision with the results of all six gates, one of which tells of viability power, on a proposal with a quote
and a line break in its id. -/
theorem judged_returns :
    let reg := Registry.start (.ofValue (Settings.merged (.obj []))) none (.startingAt Clock.defaultStart)
    let d := judged reg (.ofValue (.obj (Registry.namedMembers "\"later\"\n" []))) ⟨0⟩
    d.results.map GateResult.gate = Gate.all ∧ d.results.any (fun x => !x.viabilityPowerDelta.isAbsent)
      ∧ ∃ (l : Log) (r : Record), (Log.opened none).append (.str "0") d.toValue = (l, .ok r)
        ∧ (∃ r', Record.ofWire r.toWire = .ok r' ∧ r.Returns r')
        ∧ ∃ history', l.history.mapM (fun r => Record.ofWire r.toWire) = .ok history'
          ∧ List.Forall₂ Record.Returns l.history history'
          ∧ ∀ first last, verify first last history' = verify first last l.history := by
  intro reg d
  have hd : d.IsDrawn := isDrawn_judged _ (Settings.isChecked_of_create (v := .obj []) rfl)
    (Proposal.isChecked_of_create (Registry.create_namedMembers rfl))
  have hopened : (Log.opened none).IsSound := Log.isSound_unstored
  obtain ⟨l, r, happend, -, -, hhistory, -, hdecision⟩ := hopened.append Log.accepts_unstored (.str "0") d.toValue
  have hfresh : (SharedLog.opened none).IsReachable := .fresh fun s hs => by cases hs
  have hreach : SharedLog.IsReachable ⟨l, [], none⟩ := by
    have := hfresh.append (.str "0") d.toValue
    rwa [happend] at this
  refine ⟨by decide +kernel, by decide +kernel, l, r, happend, wire_exact.1 _ _ _ _ _ hd happend,
    wire_exact.2 _ hreach fun x hx => ?_⟩
  rw [hhistory] at hx
  obtain rfl := List.mem_singleton.1 hx
  exact ⟨d, hd, hdecision⟩

end Audit
end PolicyGates
