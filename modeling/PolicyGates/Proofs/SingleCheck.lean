import PolicyGates.Proofs.AtRest
/-!
# What a single check leaves behind

A check by itself does nothing but conclude one run (`check_eq`), unless its document holds no proposal and it does
nothing at all (`passBy_eq`).  So it ends in one of three ways, which exclude each other (`check_ends_once`): the
document is malformed and all stays as it was, the store refuses the record and whoever comes next gets its place, or
the log gains the record of the very decision that is delivered.
-/
namespace PolicyGates

/-! ## Appends -/

namespace Audit.Log

variable {l : Log}

theorem IsSound.append_of_refuses (h : l.IsSound) (hrefuses : l.Refuses) (proposalHash decision : Value) :
    ∃ log, l.append proposalHash decision = (log, .error refusal) := by
  obtain ⟨r, hr, -⟩ := h.exists_nextRecord proposalHash decision
  obtain ⟨⟨records, refusals, arrivals⟩, hs, hhead⟩ := hrefuses
  obtain ⟨more, rfl⟩ := List.head?_eq_some_iff.1 hhead
  unfold Log.append
  rw [hr]
  simp only [hs, Store.append]
  exact ⟨_, rfl⟩

theorem IsSound.append_of_not_refuses (h : l.IsSound) (haccepts : ¬l.Refuses) (proposalHash decision : Value) :
    ∃ log x, l.append proposalHash decision = (log, .ok x) := by
  cases happend : l.append proposalHash decision with
  | mk log answer =>
    cases answer with
    | ok x => exact ⟨log, x, rfl⟩
    | error f =>
      obtain ⟨r, hr, -⟩ := h.exists_nextRecord proposalHash decision
      exfalso
      unfold Log.append at happend
      rw [hr] at happend
      dsimp only at happend
      split at happend
      · next store hs =>
        obtain ⟨records, refusals, arrivals⟩ := store
        cases refusals with
        | nil => cases happend
        | cons b rest =>
          cases b with
          | false => cases happend
          | true => exact haccepts ⟨_, hs, rfl⟩
      · cases happend

theorem next_of_latest {l' : Log} (h : l'.latest = l.latest) :
    l'.lastNumber = l.lastNumber ∧ l'.lastHash = l.lastHash := by
  unfold lastNumber lastHash
  rw [h]
  exact ⟨rfl, rfl⟩

end Audit.Log

namespace Registry

variable {reg : Registry}

/-! ## Single checks -/

theorem passBy_eq (reg : Registry) (events : List Event) : ∃ now, reg.passBy events = { reg with elapsed := now } := by
  have hearlier : Scheduler.AwaitEarlier [] := fun n j hj => by cases hj
  have hcomes := Scheduler.comesTo_run hearlier reg 0 events
  unfold passBy
  generalize (Scheduler.run reg [] 0 events).registry = reg', (Scheduler.run reg [] 0 events).conclusions
    = conclusions at *
  induction hcomes with
  | opened => exact ⟨reg.elapsed, rfl⟩
  | elapsed _ now ih =>
    obtain ⟨_, rfl⟩ := ih
    exact ⟨now, rfl⟩
  | concluded _ hj => cases hj
  | failed _ hj => cases hj

/-- **A check concludes one run of its own**, and time may go by before and after that. -/
theorem check_eq {r : Request} {j : Job} (hj : reg.prepare r = .ok j) (events : List Event) :
    ∃ (run : Run) (b : Budget) (now now' : Float),
      Progress.EndsIn (reg.circumstances j.proposal j.mode) j.proposal.toValue j.opening run b
      ∧ reg.check r events
        = ({ ({ reg with elapsed := now }.conclude j.proposal j.mode run b.spent).1 with elapsed := now' },
          ({ reg with elapsed := now }.conclude j.proposal j.mode run b.spent).2.outcome) := by
  have hawaits := awaits_of_prepare hj
  have hfree : Scheduler.AreFree [j] := List.forall_mem_singleton.2 hawaits
  have hearlier : Scheduler.AwaitEarlier [j] := fun n j' hj' a ha => by
    rw [hfree j' (List.mem_of_getElem? hj')] at ha
    cases ha
  have hnumber : ∀ {n j'}, [j][n]? = some j' → n = 0 ∧ j' = j := by
    intro n j' hj'
    cases n with
    | zero => exact ⟨rfl, (Option.some.inj hj').symm⟩
    | succ n => cases hj'
  -- until the one job is concluded only time goes by, and afterwards it does again
  have hcomes : ∀ {reg' conclusions}, Scheduler.ComesTo reg [j] reg' conclusions →
      (conclusions = [] ∧ ∃ now, reg' = { reg with elapsed := now })
      ∨ ∃ (run : Run) (b : Budget) (now now' : Float),
        Progress.EndsIn (reg.circumstances j.proposal j.mode) j.proposal.toValue j.opening run b
        ∧ reg' = { ({ reg with elapsed := now }.conclude j.proposal j.mode run b.spent).1 with elapsed := now' }
        ∧ conclusions = [(0, ({ reg with elapsed := now }.conclude j.proposal j.mode run b.spent).2)] := by
    intro reg' conclusions h
    induction h with
    | opened => exact .inl ⟨rfl, reg.elapsed, rfl⟩
    | elapsed _ later ih =>
      rcases ih with ⟨hnil, now, rfl⟩ | ⟨run, b, now, now', hends, rfl, hone⟩
      · exact .inl ⟨hnil, later, rfl⟩
      · exact .inr ⟨run, b, now, later, hends, rfl, hone⟩
    | @concluded reg' conclusions n j' run b _ hj' hopen hpassed hends ih =>
      obtain ⟨rfl, rfl⟩ := hnumber hj'
      rcases ih with ⟨rfl, now, rfl⟩ | ⟨_, _, _, _, _, _, rfl⟩
      · exact .inr ⟨run, b, now, _, hends, rfl, rfl⟩
      · exact absurd ⟨_, List.mem_cons_self⟩ hopen
    | failed _ hj' hopen ha =>
      obtain ⟨-, rfl⟩ := hnumber hj'
      rw [hawaits] at ha
      cases ha
  obtain ⟨c, hc, hmem⟩ := Scheduler.exists_conclusion reg hfree events Nat.zero_lt_one
  rcases hcomes (Scheduler.comesTo_run hearlier reg 1 events) with ⟨hnil, -⟩ | ⟨run, b, now, now', hends, hreg, hone⟩
  · rw [show [j].length = 1 from rfl, hnil] at hmem
    cases hmem
  · refine ⟨run, b, now, now', hends, ?_⟩
    unfold check
    rw [hj]
    dsimp only
    rw [hreg, outcomeOf, Scheduler.conclusion?, hone]
    rfl

/-- The ways in which a check can end. -/
inductive CheckEnding where
  | malformed
  | refused
  | recorded

/-- The check ended in this way, judging from what it left behind and what came of it. -/
def EndsAs (reg : Registry) (r : Request) (later : Registry) (outcome : Except Failure Decision) : CheckEnding → Prop
  | .malformed => ∃ fault, Proposal.create r.document = .error (.invalidProposal fault)
    ∧ outcome = .error (.policy (.invalidProposal fault)) ∧ later = { reg with elapsed := later.elapsed }
  | .refused => (∃ p, Proposal.create r.document = .ok p) ∧ reg.log.Refuses ∧ outcome = .error Audit.Log.refusal
    ∧ later.log.history = reg.log.history ∧ later.ledger = reg.ledger ∧ later.metrics = reg.metrics
    ∧ later.log.lastNumber = reg.log.lastNumber ∧ later.log.lastHash = reg.log.lastHash
  | .recorded => ∃ (p : Proposal) (d : Decision) (x : Audit.Record), Proposal.create r.document = .ok p
    ∧ ¬reg.log.Refuses
    ∧ later.log.history = reg.log.history ++ [x] ∧ x.proposalHash = .str (Audit.hashOf p.toValue)
    ∧ x.decision = d.toValue
    ∧ later.ledger = reg.ledger ∧ later.metrics = (reg.metrics.count d).1
    ∧ d.mode = r.mode.getD reg.settings.mode
    ∧ (d.mode = .enforce ∧ d.overall = .reject → outcome = .error (.policy (.constraintViolation d.toValue)))
    ∧ (¬(d.mode = .enforce ∧ d.overall = .reject) → outcome = .ok d)

theorem EndsAs.eq {r : Request} {later : Registry} {outcome : Except Failure Decision} {e e' : CheckEnding}
    (h : reg.EndsAs r later outcome e) (h' : reg.EndsAs r later outcome e') : e = e' := by
  have hform : ∀ {fault : ProposalFault} {p : Proposal}, Proposal.create r.document = .error (.invalidProposal fault) →
      Proposal.create r.document = .ok p → False := fun hbad hgood => by
    rw [hbad] at hgood
    cases hgood
  cases e with
  | malformed =>
    obtain ⟨fault, hbad, -⟩ := h
    cases e' with
    | malformed => rfl
    | refused =>
      obtain ⟨⟨p, hp⟩, -⟩ := h'
      exact (hform hbad hp).elim
    | recorded =>
      obtain ⟨p, -, -, hp, -⟩ := h'
      exact (hform hbad hp).elim
  | refused =>
    obtain ⟨⟨p, hp⟩, hrefuses, -⟩ := h
    cases e' with
    | malformed =>
      obtain ⟨fault, hbad, -⟩ := h'
      exact (hform hbad hp).elim
    | refused => rfl
    | recorded =>
      obtain ⟨-, -, -, -, haccepts, -⟩ := h'
      exact absurd hrefuses haccepts
  | recorded =>
    obtain ⟨p, -, -, hp, haccepts, -⟩ := h
    cases e' with
    | malformed =>
      obtain ⟨fault, hbad, -⟩ := h'
      exact (hform hbad hp).elim
    | refused =>
      obtain ⟨-, hrefuses, -⟩ := h'
      exact absurd hrefuses haccepts
    | recorded => rfl

theorem outcome_deliver (reg : Registry) (d : Decision) :
    (d.mode = .enforce ∧ d.overall = .reject →
      (reg.deliver d).2.outcome = .error (.policy (.constraintViolation d.toValue)))
    ∧ (¬(d.mode = .enforce ∧ d.overall = .reject) → (reg.deliver d).2.outcome = .ok d) := by
  unfold deliver
  rw [← Mode.enforces_iff]
  constructor
  · intro h
    rw [if_pos h]
    rfl
  · intro h
    rw [if_neg h]
    rfl

theorem check_of_malformed {r : Request} {e : PolicyError} (h : Proposal.create r.document = .error e)
    (events : List Event) :
    reg.EndsAs r (reg.check r events).1 (reg.check r events).2 .malformed := by
  obtain ⟨now, hnow⟩ := passBy_eq reg events
  have hcheck : reg.check r events = (reg.passBy events, .error (.policy e)) := by
    unfold check prepare
    rw [h]
  obtain ⟨fault, rfl⟩ : ∃ fault, e = .invalidProposal fault := by
    unfold Proposal.create at h
    split at h
    · cases h
    · cases h
      exact ⟨_, rfl⟩
  rw [hcheck, hnow]
  exact ⟨fault, h, rfl, rfl⟩

/-- **A check ends in one of three ways, and in one only.**  In every state that a session can bring about, whatever
the document, the mode and whatever is cancelled: the document is malformed, and no id is given out, no time read and
nothing changed; or the store refuses the record, and nothing has been added anywhere and the next record gets its
number and its link; or the log gains one record, on the very proposal and with the very decision that is delivered,
as a violation if it is an enforced rejection and plainly otherwise. -/
theorem check_ends_once {before : List Audit.Record} {s : Session} (hs : s.IsReachable before)
    (hbefore : Audit.IsChain before) {r : Request} {limit : Option TimeLimit}
    (hlimit : TimeLimit.ofValue (r.timeoutMs.orElse (.ofOption .num s.registry.settings.timeoutMs)) = .ok limit)
    (hclock : s.registry.clock.now?.isSome) (events : List Event) :
    ∃! e, s.registry.EndsAs r (s.registry.check r events).1 (s.registry.check r events).2 e := by
  have hsound := hs.isSound hbefore
  generalize s.registry = reg at *
  refine existsUnique_of_exists_of_unique ?_ fun e e' he he' => he.eq he'
  cases hp : Proposal.create r.document with
  | error e => exact ⟨.malformed, check_of_malformed hp events⟩
  | ok p =>
    obtain ⟨run, b, now, now', -, hcheck⟩ := check_eq (prepare_eq_ok hp hlimit) events
    obtain ⟨time, htime⟩ := Option.isSome_iff_exists.1 hclock
    dsimp only at hcheck
    rw [hcheck]
    generalize hdrawn : ({ reg with elapsed := now } : Registry).drawn p
      (r.mode.getD reg.settings.mode) run b.spent time = d
    have htime' : ({ reg with elapsed := now } : Registry).clock.now? = some time := htime
    by_cases hrefuses : reg.log.Refuses
    · obtain ⟨log, hlog⟩ := hsound.append_of_refuses hrefuses (.str (Audit.hashOf p.toValue)) d.toValue
      obtain ⟨console, hconclude⟩ := conclude_of_refused htime' (hdrawn ▸ hlog)
      obtain ⟨-, hhistory, hlatest⟩ := Audit.Log.append_eq_error hlog
      obtain ⟨hnumber, hhash⟩ := Audit.Log.next_of_latest hlatest
      rw [hconclude]
      exact ⟨.refused, ⟨p, hp⟩, hrefuses, rfl, hhistory, rfl, rfl, hnumber, hhash⟩
    · obtain ⟨log, x, hlog⟩ := hsound.append_of_not_refuses hrefuses (.str (Audit.hashOf p.toValue)) d.toValue
      obtain ⟨console, hconclude⟩ := conclude_of_taken htime' (hdrawn ▸ hlog)
      obtain ⟨hnext, hhistory, -⟩ := Audit.Log.append_eq_ok hlog
      obtain ⟨hhash, hdecision⟩ := Audit.Log.eq_of_nextRecord hnext
      rw [hconclude, hdrawn]
      refine ⟨.recorded, p, d, x, hp, hrefuses, hhistory, hhash, hdecision, rfl, rfl, ?_, outcome_deliver _ d⟩
      rw [← hdrawn]
      rfl

/-- A check whose record the store refuses, while somebody aborts it. -/
theorem refused_check_ends :
    let reg := Registry.start (.ofValue (Settings.merged (.obj []))) (some ⟨[], [true], 0⟩)
      (.startingAt Clock.defaultStart)
    let r : Request := ⟨.obj (namedMembers "p1" []), none, .absent⟩
    let ended := reg.check r [⟨1, .abort (.error "enough")⟩]
    reg.EndsAs r ended.1 ended.2 .refused := by
  intro reg r ended
  have hopened : (Session.opened reg).IsReachable [] := .opened rfl rfl rfl
  have hchain : Audit.IsChain [] := Audit.chainFrom_nil _ _
  have hlimit : TimeLimit.ofValue (r.timeoutMs.orElse (.ofOption .num reg.settings.timeoutMs)) = .ok none := rfl
  have hclock : reg.clock.now?.isSome := by decide +kernel
  have hproposal : Proposal.create r.document = .ok _ := create_namedMembers rfl
  obtain ⟨e, he, -⟩ := check_ends_once hopened hchain hlimit hclock [⟨1, .abort (.error "enough")⟩]
  cases e with
  | malformed =>
    obtain ⟨fault, hfault, -⟩ := he
    rw [hproposal] at hfault
    cases hfault
  | refused => exact he
  | recorded =>
    obtain ⟨-, -, -, -, haccepts, -⟩ := he
    exact absurd ⟨_, rfl, rfl⟩ haccepts

end Registry

end PolicyGates
