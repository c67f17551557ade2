import PolicyGates.Proofs.Audit.Growth
import PolicyGates.Proofs.Metrics
import PolicyGates.Proofs.Scheduler.Provenance
import PolicyGates.Session
/-!
# What a session keeps

Most of what can happen in a session leaves the settings, the metrics and the records alone (`Registry.Keeps`).  The
log gains a record when it takes one, and the metrics gain a decision when its evaluation goes on.  In between the
records are ahead of the metrics by the answers that nobody has gone on with (`IsAccounted`), and since answers are
gone on with in their order, the metrics always are a count of the first records (`IsAccounted.step`).
-/
namespace PolicyGates

/-! ## Logs -/

namespace Audit

theorem Log.IsSound.alone {l : Log} (h : l.IsSound) : SharedLog.IsSound ⟨l, [], none⟩ := ⟨h, fun r hr => by cases hr⟩

/-- **An append keeps a log in order**, whatever the store says to it. -/
theorem Log.IsSound.after_append {l : Log} (h : l.IsSound) (proposalHash decision : Value) :
    (l.append proposalHash decision).1.IsSound := by
  obtain ⟨r, hr, hcont⟩ := h.exists_nextRecord proposalHash decision
  rw [append_eq_put, hr]
  exact h.lookedUp.put hcont

end Audit

/-! ## Registries -/

namespace Registry

/-- Whatever else has changed, the settings, the metrics and the records have not, and the log is in order if it was. -/
structure Keeps (reg later : Registry) : Prop where
  settings : later.settings = reg.settings
  metrics : later.metrics = reg.metrics
  history : later.log.history = reg.log.history
  isSound : reg.log.IsSound → later.log.IsSound

theorem Keeps.of_eq {reg later : Registry} (hs : later.settings = reg.settings) (hm : later.metrics = reg.metrics)
    (hl : later.log = reg.log) : reg.Keeps later :=
  ⟨hs, hm, congrArg _ hl, fun h => hl ▸ h⟩

theorem Keeps.refl (reg : Registry) : reg.Keeps reg := .of_eq rfl rfl rfl

variable (reg : Registry)

theorem keeps_drawUp (p : Proposal) (mode : Mode) (r : Run) (spent : Float) :
    reg.Keeps ((reg.announceCancellation p r).drawUp p mode r spent).1 := by
  obtain ⟨console, ha⟩ := announceCancellation_eq reg p r
  rw [ha]
  unfold drawUp
  dsimp only
  split <;> exact .of_eq rfl rfl rfl

theorem exists_ofRun_of_drawUp {reg reg' : Registry} {p : Proposal} {mode : Mode} {r : Run} {spent : Float}
    {d : Decision} (h : reg.drawUp p mode r spent = (reg', .ok d)) :
    ∃ id time, d = .ofRun id p.proposalId mode r spent time := by
  unfold drawUp at h
  dsimp only at h
  split at h
  · cases h
    exact ⟨_, _, rfl⟩
  · cases h

theorem keeps_acknowledge (decisionId approver note : Value) :
    reg.Keeps (reg.acknowledge decisionId approver note).1 := by
  unfold acknowledge
  split
  · exact .refl reg
  · dsimp only
    split <;> exact .of_eq rfl rfl rfl

theorem keeps_verify (first last : Value) : reg.Keeps (reg.verify first last).1 := by
  have hlog : reg.Keeps { reg with log := (reg.log.verify first last).1 } :=
    ⟨rfl, rfl, by rw [(Audit.SharedLog.verify_eq _ _ _).1]; rfl, fun h => (h.alone.step (.verified first last)).log⟩
  unfold verify
  split
  · next log e he => rwa [he] at hlog
  · next log f he =>
    rw [he] at hlog
    dsimp only
    split
    · exact hlog
    · exact ⟨hlog.settings, hlog.metrics, hlog.history, hlog.isSound⟩

theorem keeps_resolveBreach (operator : Value) : reg.Keeps ((reg.resolveBreach operator).toOption.getD reg) := by
  have hlog : reg.Keeps { reg with log := reg.log.resolveBreach } :=
    ⟨rfl, rfl, rfl, fun h => (h.alone.step .resolved).log⟩
  unfold resolveBreach
  cases reg.log.breach with
  | none => exact hlog
  | some f =>
    cases operator.quote with
    | error e => exact .refl reg
    | ok name => exact ⟨hlog.settings, hlog.metrics, hlog.history, hlog.isSound⟩

theorem keeps_decided (refusals : List Bool) :
    reg.Keeps { reg with log := { reg.log with store := reg.log.store.map ({ · with refusals := refusals }) } } :=
  ⟨rfl, rfl, Audit.SharedLog.history_decided ⟨reg.log, [], none⟩ refusals,
    fun h => (h.alone.step (.decided refusals)).log⟩

theorem resume_of_ok {a : Answer} {r : Audit.Record} (h : a.record = .ok r) :
    ∃ console, (reg.resume a).1 = { reg with metrics := (reg.metrics.count a.decision).1, console := console } := by
  obtain ⟨console, hdelivered⟩ := deliver_instrument_eq reg a.decision
  refine ⟨console, ?_⟩
  simp only [resume, h, hdelivered]

end Registry

/-! ## Sessions -/

/-- The evaluation has come to its state by checks of its own. -/
def Ongoing.HasRun (reg : Registry) (e : Ongoing) : Prop :=
  Progress.Reaches (reg.circumstances e.proposal e.mode) e.proposal.toValue
    (.fresh (.fresh e.proposal.energyBudgetTokens)) e.progress

theorem Registry.Keeps.circumstances {reg later : Registry} (h : reg.Keeps later) (p : Proposal) (mode : Mode) :
    later.circumstances p mode = reg.circumstances p mode := by
  unfold Registry.circumstances Registry.phaseOf
  rw [h.settings]

namespace Session

/-- The sessions that come about: nobody has asked yet, the log is opened over the given records, and then whatever
happens. -/
inductive IsReachable (before : List Audit.Record) : Session → Prop where
  | opened {reg : Registry} {store : Option Audit.Store} (hlog : reg.log = .opened store)
    (hhistory : reg.log.history = before) (hmetrics : reg.metrics = .zero) : IsReachable before (opened reg)
  | step {s : Session} (hs : IsReachable before s) (o : Occurrence) : IsReachable before (s.step o)

/-- No evaluation is in progress. -/
structure IsIdle (s : Session) : Prop where
  underWay : s.underWay = []
  filed : s.filed = []
  answered : s.answered = []

/-- The records that nobody has gone on with. -/
def awaited (s : Session) : List Audit.Record := s.answered.filterMap (·.record.toOption)

/-- The metrics are a count of the records that somebody has gone on with, and those are the first that the log has
gained. -/
structure IsAccounted (before : List Audit.Record) (s : Session) : Prop where
  underWay : ∀ e ∈ s.underWay, e.HasRun s.registry
  filed : ∀ f ∈ s.filed, f.decision.IsInOrder
  answered : ∀ a ∈ s.answered, a.decision.IsInOrder ∧ ∀ r, a.record = .ok r → r.decision = a.decision.toValue
  counted : ∃ counted, s.registry.log.history = before ++ counted ++ s.awaited ∧ s.registry.metrics.Counts counted

variable {before : List Audit.Record} {s : Session}

theorem run_append (s : Session) (xs ys : List Occurrence) : s.run (xs ++ ys) = (s.run xs).run ys := List.foldl_append

theorem run_concat (s : Session) (xs : List Occurrence) (o : Occurrence) : s.run (xs ++ [o]) = (s.run xs).step o :=
  run_append s xs [o]

theorem run_asked {r : Request} {j : Job} (hj : s.registry.prepare r = .ok j) (rest : List Occurrence) :
    s.run (.asked r :: rest)
      = run { s with
          underWay := s.underWay ++ [⟨j.proposal, j.mode, .fresh (.fresh j.proposal.energyBudgetTokens), none⟩] }
        rest := by
  simp only [run, List.foldl_cons, step, hj]

theorem IsReachable.run (h : s.IsReachable before) (occurrences : List Occurrence) :
    (s.run occurrences).IsReachable before := by
  induction occurrences generalizing s with
  | nil => exact h
  | cons o rest ih => exact ih (h.step o)

/-! ### What can happen -/

theorem exists_file (s : Session) (p : Proposal) (mode : Mode) (r : Run) (spent : Float) :
    ∃ reg, s.registry.Keeps reg
      ∧ ((∃ f, s.file p mode r spent = { s with registry := reg, conclusions := s.conclusions ++ [.failed f] })
        ∨ ∃ id time, s.file p mode r spent
          = { s with registry := reg, filed := s.filed ++ [⟨p, .ofRun id p.proposalId mode r spent time⟩] }) := by
  have hk := s.registry.keeps_drawUp p mode r spent
  unfold Session.file
  split
  · next reg f hdrawn =>
    rw [hdrawn] at hk
    exact ⟨reg, hk, .inl ⟨f, rfl⟩⟩
  · next reg d hdrawn =>
    rw [hdrawn] at hk
    obtain ⟨id, time, rfl⟩ := Registry.exists_ofRun_of_drawUp hdrawn
    exact ⟨reg, hk, .inr ⟨id, time, rfl⟩⟩

theorem step_answered {f : Filing} {rest : List Filing} (h : s.filed = f :: rest) {log : Audit.Log}
    {record : Except Failure Audit.Record}
    (hlog : s.registry.log.append (.str (Audit.hashOf f.proposal.toValue)) f.decision.toValue = (log, record)) :
    s.step .answered
      = { s with
          registry := { s.registry with log }, filed := rest,
          answered := s.answered ++ [⟨f.decision, record⟩] } := by
  simp only [step, h, hlog]

theorem step_resumed {a : Answer} {rest : List Answer} (h : s.answered = a :: rest) :
    s.step .resumed
      = { s with
          registry := (s.registry.resume a).1, answered := rest,
          conclusions := s.conclusions ++ [(s.registry.resume a).2] } := by
  simp only [step, h]

/-! ### What is kept -/

namespace IsAccounted

theorem keep (h : s.IsAccounted before) {reg : Registry} (hk : s.registry.Keeps reg) :
    IsAccounted before { s with registry := reg } where
  underWay e he := by
    unfold Ongoing.HasRun
    rw [hk.circumstances]
    exact h.underWay e he
  filed := h.filed
  answered := h.answered
  counted := by
    rw [hk.history, hk.metrics]
    exact h.counted

theorem withUnderWay (h : s.IsAccounted before) {underWay : List Ongoing} (hrun : ∀ e ∈ underWay, e.HasRun s.registry) :
    IsAccounted before { s with underWay := underWay } := ⟨hrun, h.filed, h.answered, h.counted⟩

/-- **The decision on a run that has ended is in order** when it is handed to the log. -/
theorem file (h : s.IsAccounted before) {c : Circumstances} {document : Value} {closed : Bool} {r : Run}
    (hr : r.Ends c document closed) (p : Proposal) (mode : Mode) (spent : Float) :
    IsAccounted before (s.file p mode r spent) := by
  obtain ⟨reg, hk, ⟨f, hfile⟩ | ⟨id, time, hfile⟩⟩ := s.exists_file p mode r spent
  · rw [hfile]
    have hkept := h.keep hk
    exact ⟨hkept.underWay, hkept.filed, hkept.answered, hkept.counted⟩
  · rw [hfile]
    have hkept := h.keep hk
    refine ⟨hkept.underWay, List.forall_mem_append.2 ⟨hkept.filed, ?_⟩, hkept.answered, hkept.counted⟩
    exact List.forall_mem_singleton.2 (hr.isInOrder id p.proposalId mode spent time)

theorem checked (h : s.IsAccounted before) (place : Nat) : IsAccounted before (s.step (.checked place)) := by
  rw [step]
  cases he : s.underWay[place]? with
  | none => exact h
  | some e =>
    dsimp only
    have hrun := h.underWay e (List.mem_of_getElem? he)
    cases hcheck : e.progress.check (s.registry.circumstances e.proposal e.mode) e.proposal.toValue e.cancellation with
    | running q =>
      refine h.withUnderWay fun e' he' => ?_
      rcases List.mem_or_eq_of_mem_set he' with he' | rfl
      · exact h.underWay e' he'
      · exact .check hrun (Progress.check_none_of_running hcheck)
    | ended r b =>
      have hends : Progress.EndsIn _ _ _ r b := ⟨_, _, hrun, hcheck⟩
      have hrest := h.withUnderWay fun e' he' => h.underWay e' (List.mem_of_mem_eraseIdx (i := place) he')
      exact hrest.file hends.ends e.proposal e.mode b.spent

/-- **A record that the log takes is one that somebody still has to go on with.** -/
theorem answer (h : s.IsAccounted before) : IsAccounted before (s.step .answered) := by
  cases hfiled : s.filed with
  | nil => rwa [step, hfiled]
  | cons f rest =>
    have hf := h.filed
    rw [hfiled, List.forall_mem_cons] at hf
    obtain ⟨counted, hhistory, hcounts⟩ := h.counted
    cases hlog : s.registry.log.append (.str (Audit.hashOf f.proposal.toValue)) f.decision.toValue with
    | mk log record =>
      have hs := step_answered hfiled hlog
      -- the log gains the record that is awaited from now on, and neither gains anything from a refusal
      have hawaited : (s.step .answered).awaited = s.awaited ++ record.toOption.toList := by
        rw [hs, awaited, List.filterMap_append, awaited]
        cases record <;> rfl
      obtain ⟨hgained, hnew⟩ := Audit.Log.append_gains hlog
      refine ⟨?_, ?_, ?_, counted, ?_, ?_⟩
      · rw [hs]
        exact h.underWay
      · rw [hs]
        exact hf.2
      · rw [hs]
        exact List.forall_mem_append.2 ⟨h.answered, List.forall_mem_singleton.2 ⟨hf.1, fun r hr => (hnew r hr).2⟩⟩
      · rw [hawaited, hs, ← List.append_assoc, ← hhistory]
        exact hgained
      · rw [hs]
        exact hcounts

/-- **The metrics gain the decision of the first record that nobody has gone on with.** -/
theorem resume (h : s.IsAccounted before) : IsAccounted before (s.step .resumed) := by
  cases hanswered : s.answered with
  | nil => rwa [step, hanswered]
  | cons a rest =>
    have ha := h.answered
    rw [hanswered, List.forall_mem_cons] at ha
    obtain ⟨counted, hhistory, hcounts⟩ := h.counted
    rw [awaited, hanswered] at hhistory
    rw [step_resumed hanswered]
    cases hrecord : a.record with
    | error f =>
      simp only [Registry.resume, hrecord]
      -- nothing was taken, so there is nothing to count
      refine ⟨h.underWay, h.filed, ha.2, counted, ?_, hcounts⟩
      rwa [List.filterMap_cons_none (by rw [hrecord]; rfl)] at hhistory
    | ok r =>
      obtain ⟨console, hresumed⟩ := s.registry.resume_of_ok hrecord
      rw [hresumed]
      -- the first record awaited becomes the last one counted
      refine ⟨h.underWay, h.filed, ha.2, counted ++ [r], ?_, hcounts.count ha.1.1 (ha.1.2 r hrecord)⟩
      rwa [List.filterMap_cons_some (b := r) (by rw [hrecord]; rfl), List.append_cons,
        List.append_assoc before] at hhistory

/-- **Whatever happens in a session, the metrics stay a count of the first records.** -/
theorem step (h : s.IsAccounted before) (o : Occurrence) : IsAccounted before (s.step o) := by
  cases o with
  | asked r =>
    rw [Session.step]
    split
    · exact ⟨h.underWay, h.filed, h.answered, h.counted⟩
    · exact h.withUnderWay (List.forall_mem_append.2 ⟨h.underWay, List.forall_mem_singleton.2 .start⟩)
  | cancelled place reason =>
    rw [Session.step]
    split
    · exact h
    · next e he =>
      refine h.withUnderWay fun e' he' => ?_
      rcases List.mem_or_eq_of_mem_set he' with he' | rfl
      · exact h.underWay e' he'
      · exact h.underWay e (List.mem_of_getElem? he)
  | checked place => exact h.checked place
  | answered => exact h.answer
  | resumed => exact h.resume
  | decided refusals => exact h.keep (s.registry.keeps_decided refusals)
  | acknowledged decisionId approver note => exact h.keep (s.registry.keeps_acknowledge decisionId approver note)
  | verified first last => exact h.keep (s.registry.keeps_verify first last)
  | resolved operator => exact h.keep (s.registry.keeps_resolveBreach operator)
  | elapsed now => exact h.keep (.of_eq rfl rfl rfl)
  | wrote level text => exact h.keep (.of_eq rfl rfl rfl)

end IsAccounted

theorem IsReachable.isAccounted (h : s.IsReachable before) : s.IsAccounted before := by
  induction h with
  | @opened reg store hlog hhistory hmetrics =>
    refine ⟨List.forall_mem_nil _, List.forall_mem_nil _, List.forall_mem_nil _, [], ?_, ?_⟩
    · exact hhistory.trans (by simp [awaited, Session.opened])
    · exact hmetrics ▸ Metrics.counts_zero
  | step hs o ih => exact ih.step o

/-- What can become of the registry in one step: the log answers, a decision is counted, or nothing of the kind. -/
theorem step_registry (s : Session) (o : Occurrence) :
    s.registry.Keeps (s.step o).registry
    ∨ (∃ (proposalHash : Text) (decision : Value),
      (s.step o).registry = { s.registry with log := (s.registry.log.append (.str proposalHash) decision).1 })
    ∨ ∃ d console, (s.step o).registry
      = { s.registry with metrics := (s.registry.metrics.count d).1, console := console } := by
  cases o with
  | asked r =>
    rw [Session.step]
    split <;> exact .inl (.refl _)
  | cancelled place reason =>
    rw [Session.step]
    split <;> exact .inl (.refl _)
  | checked place =>
    rw [Session.step]
    split
    · exact .inl (.refl _)
    · next e _ =>
      split
      · exact .inl (.refl _)
      · next r b _ =>
        obtain ⟨reg, hk, ⟨f, hfile⟩ | ⟨id, time, hfile⟩⟩ :=
          exists_file { s with underWay := s.underWay.eraseIdx place } e.proposal e.mode r b.spent
        · rw [hfile]
          exact .inl hk
        · rw [hfile]
          exact .inl hk
  | answered =>
    rw [Session.step]
    split
    · exact .inl (.refl _)
    · exact .inr (.inl ⟨_, _, rfl⟩)
  | resumed =>
    cases hanswered : s.answered with
    | nil =>
      rw [Session.step, hanswered]
      exact .inl (.refl _)
    | cons a rest =>
      rw [step_resumed hanswered]
      cases hrecord : a.record with
      | error f =>
        simp only [Registry.resume, hrecord]
        exact .inl (.refl _)
      | ok r =>
        obtain ⟨console, hresumed⟩ := s.registry.resume_of_ok hrecord
        exact .inr (.inr ⟨_, console, hresumed⟩)
  | decided refusals => exact .inl (s.registry.keeps_decided refusals)
  | acknowledged decisionId approver note => exact .inl (s.registry.keeps_acknowledge decisionId approver note)
  | verified first last => exact .inl (s.registry.keeps_verify first last)
  | resolved operator => exact .inl (s.registry.keeps_resolveBreach operator)
  | elapsed now => exact .inl (.of_eq rfl rfl rfl)
  | wrote level text => exact .inl (.of_eq rfl rfl rfl)

/-- **In one step the history stays or gains a record**, of a proposal that has a hash. -/
theorem history_step (s : Session) (o : Occurrence) : (s.step o).registry.log.history = s.registry.log.history
    ∨ ∃ r t, r.proposalHash = .str t ∧ (s.step o).registry.log.history = s.registry.log.history ++ [r] := by
  rcases step_registry s o with hk | ⟨proposalHash, decision, hregistry⟩ | ⟨d, console, hregistry⟩
  · exact .inl hk.history
  · rw [hregistry]
    cases hlog : s.registry.log.append (.str proposalHash) decision with
    | mk log record =>
      obtain ⟨hgained, hnew⟩ := Audit.Log.append_gains hlog
      cases record with
      | error f => exact .inl (hgained.trans (List.append_nil _))
      | ok r => exact .inr ⟨r, proposalHash, (hnew r rfl).1, hgained⟩
  · rw [hregistry]
    exact .inl rfl

/-- **Whatever happens in a session, its log stays in order.** -/
theorem isSound_step (h : s.registry.log.IsSound) (o : Occurrence) : (s.step o).registry.log.IsSound := by
  rcases step_registry s o with hk | ⟨proposalHash, decision, hregistry⟩ | ⟨d, console, hregistry⟩
  · exact hk.isSound h
  · rw [hregistry]
    exact h.after_append _ _
  · rw [hregistry]
    exact h

theorem isSound_opened {reg : Registry} {store : Option Audit.Store} (hlog : reg.log = .opened store)
    (hbefore : Audit.IsChain reg.log.history) : reg.log.IsSound := by
  have hopened : Audit.Log.IsSound (.opened store) := Audit.Log.isSound_opened fun store' hstore => by
    rwa [hlog, hstore] at hbefore
  exact hlog ▸ hopened

/-- **The log of a session is in order**, if it was opened over a chain. -/
theorem IsReachable.isSound (h : s.IsReachable before) (hbefore : Audit.IsChain before) : s.registry.log.IsSound := by
  induction h with
  | opened hlog hhistory hmetrics => exact isSound_opened hlog (hhistory ▸ hbefore)
  | step hs o ih => exact isSound_step ih o

end Session

end PolicyGates
