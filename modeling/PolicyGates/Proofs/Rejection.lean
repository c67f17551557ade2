import PolicyGates.Proofs.SingleCheck
/-!
# Batches that are turned away

A batch is turned away for its form: because a document holds no proposal, because an id comes twice, or because the
proposals depend on each other in a ring.  All of it is looked at before anything is evaluated, so nothing has
happened then but that time went by (`coordinate_rejects_iff`).  No evaluation fails with an error of this kind
(`ComesTo.isForeign`), so the caller can tell the two apart.
-/
namespace PolicyGates

/-! ## What goes wrong otherwise -/

theorem exists_of_mapM_eq_error {α β : Type} {g : α → Except Failure β} {l : List α} {f : Failure}
    (h : l.mapM g = .error f) :
    ∃ a ∈ l, g a = .error f := by
  induction l with
  | nil => cases h
  | cons a rest ih =>
    rw [List.mapM_cons] at h
    rcases bind_eq_error h with ha | ⟨b, -, h⟩
    · exact ⟨a, List.mem_cons_self, ha⟩
    · rcases bind_eq_error h with hrest | ⟨bs, -, h⟩
      · obtain ⟨a', ha', hf⟩ := ih hrest
        exact ⟨a', List.mem_cons_of_mem _ ha', hf⟩
      · cases h

/-- All that can go wrong is that a value has no text. -/
def WantsText {α : Type} (r : Except Failure α) : Prop := ∀ f, r = .error f → f = .noText

namespace WantsText

variable {α β : Type}

theorem ok (a : α) : WantsText (.ok a) := fun f h => by cases h

theorem bind {r : Except Failure α} {g : α → Except Failure β} (hr : WantsText r) (hg : ∀ a, WantsText (g a)) :
    WantsText (r >>= g) := by
  intro f h
  rcases bind_eq_error h with hf | ⟨a, -, hf⟩
  · exact hr f hf
  · exact hg a f hf

theorem ite {c : Prop} [Decidable c] {r r' : Except Failure α} (h : WantsText r) (h' : WantsText r') :
    WantsText (if c then r else r') := by
  split
  · exact h
  · exact h'

end WantsText

namespace Value

theorem quote_wantsText (v : Value) : WantsText v.quote := by
  unfold quote
  split
  · exact .ok _
  · exact fun f h => (Except.error.inj h).symm

theorem number_wantsText (v : Value) : WantsText v.number := by
  unfold number
  split
  · exact .ok _
  · exact .ok _
  · exact .ok _
  · exact .ok _
  · exact v.quote_wantsText.bind fun _ => .ok _

theorem plus_wantsText (v w : Value) : WantsText (v.plus w) := by
  unfold plus
  exact .ite (v.quote_wantsText.bind fun _ => w.quote_wantsText.bind fun _ => .ok _)
    (v.number_wantsText.bind fun _ => w.number_wantsText.bind fun _ => .ok _)

theorem compare_wantsText (texts : Text → Text → Bool) (numbers : Float → Float → Bool) (v w : Value) :
    WantsText (compare texts numbers v w) := by
  unfold compare
  exact .ite (v.quote_wantsText.bind fun _ => w.quote_wantsText.bind fun _ => .ok _)
    (v.number_wantsText.bind fun _ => w.number_wantsText.bind fun _ => .ok _)

end Value

theorem TimeLimit.ofValue_wantsText (v : Value) : WantsText (ofValue v) := by
  unfold ofValue
  split
  · exact .ok _
  · exact v.number_wantsText.bind fun _ => v.quote_wantsText.bind fun _ => .ok _

/-- Failures that are none of the policy's own. -/
def Failure.IsForeign (f : Failure) : Prop := ∀ e, f ≠ .policy e

theorem Failure.isForeign_noText : IsForeign .noText := fun e h => by cases h

theorem Audit.Log.isForeign_of_append {l l' : Log} {proposalHash decision : Value} {f : Failure}
    (h : l.append proposalHash decision = (l', .error f)) : f.IsForeign := by
  rcases (append_eq_error h).1 with rfl | hnext
  · exact fun e he => by cases he
  · unfold nextRecord at hnext
    rcases bind_eq_error hnext with hplus | ⟨n, -, hmade⟩
    · rw [Value.plus_wantsText _ _ f hplus]
      exact Failure.isForeign_noText
    · cases hmade

theorem Conclusion.eq_failed {c : Conclusion} {f : Failure} (h : c.decision? = .error f) : c = .failed f := by
  cases c <;> cases h
  rfl

/-- **No evaluation fails with an error of the policy.** -/
theorem Registry.isForeign_of_conclude {reg : Registry} {p : Proposal} {mode : Mode} {r : Run} {spent : Float}
    {f : Failure} (h : (reg.conclude p mode r spent).2 = .failed f) :
    f.IsForeign := by
  rcases conclude_cases reg p mode r spent with
    ⟨-, console, hc⟩ | ⟨time, log, g, -, hlog, console, hc⟩ | ⟨time, log, x, -, -, console, metrics, c, hc, hd⟩
  · rw [hc] at h
    cases h
    exact fun e he => by cases he
  · rw [hc] at h
    cases h
    exact Audit.Log.isForeign_of_append hlog
  · rw [hc] at h
    rw [show c = .failed f from h] at hd
    cases hd

theorem Scheduler.ComesTo.isForeign {reg reg' : Registry} {jobs : List Job} {conclusions : List (Nat × Conclusion)}
    (h : ComesTo reg jobs reg' conclusions) : ∀ n f, (n, .failed f) ∈ conclusions → f.IsForeign := by
  induction h with
  | opened => simp
  | elapsed _ now ih => exact ih
  | concluded _ hj hopen hpassed hends ih =>
    intro n f hmem
    rcases List.mem_append.1 hmem with hmem | hmem
    · exact ih n f hmem
    · exact Registry.isForeign_of_conclude (Prod.ext_iff.1 (List.mem_singleton.1 hmem)).2.symm
  | @failed _ _ _ a _ g _ hj hopen ha hfailed ih =>
    intro n f hmem
    rcases List.mem_append.1 hmem with hmem | hmem
    · exact ih n f hmem
    · cases List.mem_singleton.1 hmem
      exact ih a g hfailed

namespace Registry

open Scheduler

/-! ## Documents -/

theorem exists_invalidProposal {v : Value} {e : PolicyError} (h : Proposal.create v = .error e) :
    ∃ fault, e = .invalidProposal fault := by
  unfold Proposal.create at h
  split at h <;> cases h
  exact ⟨_, rfl⟩

theorem exists_malformed {documents : List Value} {e : PolicyError} (h : readBatch documents = .error e) :
    (∃ fault, e = .invalidProposal fault) ∧ ∃ v ∈ documents, ∀ p, Proposal.create v ≠ .ok p := by
  induction documents with
  | nil => cases h
  | cons v rest ih =>
    rw [readBatch] at h
    cases hp : Proposal.create v with
    | error e' =>
      rw [hp] at h
      cases h
      exact ⟨exists_invalidProposal hp, v, List.mem_cons_self, fun p hc => by rw [hp] at hc; cases hc⟩
    | ok p =>
      cases hps : readBatch rest with
      | error e' =>
        rw [hp, hps] at h
        cases h
        obtain ⟨hfault, w, hw, hbad⟩ := ih hps
        exact ⟨hfault, w, List.mem_cons_of_mem _ hw, hbad⟩
      | ok ps =>
        rw [hp, hps] at h
        cases h

/-! ## Batches -/

variable {reg : Registry} {jobs : List Job} {slots : Nat} {events : List Event}

theorem isForeign_of_prepare {r : Request} {p : Proposal} {f : Failure} (hp : Proposal.create r.document = .ok p)
    (h : reg.prepare r = .error f) : f.IsForeign := by
  unfold prepare job at h
  rw [hp] at h
  rcases bind_eq_error h with hlimit | ⟨limit, -, hmade⟩
  · rw [TimeLimit.ofValue_wantsText _ f hlimit]
    exact Failure.isForeign_noText
  · cases hmade

theorem isForeign_of_jobsOf {ordered : List Proposal} {mode : Option Mode} {timeoutMs : Value} {f : Failure}
    (h : reg.jobsOf ordered mode timeoutMs = .error f) : f.IsForeign := by
  cases hlimit : TimeLimit.ofValue (timeoutMs.orElse (.ofOption .num reg.settings.timeoutMs)) with
  | ok limit =>
    rw [jobsOf_eq ordered mode hlimit] at h
    cases h
  | error g =>
    cases ordered with
    | nil => cases h
    | cons p rest =>
      unfold jobsOf job at h
      rw [hlimit] at h
      cases h
      rw [TimeLimit.ofValue_wantsText _ _ hlimit]
      exact Failure.isForeign_noText

theorem mem_of_firstFailure {s : Scheduler} {f : Failure} (h : firstFailure s = some f) :
    ∃ n, (n, .failed f) ∈ s.conclusions := by
  obtain ⟨⟨n, c⟩, hmem, hfound⟩ := List.exists_of_findSome?_eq_some h
  dsimp only at hfound
  split at hfound
  · cases hfound
    exact ⟨n, hmem⟩
  · cases hfound

theorem isForeign_of_decisionOn {s : Scheduler} (h : ∀ n f, (n, .failed f) ∈ s.conclusions → f.IsForeign)
    {ordered : List Proposal} {p : Proposal} {f : Failure} (hp : decisionOn s ordered p = .error f) :
    f.IsForeign := by
  unfold decisionOn at hp
  split at hp
  · next c hc =>
    obtain ⟨n, -, hn⟩ := Option.bind_eq_some_iff.1 hc
    obtain ⟨before, after, hsplit, -⟩ := List.lookup_eq_some_iff.1 hn
    cases c with
    | failed g =>
      cases hp
      exact h n f (by rw [hsplit]; simp)
    | delivered d => cases hp
    | refused d => cases hp
  · cases hp
    exact fun e he => by cases he

/-- **Where a batch can be put in order, nothing that goes wrong is an error of the policy.** -/
theorem isForeign_of_coordinate {documents : List Value} {proposals ordered : List Proposal} {mode : Option Mode}
    {timeoutMs : Value}
    {f : Failure} (hread : readBatch documents = .ok proposals) (horder : Batch.order proposals = .ok ordered)
    (h : (reg.coordinate documents mode timeoutMs events).2 = .error f) : f.IsForeign := by
  unfold coordinate at h
  simp only [hread, horder] at h
  cases hjobs : reg.jobsOf ordered mode timeoutMs with
  | error g =>
    rw [hjobs] at h
    cases h
    exact isForeign_of_jobsOf hjobs
  | ok jobs =>
    obtain ⟨-, -, -, -, hearlier⟩ := exists_jobs horder hjobs
    have hcomes := comesTo_run hearlier reg (Decimal.toCount reg.settings.concurrency) events
    rw [hjobs] at h
    dsimp only at h
    split at h
    · next g hfirst =>
      cases h
      obtain ⟨n, hn⟩ := mem_of_firstFailure hfirst
      exact hcomes.isForeign n f hn
    · split at h
      · cases h
      · next g hds =>
        cases h
        obtain ⟨p, -, hp⟩ := exists_of_mapM_eq_error hds
        exact isForeign_of_decisionOn hcomes.isForeign hp

/-- **A batch is turned away exactly for its form, and then nothing has happened.**  In every state of the registry,
whatever is aborted and whatever the time limit: it is refused as such if some document holds no proposal, wherever it
stands, or if all do and an id comes twice; and it is refused for a ring if all do, no id comes twice and some
proposal has to come before itself. Then log, ledger, metrics, clock, ids and console are as they were. -/
theorem coordinate_rejects_iff (reg : Registry) (documents : List Value) (mode : Option Mode) (timeoutMs : Value)
    (events : List Event) :
    let ended := reg.coordinate documents mode timeoutMs events
    let isInvalid := ∃ fault, ended.2 = .error (.policy (.invalidProposal fault))
    let isCyclic := ∃ cycle, ended.2 = .error (.policy (.dependencyCycle cycle))
    (isInvalid ↔ (∃ v ∈ documents, ∀ p, Proposal.create v ≠ .ok p)
      ∨ ∃ proposals, Hold documents proposals ∧ ¬(proposals.map Proposal.proposalId).Nodup)
    ∧ (isCyclic ↔ ∃ proposals, Hold documents proposals ∧ (proposals.map Proposal.proposalId).Nodup
      ∧ Batch.HasCycle proposals)
    ∧ (isInvalid ∨ isCyclic → ended.1 = { reg with elapsed := ended.1.elapsed }) := by
  intro ended isInvalid isCyclic
  obtain ⟨now, hpass⟩ := passBy_eq reg events
  cases hread : readBatch documents with
  | error e =>
    obtain ⟨⟨fault, rfl⟩, hmalformed⟩ := exists_malformed hread
    have hended : ended = (reg.passBy events, .error (.policy (.invalidProposal fault))) := by
      simp only [ended, coordinate, hread]
    have hnone : ∀ proposals, ¬Hold documents proposals := fun proposals h => by
      rw [← readBatch_eq_ok_iff, hread] at h
      cases h
    simp [isInvalid, isCyclic, hended, hpass, hmalformed, hnone]
  | ok proposals =>
    have hholds : ∀ {qs}, Hold documents qs ↔ qs = proposals := fun {qs} => by
      rw [← readBatch_eq_ok_iff, hread, Except.ok.injEq, eq_comm]
    have hsound : ¬∃ v ∈ documents, ∀ p, Proposal.create v ≠ .ok p := by
      rintro ⟨v, hv, hbad⟩
      obtain ⟨i, hi⟩ := List.mem_iff_getElem?.1 hv
      obtain ⟨p, -, hcreate⟩ := exists_getElem?_of_forall₂ (hholds.2 rfl) hi
      exact hbad p hcreate
    have hturned : ∀ {e}, Batch.order proposals = .error e → ended = (reg.passBy events, .error (.policy e)) := by
      intro e he
      simp only [ended, coordinate, hread, he]
    rcases Batch.order_cases proposals with
      ⟨hids, fault, ho⟩ | ⟨hids, ids, ho, hring⟩ | ⟨hids, ordered, ho, hperm, hinOrder⟩
    · simp [isInvalid, isCyclic, hturned ho, hpass, hholds, hids, hsound]
    · simp [isInvalid, isCyclic, hturned ho, hpass, hholds, hids, hsound, hring.hasCycle]
    · have hforeign : ∀ e, ended.2 ≠ .error (.policy e) := fun e he => isForeign_of_coordinate hread ho he e rfl
      have hacyclic := hinOrder.not_hasCycle hperm hids
      simp [isInvalid, isCyclic, hforeign, hholds, hids, hsound, hacyclic]

end Registry

end PolicyGates
