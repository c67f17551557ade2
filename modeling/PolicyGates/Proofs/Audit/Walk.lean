import PolicyGates.Proofs.Audit.Chain
/-!
# What a verification finds

A walk over a history treats a record by its number: it stops before one past the range, passes over one before the
range without a look at it, and holds any other against the record before it.  `walk_intact_iff` says from this
exactly which histories pass.

With the default range, a history of records that are all in the range passes if and only if it is a chain, and all
of it passes as checked if and only if it is a chain of counted length.  A record that is not in the range is never
looked at, so a history passes with anything there: with a number below one in any place, and with anything at all
after a number past the counted ones.
-/
namespace PolicyGates.Audit

open Double (counted limit)

section Ranges

variable (first last : Value)

def Record.IsBeyond (r : Record) : Prop := last.less r.sequenceNumber = .ok true

def Record.IsCounted (r : Record) : Prop :=
  last.less r.sequenceNumber = .ok false ∧ first.atMost r.sequenceNumber = .ok true

def Record.IsBelow (r : Record) : Prop :=
  last.less r.sequenceNumber = .ok false ∧ first.atMost r.sequenceNumber = .ok false

end Ranges

/-- A record that goes on from a link and is in order in itself. -/
structure Record.Fits (r : Record) (l : Link) : Prop where
  sequenceNumber : r.sequenceNumber.same l.next = true
  prevHash : r.prevHash.same l.prev = true
  recordHash : r.recordHash.value = .str r.properHash
  decisionSummary : r.decisionSummary = .str r.decision.canonical

theorem flaw?_eq_none_iff {r : Record} {l : Link} : r.flaw? l = .ok none ↔ r.Fits l := by
  unfold Record.flaw?
  constructor
  · intro h
    split at h
    · cases hn : l.next.quote with
      | error e => rw [hn] at h; cases h
      | ok s =>
        cases hq : r.sequenceNumber.quote with
        | error e => rw [hn, hq] at h; cases h
        | ok t => rw [hn, hq] at h; cases h
    · next h1 =>
      split at h
      · cases h
      · next h2 =>
        split at h
        · cases h
        · next h3 =>
          split at h
          · cases h
          · next h4 =>
            rw [Bool.not_eq_true', Bool.not_eq_false] at h1 h2 h3 h4
            exact ⟨h1, h2, Value.str_same.1 h3, Value.str_same.1 h4⟩
  · rintro ⟨h1, h2, h3, h4⟩
    rw [h1, h2, Value.str_same.2 h3, Value.str_same.2 h4]
    rfl

/-- What has been compared has a text, if it is compared by its text. -/
theorem exists_quote {v w : Value} {b : Bool} (hw : w.isWordy = true) (h : v.less w = .ok b) :
    ∃ t, w.quote = .ok t := by
  cases hq : w.quote with
  | ok t => exact ⟨t, rfl⟩
  | error e =>
    unfold Value.less Value.compare at h
    split at h
    · cases hv : v.quote with
      | ok t => rw [hv, hq] at h; cases h
      | error e => rw [hv] at h; cases h
    · rw [Value.number_of_isWordy hw, hq] at h
      cases hv : v.number with
      | ok x => rw [hv] at h; cases h
      | error e => rw [hv] at h; cases h

/-- A number that has been compared can be counted on from. -/
theorem exists_link {last : Value} {r : Record} {b : Bool} (h : last.less r.sequenceNumber = .ok b) :
    ∃ next, r.link = .ok ⟨next, r.recordHash⟩ := by
  have hplus : ∃ next, r.sequenceNumber.plus (.num 1.0) = .ok next := by
    cases hw : r.sequenceNumber.isWordy with
    | true =>
      obtain ⟨t, ht⟩ := exists_quote hw h
      unfold Value.plus
      rw [hw, ht]
      exact ⟨_, rfl⟩
    | false =>
      cases hv : r.sequenceNumber with
      | absent => exact ⟨_, rfl⟩
      | null => exact ⟨_, rfl⟩
      | bool x => exact ⟨_, rfl⟩
      | num x => exact ⟨_, rfl⟩
      | str s => rw [hv] at hw; cases hw
      | arr vs => rw [hv] at hw; cases hw
      | obj ms => rw [hv] at hw; cases hw
  obtain ⟨next, hn⟩ := hplus
  refine ⟨next, ?_⟩
  unfold Record.link
  rw [hn]
  rfl

/-! ## One step of the walk -/

variable {first last : Value} {l : Link} {checked n : Nat} {r : Record} {rest : List Record}

theorem walk_of_isBeyond (h : r.IsBeyond last) : walk first last l checked (r :: rest) = .ok (.intact checked) := by
  unfold Record.IsBeyond at h
  rw [walk, h]
  rfl

theorem walk_of_isBelow (h : r.IsBelow first last) {l' : Link} (hl : r.link = .ok l') :
    walk first last l checked (r :: rest) = walk first last l' checked rest := by
  rw [walk, h.1, h.2, hl]
  rfl

theorem walk_of_isCounted (h : r.IsCounted first last) (hf : r.Fits l) {l' : Link} (hl : r.link = .ok l') :
    walk first last l checked (r :: rest) = walk first last l' (checked + 1) rest := by
  rw [walk, h.1, h.2, flaw?_eq_none_iff.2 hf, hl]
  rfl

/-- A step of a walk ends it past the range or at a break, or goes on past a record that is not in the range or is in
order. -/
theorem walk_cons_eq_ok {f : Finding} (h : walk first last l checked (r :: rest) = .ok f) :
    (r.IsBeyond last ∧ f = .intact checked) ∨ f.valid = false
      ∨ ∃ l', r.link = .ok l' ∧ ((r.IsBelow first last ∧ walk first last l' checked rest = .ok f)
        ∨ (r.IsCounted first last ∧ r.Fits l ∧ walk first last l' (checked + 1) rest = .ok f)) := by
  cases hb : last.less r.sequenceNumber with
  | error e =>
    rw [walk, hb] at h
    cases h
  | ok b =>
    cases b with
    | true =>
      rw [walk_of_isBeyond hb] at h
      cases h
      exact .inl ⟨hb, rfl⟩
    | false =>
      obtain ⟨next, hl⟩ := exists_link hb
      cases ha : first.atMost r.sequenceNumber with
      | error e =>
        rw [walk, hb, ha] at h
        cases h
      | ok a =>
        cases a with
        | false =>
          rw [walk_of_isBelow ⟨hb, ha⟩ hl] at h
          exact .inr (.inr ⟨_, hl, .inl ⟨⟨hb, ha⟩, h⟩⟩)
        | true =>
          cases hf : r.flaw? l with
          | error e =>
            rw [walk, hb, ha, hf] at h
            cases h
          | ok flaw =>
            cases flaw with
            | some p =>
              rw [walk, hb, ha, hf] at h
              cases h
              exact .inr (.inl rfl)
            | none =>
              have hfits := flaw?_eq_none_iff.1 hf
              rw [walk_of_isCounted ⟨hb, ha⟩ hfits hl] at h
              exact .inr (.inr ⟨_, hl, .inr ⟨⟨hb, ha⟩, hfits, h⟩⟩)

theorem walk_cons_eq_intact (h : walk first last l checked (r :: rest) = .ok (.intact n)) :
    (r.IsBeyond last ∧ n = checked)
      ∨ ∃ l', r.link = .ok l' ∧ ((r.IsBelow first last ∧ walk first last l' checked rest = .ok (.intact n))
        ∨ (r.IsCounted first last ∧ r.Fits l ∧ walk first last l' (checked + 1) rest = .ok (.intact n))) := by
  rcases walk_cons_eq_ok h with ⟨hb, he⟩ | hbroken | hon
  · cases he
    exact .inl ⟨hb, rfl⟩
  · cases hbroken
  · exact .inr hon

/-! ## Whole walks -/

/-- The link that the record at an index is held against, where the first one is held against `l`. -/
def linkBefore (l : Link) (history : List Record) : Nat → Except Failure Link
  | 0 => .ok l
  | i + 1 => (history[i]?.map Record.link).getD (.ok l)

theorem linkBefore_cons {l' : Link} (hl : r.link = .ok l') {i : Nat} (hi : i ≤ rest.length) :
    linkBefore l (r :: rest) (i + 1) = linkBefore l' rest i := by
  cases i with
  | zero => exact hl
  | succ i =>
    show ((r :: rest)[i + 1]?.map _).getD _ = (rest[i]?.map _).getD _
    rw [List.getElem?_cons_succ, List.getElem?_eq_getElem hi]
    rfl

/-- A history with nothing to be found in it: up to its end, or else up to a record past the range, each record lies
below the range or fits the one before it. -/
def Passes (first last : Value) (l : Link) (history : List Record) : Prop :=
  ∃ read unread, history = read ++ unread ∧ (∀ r ∈ unread.head?, r.IsBeyond last) ∧
    ∀ (i : Nat) (r : Record), read[i]? = some r →
      r.IsBelow first last ∨ (r.IsCounted first last ∧ ∃ l', linkBefore l read i = .ok l' ∧ r.Fits l')

theorem passes_cons {l' : Link} (hl : r.link = .ok l')
    (hr : r.IsBelow first last ∨ (r.IsCounted first last ∧ r.Fits l)) (h : Passes first last l' rest) :
    Passes first last l (r :: rest) := by
  obtain ⟨read, unread, rfl, hunread, hread⟩ := h
  refine ⟨r :: read, unread, rfl, hunread, fun i x hx => ?_⟩
  cases i with
  | zero =>
    obtain rfl := Option.some.inj hx
    exact hr.imp_right fun ⟨hc, hf⟩ => ⟨hc, l, rfl, hf⟩
  | succ i =>
    obtain ⟨hi, -⟩ := List.getElem?_eq_some_iff.1 hx
    rw [linkBefore_cons hl (Nat.le_of_lt (Nat.lt_of_succ_lt_succ hi))]
    exact hread i x hx

/-- **A walk finds nothing exactly if there is nothing to be found.** -/
theorem walk_intact_iff (history : List Record) :
    (∃ n, walk first last l checked history = .ok (.intact n)) ↔ Passes first last l history := by
  induction history generalizing l checked with
  | nil => exact ⟨fun _ => ⟨[], [], rfl, by simp, by simp⟩, fun _ => ⟨checked, rfl⟩⟩
  | cons r rest ih =>
    constructor
    · rintro ⟨n, h⟩
      rcases walk_cons_eq_intact h with ⟨hb, -⟩ | ⟨l', hl, ⟨hb, hw⟩ | ⟨hc, hf, hw⟩⟩
      · exact ⟨[], r :: rest, rfl, by simpa using hb, by simp⟩
      · exact passes_cons hl (.inl hb) (ih.1 ⟨n, hw⟩)
      · exact passes_cons hl (.inr ⟨hc, hf⟩) (ih.1 ⟨n, hw⟩)
    · rintro ⟨read, unread, hsplit, hunread, hread⟩
      cases read with
      | nil =>
        rw [List.nil_append] at hsplit
        subst hsplit
        exact ⟨checked, walk_of_isBeyond (hunread r rfl)⟩
      | cons x read =>
        obtain ⟨rfl, rfl⟩ := List.cons.inj hsplit
        have hless : last.less r.sequenceNumber = .ok false := (hread 0 r rfl).elim (fun h => h.1) (fun h => h.1.1)
        obtain ⟨next, hl⟩ := exists_link hless
        have htail : Passes first last ⟨next, r.recordHash⟩ (read ++ unread) := by
          refine ⟨read, unread, rfl, hunread, fun i x hx => ?_⟩
          obtain ⟨hi, -⟩ := List.getElem?_eq_some_iff.1 hx
          rw [← linkBefore_cons hl (Nat.le_of_lt hi)]
          exact hread (i + 1) x hx
        rcases hread 0 r rfl with hb | ⟨hc, l', hl', hf⟩
        · rw [walk_of_isBelow hb hl]
          exact ih.2 htail
        · cases hl'
          rw [walk_of_isCounted hc hf hl]
          exact ih.2 htail

/-- Where every record has been checked, every record lies in the range. -/
theorem walk_intact_le {history : List Record} (h : walk first last l checked history = .ok (.intact n)) :
    n ≤ checked + history.length ∧ (n = checked + history.length → ∀ r ∈ history, r.IsCounted first last) := by
  induction history generalizing l checked with
  | nil =>
    cases h
    exact ⟨Nat.le_refl _, fun _ => List.forall_mem_nil _⟩
  | cons r rest ih =>
    rw [List.length_cons]
    rcases walk_cons_eq_intact h with ⟨hb, rfl⟩ | ⟨l', hl, ⟨hb, hw⟩ | ⟨hc, hf, hw⟩⟩
    · exact ⟨by omega, fun h => by omega⟩
    · obtain ⟨hle, -⟩ := ih hw
      exact ⟨by omega, fun h => by omega⟩
    · obtain ⟨hle, hall⟩ := ih hw
      exact ⟨by omega, fun h => List.forall_mem_cons.2 ⟨hc, hall (by omega)⟩⟩

/-! ## Walks along a chain -/

section Chains

/-- What a record goes on from at a place of a chain. -/
structure Link.IsAt (l : Link) (number : Nat) (prev : Text) : Prop where
  next : l.next = .num (counted (number + 1))
  prev : l.prev.value = .str prev

theorem genesis_isAt : Link.genesis.IsAt 0 genesisHash := ⟨congrArg Value.num (by decide), rfl⟩

variable {number : Nat} {prev : Text}

theorem fits_iff (hl : l.IsAt number prev) : r.Fits l ↔ r.Continues (number + 1) (.str prev) := by
  constructor
  · rintro ⟨h1, h2, h3, h4⟩
    refine ⟨?_, (Hash.same_iff hl.prev).1 h2, h3, h4⟩
    rw [hl.next] at h1
    cases hs : r.sequenceNumber with
    | num x =>
      rw [hs] at h1
      rw [Double.eq_counted_of_beq (Nat.succ_pos _) h1]
    | _ => rw [hs] at h1; cases h1
  · rintro ⟨h1, h2, h3, h4⟩
    refine ⟨?_, (Hash.same_iff hl.prev).2 h2, h3, h4⟩
    rw [h1, hl.next]
    exact Double.counted_beq_self _

theorem link_of_continues (hr : r.Continues (number + 1) (.str prev)) :
    ∃ l', r.link = .ok l' ∧ l'.IsAt (number + 1) r.properHash := by
  refine ⟨⟨.num (counted (number + 2)), r.recordHash⟩, ?_, rfl, hr.recordHash⟩
  unfold Record.link
  rw [hr.sequenceNumber, Value.plus_num, Double.counted_succ]
  rfl

theorem isCounted_iff (hs : r.sequenceNumber = .num (counted (number + 1))) :
    r.IsCounted firstSequence lastSequence ↔ number + 1 < limit := by
  have hl : 1 < limit := by decide
  have hone : (1.0 : Float) = Float.ofNat 1 := by decide
  unfold Record.IsCounted firstSequence lastSequence
  rw [hs, Value.less_num, Value.atMost_num, Double.maxSafe_eq, hone, Except.ok.injEq, Except.ok.injEq,
    decide_eq_false_iff_not, decide_eq_true_eq, Double.ofNat_lt_counted (by omega), Double.ofNat_le_counted (by omega)]
  omega

theorem isBeyond_of_le (hs : r.sequenceNumber = .num (counted (number + 1))) (h : limit ≤ number + 1) :
    r.IsBeyond lastSequence := by
  have hl : 1 < limit := by decide
  unfold Record.IsBeyond lastSequence
  rw [hs, Value.less_num, Double.maxSafe_eq, Except.ok.injEq, decide_eq_true_eq, Double.ofNat_lt_counted (by omega)]
  omega

/-- **A chain passes**, and as much of it is checked as can be counted. -/
theorem walk_of_chainFrom {history : List Record} (hl : l.IsAt number prev) (h : ChainFrom number (.str prev) history)
    (hn : number < limit) :
    walk firstSequence lastSequence l checked history
      = .ok (.intact (checked + min history.length (limit - 1 - number))) := by
  induction history generalizing l checked number prev with
  | nil => simp [walk]
  | cons r rest ih =>
    obtain ⟨hr, hrest⟩ := chainFrom_cons.1 h
    rw [hr.recordHash] at hrest
    rcases Nat.lt_or_ge (number + 1) limit with hlt | hge
    · obtain ⟨l', hl', hat⟩ := link_of_continues hr
      rw [walk_of_isCounted ((isCounted_iff hr.sequenceNumber).2 hlt) ((fits_iff hl).2 hr) hl', ih hat hrest hlt,
        List.length_cons]
      congr 2
      omega
    · rw [walk_of_isBeyond (isBeyond_of_le hr.sequenceNumber hge), show limit - 1 - number = 0 by omega, Nat.min_zero]
      rfl

/-- **Records that all lie in the range pass only as a chain.** -/
theorem chainFrom_of_walk {history : List Record} (hl : l.IsAt number prev)
    (h : walk firstSequence lastSequence l checked history = .ok (.intact n))
    (hall : ∀ r ∈ history, r.IsCounted firstSequence lastSequence) :
    ChainFrom number (.str prev) history ∧ n = checked + history.length
      ∧ (history ≠ [] → number + history.length < limit) := by
  induction history generalizing l checked number prev with
  | nil =>
    cases h
    exact ⟨chainFrom_nil _ _, rfl, fun hne => absurd rfl hne⟩
  | cons r rest ih =>
    obtain ⟨hr, hrest⟩ := List.forall_mem_cons.1 hall
    rcases walk_cons_eq_intact h with ⟨hb, -⟩ | ⟨l', hl', ⟨hb, -⟩ | ⟨-, hf, hw⟩⟩
    · rw [Record.IsBeyond, hr.1] at hb
      cases hb
    · cases hr.2.symm.trans hb.2
    · have hcont := (fits_iff hl).1 hf
      obtain ⟨l'', hl'', hat⟩ := link_of_continues hcont
      obtain rfl : l' = l'' := Except.ok.inj (hl'.symm.trans hl'')
      obtain ⟨hchain, hn, hlen⟩ := ih hat hw hrest
      refine ⟨chainFrom_cons.2 ⟨hcont, by rwa [hcont.recordHash]⟩, by rw [hn, List.length_cons]; omega, fun _ => ?_⟩
      rw [List.length_cons]
      cases rest with
      | nil => exact (isCounted_iff hcont.sequenceNumber).1 hr
      | cons x rest =>
        have := hlen (by simp)
        omega

end Chains

theorem walk_valid {f : Finding} {history : List Record} (h : walk first last l checked history = .ok f)
    (hv : f.valid = true) : f = .intact f.checked := by
  induction history generalizing l checked with
  | nil =>
    cases h
    rfl
  | cons r rest ih =>
    rcases walk_cons_eq_ok h with ⟨-, rfl⟩ | hbroken | ⟨l', -, ⟨-, hrest⟩ | ⟨-, -, hrest⟩⟩
    · rfl
    · rw [hv] at hbroken
      cases hbroken
    · exact ih hrest
    · exact ih hrest

/-! ## The default range -/

/-- A verification of a whole history comes to its end, finds it valid and has checked so many records. -/
def IsIntact (history : List Record) (n : Nat) : Prop :=
  ∃ f, verify firstSequence lastSequence history = .ok f ∧ f.valid = true ∧ f.checked = n

theorem isIntact_iff {history : List Record} :
    IsIntact history n ↔ verify firstSequence lastSequence history = .ok (.intact n) := by
  constructor
  · rintro ⟨f, h, hv, rfl⟩
    rw [h, walk_valid h hv]
    rfl
  · intro h
    exact ⟨_, h, rfl, rfl⟩

theorem exists_isIntact_iff {history : List Record} :
    (∃ n, IsIntact history n) ↔ Passes firstSequence lastSequence .genesis history := by
  simp only [isIntact_iff]
  exact walk_intact_iff history

theorem isIntact_of_isChain {history : List Record} (h : IsChain history) :
    IsIntact history (min history.length (limit - 1)) := by
  have hw : walk firstSequence lastSequence .genesis 0 history = _ := walk_of_chainFrom genesis_isAt h (by decide)
  rw [Nat.sub_zero, Nat.zero_add] at hw
  exact isIntact_iff.2 hw

/-- A history is found valid with every record in the range exactly if it is a chain of counted length. -/
theorem isIntact_and_isCounted_iff {history : List Record} :
    (IsIntact history n ∧ ∀ r ∈ history, r.IsCounted firstSequence lastSequence)
      ↔ IsChain history ∧ history.length < limit ∧ n = history.length := by
  constructor
  · rintro ⟨h, hall⟩
    obtain ⟨hchain, hn, hlen⟩ := chainFrom_of_walk genesis_isAt (isIntact_iff.1 h) hall
    refine ⟨hchain, ?_, by omega⟩
    cases history with
    | nil => decide
    | cons r rest =>
      have := hlen (by simp)
      omega
  · rintro ⟨hchain, hlen, rfl⟩
    have h := isIntact_of_isChain hchain
    rw [Nat.min_eq_left (by omega)] at h
    exact ⟨h, (walk_intact_le (isIntact_iff.1 h)).2 (Nat.zero_add _).symm⟩

theorem isIntact_length_iff {history : List Record} :
    IsIntact history history.length ↔ IsChain history ∧ history.length < limit := by
  constructor
  · intro h
    have hall := (walk_intact_le (isIntact_iff.1 h)).2 (Nat.zero_add _).symm
    obtain ⟨hchain, hlen, -⟩ := isIntact_and_isCounted_iff.1 ⟨h, hall⟩
    exact ⟨hchain, hlen⟩
  · rintro ⟨hchain, hlen⟩
    exact (isIntact_and_isCounted_iff.2 ⟨hchain, hlen, rfl⟩).1

/-- **What a verification of a whole history says.**  It finds a history valid if every record that it looks at, up to
the first one past the counted numbers, fits the one before it.  Where every record has a counted number, this is to say
that the history is one chain from the first record on.  So "valid" means "one chain, all of it checked" for exactly
those histories that are not valid by records that nobody has looked at. -/
theorem verification_exact (history : List Record) :
    ((∃ n, IsIntact history n) ↔ Passes firstSequence lastSequence .genesis history)
    ∧ (∀ n, (IsIntact history n ∧ ∀ r ∈ history, r.IsCounted firstSequence lastSequence)
        ↔ IsChain history ∧ history.length < limit ∧ n = history.length)
    ∧ ((((∃ n, IsIntact history n) ↔ IsChain history)
      ∧ (IsChain history → ∀ n, IsIntact history n → n = history.length))
        ↔ (Passes firstSequence lastSequence .genesis history →
          ∀ r ∈ history, r.IsCounted firstSequence lastSequence)) := by
  refine ⟨exists_isIntact_iff, fun n => isIntact_and_isCounted_iff, ?_, ?_⟩
  · rintro ⟨hvalid, hall⟩ hpasses
    obtain ⟨n, hn⟩ := exists_isIntact_iff.2 hpasses
    obtain rfl := hall (hvalid.1 ⟨n, hn⟩) n hn
    exact (walk_intact_le (isIntact_iff.1 hn)).2 (Nat.zero_add _).symm
  · intro hcounted
    have hlength : ∀ n, IsIntact history n → IsChain history ∧ n = history.length := by
      intro n hn
      obtain ⟨hchain, -, rfl⟩ := isIntact_and_isCounted_iff.1 ⟨hn, hcounted (exists_isIntact_iff.1 ⟨n, hn⟩)⟩
      exact ⟨hchain, rfl⟩
    exact ⟨⟨fun ⟨n, hn⟩ => (hlength n hn).1, fun h => ⟨_, isIntact_of_isChain h⟩⟩, fun _ n hn => (hlength n hn).2⟩

/-- A record numbered zero is passed over, whatever it says. -/
example : verify firstSequence lastSequence [⟨.num 0.0, .str "p", .ofText "q", .str "\x7b\x7d", .ofText "r", .obj []⟩]
    = .ok (.intact 0) := rfl

end PolicyGates.Audit
