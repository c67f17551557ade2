import PolicyGates.Http.Service
import PolicyGates.Proofs.Audit.Ranges
import PolicyGates.Proofs.Coordination
import PolicyGates.Proofs.Evaluation
import PolicyGates.Proofs.Http.Queries
import PolicyGates.Proofs.Session
/-!
# The log in pages

A client that asks for the records between two numbers is told those records (`answer_between`), and one that asks for
those up to a number, or from a number on, is told a page from the start or to the end (`answer_to`, `answer_from`).
Two such pages with one boundary between them make up the log (`append_pages`), whose records are numbered apart as
long as there are fewer than `2^53`.
-/
namespace PolicyGates

open Double (counted limit firstInfinite)

/-! ## What a session has recorded -/

/-- The records are a chain, each of a proposal that has a hash. -/
structure Audit.IsRecorded (history : List Audit.Record) : Prop where
  isChain : Audit.IsChain history
  proposalHash : ∀ r ∈ history, ∃ t, r.proposalHash = .str t

/-- **What a session has recorded is such a chain again**, so that another session can be opened over it. -/
theorem Session.IsReachable.isRecorded {before : List Audit.Record} {s : Session} (h : s.IsReachable before)
    (hbefore : Audit.IsRecorded before) : Audit.IsRecorded s.registry.log.history := by
  refine ⟨(h.isSound hbefore.isChain).chain, ?_⟩
  induction h with
  | opened hlog hhistory hmetrics => exact hhistory ▸ hbefore.proposalHash
  | @step s hs o ih =>
    rcases s.history_step o with hsame | ⟨r, t, ht, hgained⟩
    · rwa [hsame]
    · rw [hgained]
      exact List.forall_mem_append.2 ⟨ih, List.forall_mem_singleton.2 ⟨t, ht⟩⟩

namespace Http

open Audit (IsChain slice firstSequence lastSequence)

def Response.listing (records : List Audit.Record) : Response := ⟨200, .arr (records.map Audit.Record.onWire)⟩

/-- The records up to a number.  One for which there is no double counts as none, and one past all records keeps none
out. -/
def pageTo (last : Nat) (history : List Audit.Record) : List Audit.Record :=
  if limit ≤ last ∧ last < firstInfinite then history else slice 1 (min last (limit - 1)) history

/-- The records from a number on, where a number for which there is no double counts as none. -/
def pageFrom (first : Nat) (history : List Audit.Record) : List Audit.Record :=
  slice (if first < firstInfinite then first else 1) (limit - 1) history

section Pages

variable {k : Conditions} {reg : Registry} {r : Request} {first last : Nat}

/-! ### What is asked for -/

section Bounds

variable {parameters : List (String × Nat)}

theorem isPlain_of_sublist (h : (parameters.map Prod.fst).Sublist ["from", "to"]) : ∀ p ∈ parameters, IsPlain p.1 :=
  fun p hp => by
  have hplain : ∀ s ∈ ["from", "to"], s.toList.all Char.isAlphanum = true := by decide
  exact List.all_eq_true.1 (hplain p.1 (h.subset (List.mem_map_of_mem hp)))

variable (hr : r.Asks "/audit" parameters)
  (hwords : (parameters.map Prod.fst).Sublist ["from", "to"])
include hr

/-- **A request for records is answered with those between its bounds.** -/
theorem answer_audit {page : List Audit.Record}
    (hpage : reg.log.range (r.bound "from" firstSequence) (r.bound "to" lastSequence) = .ok page) :
    answer k reg r = (reg, .listing page) := by
  obtain ⟨document, hdocument⟩ := hr.document
  have hroute := Request.routing_audit (hr.path_eq (by decide)) hr.method
  unfold answer dispatch
  rw [hr.method, if_neg (by decide), if_neg (by decide), hdocument]
  dsimp only
  rw [hroute]
  dsimp only [answerRoute]
  unfold handleAudit
  rw [hpage]
  dsimp only [Response.of]
  rw [Value.normal, Value.normalItems_eq_map, List.map_map]
  rfl

include hwords

theorem bound_given (name : String) {n : Nat} (hn : parameters.lookup name = some n) (hpos : 0 < n) (fallback : Value) :
    r.bound name fallback = if n < firstInfinite then .num (Float.ofNat n) else fallback :=
  hr.bound_eq (by decide) (isPlain_of_sublist hwords) (hwords.nodup (by decide)) hn hpos fallback

theorem bound_missing (name : String) (hn : parameters.lookup name = none) (fallback : Value) :
    r.bound name fallback = fallback :=
  hr.bound_of_none (by decide) (isPlain_of_sublist hwords) (hwords.nodup (by decide)) hn fallback

end Bounds

/-! ### What is told -/

variable (hlog : IsChain reg.log.history)
include hlog

/-- **The records between two numbers.** -/
theorem answer_between (hr : r.Asks "/audit" [("from", first), ("to", last)]) (hfirst : 0 < first) (hle : first ≤ last)
    (hlast : last < limit) : answer k reg r = (reg, .listing (slice first last reg.log.history)) := by
  have hfrom := bound_given hr (.refl _) "from" rfl hfirst firstSequence
  have hto := bound_given hr (.refl _) "to" rfl (hfirst.trans_le hle) lastSequence
  rw [if_pos (Double.isFinite_ofNat_iff.1 (Double.isFinite_ofNat (hle.trans hlast.le)))] at hfrom
  rw [if_pos (Double.isFinite_ofNat_iff.1 (Double.isFinite_ofNat hlast.le))] at hto
  refine answer_audit hr ?_
  rw [hfrom, hto]
  exact hlog.range_ofNat hlast

/-- **The records up to a number.** -/
theorem answer_to (hr : r.Asks "/audit" [("to", last)]) (hlast : 0 < last) :
    answer k reg r = (reg, .listing (pageTo last reg.log.history)) := by
  have hfrom := bound_missing hr (.cons _ (.refl _)) "from" rfl firstSequence
  have hto := bound_given hr (.cons _ (.refl _)) "to" rfl hlast lastSequence
  refine answer_audit hr ?_
  rw [hfrom, hto, pageTo]
  by_cases hfar : limit ≤ last ∧ last < firstInfinite
  · rw [if_pos hfar, if_pos hfar.2]
    exact hlog.range_all hfar.1
  · have hbound : (if last < firstInfinite then Value.num (Float.ofNat last) else lastSequence)
        = .num (Float.ofNat (min last (limit - 1))) := by
      rcases Nat.lt_or_ge last limit with hlow | hhigh
      · rw [if_pos (Double.isFinite_ofNat_iff.1 (Double.isFinite_ofNat hlow.le)), Nat.min_eq_left (by omega)]
      · rw [if_neg fun hfinite => hfar ⟨hhigh, hfinite⟩, Nat.min_eq_right (by omega), Audit.lastSequence_eq]
    rw [if_neg hfar, hbound, Audit.firstSequence_eq]
    exact hlog.range_ofNat (Nat.lt_of_le_of_lt (Nat.min_le_right _ _) (by decide))

/-- **The records from a number on.** -/
theorem answer_from (hr : r.Asks "/audit" [("from", first)]) (hfirst : 0 < first) :
    answer k reg r = (reg, .listing (pageFrom first reg.log.history)) := by
  have hfrom := bound_given hr (.cons_cons _ (.cons _ .slnil)) "from" rfl hfirst firstSequence
  have hto := bound_missing hr (.cons_cons _ (.cons _ .slnil)) "to" rfl lastSequence
  have hbound : r.bound "from" firstSequence = .num (Float.ofNat (if first < firstInfinite then first else 1)) := by
    rw [hfrom, Audit.firstSequence_eq]
    split <;> rfl
  refine answer_audit hr ?_
  rw [hbound, hto, pageFrom, Audit.lastSequence_eq]
  exact hlog.range_ofNat (by decide)

end Pages

/-! ### Two pages -/

section Boundary

variable {history : List Audit.Record} {n : Nat}

theorem append_pages_far (hfinite : n + 1 < firstInfinite) (hn : limit ≤ n) :
    pageTo n history ++ pageFrom (n + 1) history = history := by
  have hnone : pageFrom (n + 1) history = [] := by
    rw [pageFrom, if_pos hfinite, slice, Nat.add_sub_cancel]
    exact List.drop_eq_nil_of_le (by rw [List.length_take]; omega)
  rw [pageTo, if_pos ⟨hn, by omega⟩, hnone, List.append_nil]

theorem append_pages_near (hn : n < limit) :
    pageTo n history ++ pageFrom (n + 1) history = history.take (limit - 1) := by
  have hfinite : n + 1 < firstInfinite := Double.isFinite_ofNat_iff.1 (Double.isFinite_ofNat hn)
  have hfirst : history.take n = (history.take (limit - 1)).take n := by
    rw [List.take_take, Nat.min_eq_left (by omega)]
  rw [pageTo, if_neg fun hfar => Nat.not_le.2 hn hfar.1, Nat.min_eq_left (by omega), pageFrom,
    if_pos hfinite, slice, slice, Nat.sub_self, List.drop_zero, Nat.add_sub_cancel, hfirst, List.take_append_drop]

/-- **Two pages with one boundary between them** have every record, and have it once. -/
theorem append_pages (hfinite : n + 1 < firstInfinite) (hapart : history.length < limit ∨ limit ≤ n) :
    pageTo n history ++ pageFrom (n + 1) history = history := by
  rcases Nat.lt_or_ge n limit with hnear | hfar
  · rw [append_pages_near hnear]
    exact List.take_of_length_le (by omega)
  · exact append_pages_far hfinite hfar

end Boundary

/-! ## Every state -/

/-- **The log can be read in pages.**  In every state of a session, a request for the records between two numbers
below `2^53` is answered with exactly those, in their order.  The page up to a number and the page from the next
number on are the whole log, and what has arrived links and rehashes as one chain from the genesis hash.  This is so
for all numbers below `2^53`, and above for those that are read as finite; from `2^53` records on, those at the end
are no longer told apart by their numbers. -/
theorem pages_exact {before : List Audit.Record} {s : Session} (hs : s.IsReachable before)
    (hbefore : Audit.IsRecorded before) (k : Conditions) :
    let log := s.registry.log.history
    (∀ first last : Nat, 1 ≤ first → first ≤ last → last < 2 ^ 53 →
      ∀ r : Request, r.Asks "/audit" [("from", first), ("to", last)] →
      answer k s.registry r = (s.registry, .listing (slice first last log))
        ∧ (slice first last log).map Audit.Record.sequenceNumber
          = (List.range' first (min last log.length + 1 - first)).map Value.ofCount)
    ∧ ∀ n : Nat, 1 ≤ n → n < 2 ^ 53 ∨ n + 1 < firstInfinite →
      ∀ r r' : Request, r.Asks "/audit" [("to", n)] → r'.Asks "/audit" [("from", n + 1)] →
      ∃ page page' : List Audit.Record, answer k s.registry r = (s.registry, .listing page)
        ∧ answer k s.registry r' = (s.registry, .listing page')
        ∧ (log.length < 2 ^ 53 ∨ 2 ^ 53 ≤ n → page ++ page' = log
          ∧ Audit.LinksFrom 0 (.str Audit.genesisHash)
            (page.map Audit.Record.onWire ++ page'.map Audit.Record.onWire)) := by
  intro log
  have hrecorded := hs.isRecorded hbefore
  have hlog := hrecorded.isChain
  constructor
  · intro first last hfirst hle hlast r hr
    exact ⟨answer_between hlog hr hfirst hle hlast, hlog.slice_numbers hfirst hlast.le⟩
  · intro n hn hbound r r' hr hr'
    have hfinite : n + 1 < firstInfinite :=
      hbound.elim (fun hlow => Double.isFinite_ofNat_iff.1 (Double.isFinite_ofNat hlow)) id
    refine ⟨pageTo n log, pageFrom (n + 1) log, answer_to hlog hr hn, answer_from hlog hr' n.succ_pos, fun hapart => ?_⟩
    have hwhole := append_pages hfinite hapart
    rw [← List.map_append, hwhole]
    exact ⟨rfl, Audit.ChainFrom.linksFrom hlog hrecorded.proposalHash⟩

/-! ### A log with two records -/

def justStarted : Registry :=
  .start (.ofValue (Settings.merged (.obj []))) (some .empty) (.startingAt Clock.defaultStart)

/-- A session in which two proposals were given up, one before the other was asked about. -/
def givenUpTwice : Session := (Session.opened justStarted).run
  [.asked ⟨.obj (Registry.namedMembers "p1" []), none, .absent⟩,
    .asked ⟨.obj (Registry.namedMembers "p2" []), none, .absent⟩,
    .cancelled 0 "enough", .checked 0, .answered, .cancelled 0 "enough", .checked 0, .answered, .resumed, .resumed]

theorem isReachable_givenUpTwice : givenUpTwice.IsReachable [] := by
  have hlog : justStarted.log = .opened (some .empty) := rfl
  have hopened : (Session.opened justStarted).IsReachable [] := .opened hlog rfl rfl
  exact hopened.run _

theorem isRecorded_nil : Audit.IsRecorded [] := ⟨Audit.chainFrom_nil _ _, List.forall_mem_nil _⟩

theorem length_givenUpTwice : givenUpTwice.registry.log.history.length = 2 := by
  unfold givenUpTwice
  rw [Session.run_asked (Registry.prepare_eq_ok (Registry.create_namedMembers rfl) rfl),
    Session.run_asked (Registry.prepare_eq_ok (Registry.create_namedMembers rfl) rfl)]
  decide +kernel

/-- The log with two records, in one page and in two. -/
theorem two_records_in_pages :
    let k : Conditions := ⟨0, []⟩
    let log := givenUpTwice.registry.log.history
    log.length = 2
      ∧ answer k givenUpTwice.registry ⟨"GET", "/audit?from=1&to=3", "", ""⟩
        = (givenUpTwice.registry, .listing (slice 1 3 log))
      ∧ ∃ page page', answer k givenUpTwice.registry ⟨"GET", "/audit?to=1", "", ""⟩
        = (givenUpTwice.registry, .listing page)
        ∧ answer k givenUpTwice.registry ⟨"GET", "/audit?from=2", "", ""⟩ = (givenUpTwice.registry, .listing page')
        ∧ page ++ page' = log
        ∧ Audit.LinksFrom 0 (.str Audit.genesisHash)
          (page.map Audit.Record.onWire ++ page'.map Audit.Record.onWire) := by
  intro k log
  obtain ⟨hbetween, hpages⟩ := pages_exact isReachable_givenUpTwice isRecorded_nil k
  have hall := (hbetween 1 3 (by decide) (by decide) (by decide) ⟨"GET", "/audit?from=1&to=3", "", ""⟩
    ⟨rfl, by decide +kernel, _, rfl⟩).1
  obtain ⟨page, page', hpage, hpage', hwhole⟩ :=
    hpages 1 (Nat.le_refl 1) (.inl (by decide)) ⟨"GET", "/audit?to=1", "", ""⟩
    ⟨"GET", "/audit?from=2", "", ""⟩ ⟨rfl, by decide +kernel, _, rfl⟩ ⟨rfl, by decide +kernel, _, rfl⟩
  obtain ⟨hlog, hlinks⟩ := hwhole (.inl (by rw [length_givenUpTwice]; decide))
  exact ⟨length_givenUpTwice, hall, page, page', hpage, hpage', hlog, hlinks⟩

end Http
end PolicyGates
