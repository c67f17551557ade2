import PolicyGates.Failure
import PolicyGates.Proposal.Basic
import PolicyGates.Value.Arithmetic
/-!
# The order of a batch

The members of a batch are put in an order in which each comes after those it depends on, as far
as these are in the batch.  The order is that of a search in depth: from each member in turn
the search goes down to what it depends on, and a member takes its place when everything
below it has one.  A search that comes back to a member it is still below has found a
ring.

The members are proposals, or documents of which only ids and dependencies are looked at.
-/
namespace PolicyGates.Batch

/-- What can stand in a batch: it has an id, and it names what has to come before it, unless there is
something wrong with that. -/
class Member (α : Type) (ι φ : outParam Type) where
  id : α → ι
  dependsOn : α → Except φ (List ι)

/-- A proposal can always tell what it depends on. -/
instance : Member Proposal Text Empty := ⟨Proposal.proposalId, fun p => .ok p.dependsOn⟩

/-- How far the search is with a member that it has entered. -/
inductive Mark where
  | visiting
  | done
  deriving DecidableEq, Repr

structure Search (α ι : Type) where
  marks : List (ι × Mark)
  /-- The ids of the members that the search is below, from the outermost inward. -/
  path : List ι
  /-- The members that have their place. -/
  ordered : List α

/-- Why members cannot be put in an order. -/
inductive Disorder (ι φ : Type) where
  | duplicate (id : ι)
  /-- They depend on each other in a ring. -/
  | ring (ids : List ι)
  /-- One of them cannot tell what it depends on. -/
  | untold (fault : φ)

variable {α ι φ : Type} [Member α ι φ] [BEq ι]

namespace Search

def fresh : Search α ι := ⟨[], [], []⟩

/-- The mark of a member; none if the search has not entered it. -/
def mark? (s : Search α ι) (id : ι) : Option Mark := s.marks.lookup id

def enter (s : Search α ι) (id : ι) : Search α ι :=
  { s with marks := (id, .visiting) :: s.marks, path := s.path ++ [id] }

/-- The member at the end of the path takes its place. -/
def leave (s : Search α ι) (a : α) : Search α ι :=
  ⟨(Member.id a, .done) :: s.marks, s.path.dropLast, s.ordered ++ [a]⟩

/-- The ring that closes when the search comes back to an id on its path. -/
def ring (s : Search α ι) (id : ι) : List ι := s.path.dropWhile (fun i => !(i == id)) ++ [id]

end Search

def find? (batch : List α) (id : ι) : Option α := batch.find? (fun a => Member.id a == id)

def before (a : α) : Except (Disorder ι φ) (List ι) := (Member.dependsOn a).mapError .untold

/-- Goes down from a member, at most as many levels deep as `depth` says, and comes back with the
search it has grown or with what is in its way. -/
def visit (batch : List α) : Nat → α → Search α ι → Except (Disorder ι φ) (Search α ι)
  | 0, _, s => .ok s
  | depth + 1, a, s =>
    match s.mark? (Member.id a) with
    | some .done => .ok s
    | some .visiting => .error (.ring (s.ring (Member.id a)))
    | none => do
      let below ← (← before a).foldlM (fun s id =>
        match find? batch id with
        | some d => visit batch depth d s
        | none => .ok s) (s.enter (Member.id a))
      return below.leave a

/-- The search from every member of a batch.  No path is longer than the batch, so it never goes
deeper than one level more. -/
def search (batch : List α) : Except (Disorder ι φ) (Search α ι) :=
  batch.foldlM (fun s a => visit batch (batch.length + 1) a s) .fresh

/-- The first id that an earlier one equals. -/
def duplicate? : List ι → List ι → Option ι
  | _, [] => none
  | seen, id :: r => if seen.contains id then some id else duplicate? (id :: seen) r

/-- The members of a batch, each after those it depends on. -/
def arrange (batch : List α) : Except (Disorder ι φ) (List α) :=
  match duplicate? [] (batch.map Member.id) with
  | some id => .error (.duplicate id)
  | none => (search batch).map Search.ordered

/-! ## Proposals -/

def Disorder.error : Disorder Text Empty → PolicyError
  | .duplicate id => .invalidProposal (.duplicate (.str id))
  | .ring ids => .dependencyCycle (ids.map .str)

/-- The proposals of a batch, each after those it depends on. -/
def order (batch : List Proposal) : Except PolicyError (List Proposal) := (arrange batch).mapError Disorder.error

/-! ## Documents -/

structure Entry where
  id : Value
  document : Value

/-- What a document names as its dependencies. -/
def Entry.dependsOn (e : Entry) : Except Failure (List Value) :=
  (e.document.ask "dependsOn").bind (·.each "dependsOn")

instance : Member Entry Value Failure := ⟨Entry.id, Entry.dependsOn⟩

/-- The documents with their ids, up to the first that cannot be asked for its id or has one of those in
`seen` or before it. -/
def entries (seen : List Value) : List Value → Except Failure (List Entry)
  | [] => .ok []
  | d :: r => do
    let id ← d.ask "proposalId"
    if seen.contains id then .error (.policy (.invalidProposal (.duplicate id)))
    else
      let rest ← entries (id :: seen) r
      return ⟨id, d⟩ :: rest

def Disorder.failure : Disorder Value Failure → Failure
  | .duplicate id => .policy (.invalidProposal (.duplicate id))
  | .ring ids => .policy (.dependencyCycle ids)
  | .untold f => f

/-- The ids of a batch of documents, each after those that its document depends on.  All ids are looked at
before any dependencies, and dependencies only where the search comes to them. -/
def orderDocuments (documents : List Value) : Except Failure (List Value) := do
  let entries ← entries [] documents
  let ordered ← (arrange entries).mapError Disorder.failure
  return ordered.map Entry.id

end PolicyGates.Batch
