import Mycelium.Model.StoreTasks

/-!
# The vector worker beside the concept store

The embedding worker of a scope walks a backlog of indexed paths at two sites: once per
process it queues the concepts without a fresh vector row, and on every tick it rebuilds
the rows of a stale scope. At both a path whose concept cannot be read any more is swept:
its search-index row goes first and its vector row after it. The worker takes no lock
that the calls on the store take, so `step` interleaves its steps with theirs.

SOURCE: crates/mycelium-librarian/src/vector_worker.rs, crates/mycelium-store/src/vectors.rs
-/

set_option autoImplicit false

namespace Mycelium.Model.VectorWorker

open Mycelium.Model.Concepts Mycelium.Model.ConceptStore Mycelium.Model.StoreTasks

/-! ## The worker's storage steps -/

/-- SOURCE: concept_store.rs:564-580 -/
def get (cx : Codec) (s : Store) (path : String) : Except StoreError Concept :=
  match s.read path with
  | .error e => .error e
  | .ok none => .error (.notFound path)
  | .ok (some markdown) => (Concept.parse cx path markdown).mapError .parse

/-- The row of an embedded concept. SOURCE: vectors.rs:209-260 -/
def upsertVector (s : Store) (path : String) : Store :=
  if path ∈ s.vectorRows then s else { s with vectorRows := s.vectorRows ++ [path] }

/-- How many stale rows one tick rebuilds. -/
def staleRowsPerTick : ℕ := 256

/-- The two places that enumerate the backlog. -/
inductive Site where
  | bootBacklog
  | staleRebuild
  deriving DecidableEq

/-- What a step of the worker takes from outside: whether the vector row of a path has
the configured model and dimensions and is not stale, whether the backend embeds, and
whether a removal goes through (a failed one is logged and passed over). -/
structure Choice where
  fresh : String → Bool := fun _ => true
  embeds : Bool := true
  removes : Bool := true

/-- Where the worker stands. `pairs` are the concepts a rebuild has loaded. -/
inductive Pc where
  | idle
  | listing (site : Site) (docs : List String)
  | walk (site : Site) (paths pairs : List String)
  | sweepIndex (path : String) (site : Site) (paths pairs : List String)
  | sweepVector (path : String) (site : Site) (paths pairs : List String)
  | embed (pairs : List String) (wrote : Bool)

/-- The condition of the backlog on a path. SOURCE: vectors.rs:373-384 -/
def needsWork (s : Store) (ch : Choice) (path : String) : Bool :=
  path ∉ s.vectorRows || !ch.fresh path

/-- The next storage step of the worker. SOURCE: vector_worker.rs:372-391 (sweep),
500-551 (rebuild), 590-623 (backlog) -/
def workerStep (cx : Codec) (s : Store) (ch : Choice) : Pc → Store × Pc
  | .idle => (s, .idle)
  | .listing site docs =>
    let paths := docs.filter (needsWork s ch)
    match site with
    | .bootBacklog => (s, .walk site paths [])
    | .staleRebuild => (s, .walk site (paths.take staleRowsPerTick) [])
  | .walk .bootBacklog [] _ => (s, .idle)
  | .walk .staleRebuild [] pairs => (s, .embed pairs false)
  | .walk site (path :: paths) pairs =>
    match get cx s path with
    | .ok _ =>
      match site with
      | .bootBacklog => (s.enqueueVector path, .walk site paths pairs)
      | .staleRebuild => (s, .walk site paths (pairs ++ [path]))
    | .error (.notFound _) => (s, .sweepIndex path site paths pairs)
    | .error _ => (s, .walk site paths pairs)
  | .sweepIndex path site paths pairs =>
    (if ch.removes then s.removeIndex path else s, .sweepVector path site paths pairs)
  | .sweepVector path site paths pairs =>
    (if ch.removes then s.removeVector path else s, .walk site paths pairs)
  | .embed [] wrote => (if wrote then s.invalidateVectors else s, .idle)
  | .embed (path :: pairs) wrote =>
    if ch.embeds then (upsertVector s path, .embed pairs true) else (s, .embed pairs wrote)

/-! ## The system -/

structure State where
  calls : StoreTasks.State
  worker : Pc

def State.ofStore (store : Store) : State where
  calls := { store := store, tasks := fun _ => .idle }
  worker := .idle

inductive Action where
  | start (i : ℕ) (h : Handle) (call : Call) (ch : StoreTasks.Choice)
  | step (i : ℕ) (ch : StoreTasks.Choice)
  | list (site : Site) (docs : List String)
  | work (ch : Choice)

/-- One step of a call or of the worker. The first statement of an enumeration reads
paths of the search index in order: `docs` is any part of what it returns. -/
def step (cx : Codec) (s : State) : Action → Option State
  | .start i h call ch =>
    (StoreTasks.step cx s.calls (.start i h call ch)).map fun calls => { s with calls }
  | .step i ch => (StoreTasks.step cx s.calls (.step i ch)).map fun calls => { s with calls }
  | .list site docs =>
    match s.worker with
    | .idle =>
      if (docs.all fun path => (s.calls.store.index path).isSome) ∧ docs.Pairwise (· < ·) then
        some { s with worker := .listing site docs }
      else none
    | _ => none
  | .work ch =>
    let r := workerStep cx s.calls.store ch s.worker
    some { calls := { s.calls with store := r.1 }, worker := r.2 }

/-- No call is in flight and the worker is at rest. -/
def State.Completed (s : State) : Prop :=
  s.worker = .idle ∧ ∀ i, s.calls.tasks i = .idle ∨ ∃ r, s.calls.tasks i = .finished r

end Mycelium.Model.VectorWorker
