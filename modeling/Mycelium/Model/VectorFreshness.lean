import Mathlib.Data.List.Dedup
import Mycelium.Lib.Dict
import Mycelium.Model.Vectors

/-!
# The vector worker and the concepts it embeds

The put hook queues the token of a written path; the worker drains the queue, reads the
texts of the drained paths, embeds them in batches and writes one row per path. What fails
to embed is parked in the queue again. On each tick the worker also rebuilds the rows of the
scopes that have stale ones, and once per process it queues what `backlog_paths` lists. The
queue and the learned dimensions are in memory; the rows, the search index and the concepts
are stored.

A put and a delete are one step each: the concept is known by its searchable text, and its
file, its registry row and its search document come and go together. The worker's steps are
those at which it touches the queue, a concept or a row, so concepts change between the
reading of a text and the writing of its row. One configuration (`Env.model`, `Env.batch`)
is in force.

SOURCE: crates/mycelium-librarian/src/vector_worker.rs, crates/mycelium-store/src/vectors.rs
-/

set_option autoImplicit false

namespace Mycelium.Model.VectorFreshness

open Mycelium.Model.Vectors

structure Env where
  keys : Keys
  model : String
  batch : ℕ

/-- A path and the text that was read for it. -/
abbrev Pair := String × String

/-- A scope and its drained tokens. -/
abbrev Group := String × List String

/-- What `embed_and_upsert` was called by, with what is left to do there. -/
inductive Mode where
  | drain (groups : List Group)
  | rebuild (scopes : List String)
  deriving DecidableEq, Repr

/-- Where the worker stands in its tick. `belt` and the sweeps go on at `next`. -/
inductive Worker where
  | idle
  | prologue
  | health
  | drain
  | groups (groups : List Group)
  | load (scope : String) (listing tokens : List String) (pairs : List Pair) (groups : List Group)
  | belt (scope token : String) (next : Worker)
  | embed (scope : String) (pairs : List Pair) (parked : List String) (mode : Mode)
  | upsert (scope : String) (chunk : List Pair) (dims : ℕ) (pairs : List Pair)
      (parked : List String) (mode : Mode)
  | park (scope : String) (parked : List String) (groups : List Group)
  | staleScopes
  | rebuild (scopes : List String)
  | reload (scope : String) (paths : List String) (pairs : List Pair) (scopes : List String)
  | sweepIndex (scope path : String) (next : Worker)
  | sweepVector (scope path : String) (next : Worker)
  | bootScopes
  | backlog (scopes : List String)
  | walk (scope : String) (paths scopes : List String)
  deriving DecidableEq, Repr

/-- What a step takes from outside: whether the statement goes through (or the scope can be
opened), what the configuration and the backend say, what an embedding comes to (the
dimensions served, or nothing), the sealed bytes and the time of a row, and the users. -/
structure Choice where
  ok : Bool := true
  configured : Bool := true
  red : Bool := false
  embedded : Option ℕ := some 3
  sealed : List UInt8 := []
  now : String := ""
  users : List String := []

/-- `concepts` gives the searchable text at a scope and path. `bootBacklog` is the flag of
the run loop; `tickBoot` and `tickLearned` are what the tick in progress has read. -/
structure State where
  concepts : Dict (String × String) String
  tables : Tables
  queue : List Item
  learned : ℕ
  bootBacklog : Bool
  tickBoot : Bool
  tickLearned : ℕ
  worker : Worker

/-- A process on what is stored, with nothing in memory. -/
def State.boot (concepts : Dict (String × String) String) (tables : Tables) : State where
  concepts := concepts
  tables := tables
  queue := []
  learned := 0
  bootBacklog := true
  tickBoot := false
  tickLearned := 0
  worker := .idle

def State.empty : State := State.boot ∅ { docs := [], rows := [] }

/-- SOURCE: vector_worker.rs:89 -/
def staleRowsPerTick : ℕ := 256

/-- The registry listing of a scope. -/
def listing (concepts : Dict (String × String) String) (scope : String) : List String :=
  ((concepts.keys.filter fun k => k.1 = scope).map (·.2)).insertionSort (· ≤ ·)

/-- The path of a token by a registry scan: the last one wins. SOURCE: vector_worker.rs:293-297 -/
def pathOf (keys : Keys) (scope : String) (paths : List String) (token : String) : Option String :=
  (paths.filter fun p => keys.token scope p = token).getLast?

/-- The drained items by scope, in the order of the scopes. SOURCE: vector_worker.rs:256-259 -/
def groupByScope (items : List Item) : List Group :=
  (((items.map (·.1)).dedup).insertionSort (· ≤ ·)).map fun scope =>
    (scope, (items.filter fun e => e.1 = scope).map (·.2))

/-- SOURCE: vector_worker.rs:487-491 -/
def scopesWithStale (t : Tables) : List String :=
  (((t.rows.filter (·.stale)).map (·.scopeId)).dedup).insertionSort (· ≤ ·)

/-- A document of the search index replaces the one of its path. -/
def addDoc (t : Tables) (scope path : String) (status : Option String) : Tables :=
  { t with docs := (t.docs.filter fun d => ¬ (d.scope = scope ∧ d.conceptPath = path)) ++
      [{ scope := scope, conceptPath := path, lifecycleStatus := status }] }

def removeDoc (t : Tables) (scope path : String) : Tables :=
  { t with docs := t.docs.filter fun d => ¬ (d.scope = scope ∧ d.conceptPath = path) }

/-- The row an upsert writes; `text` is the ghost. SOURCE: vectors.rs:209-260 -/
def newRow (env : Env) (ch : Choice) (scope path text : String) (dims : ℕ) : RawVectorRow where
  scopeId := scope
  pathToken := env.keys.token scope path
  model := env.model
  dims := dims
  stale := false
  sealed := ch.sealed
  updatedAt := ch.now
  text := text

/-- Where a finished batch goes on. -/
def afterEmbed (scope : String) (parked : List String) : Mode → Worker
  | .drain groups => .park scope parked groups
  | .rebuild scopes => .rebuild scopes

/-- The steps of the drain. SOURCE: vector_worker.rs:247-345 -/
@[simp] def drainStep (env : Env) (s : State) (ch : Choice) : Worker → State
  | .drain =>
    let r := drainQueue s.queue vectorQueueCapacity
    { s with queue := r.2, worker := .groups (groupByScope r.1) }
  | .groups [] => { s with worker := .staleScopes }
  | .groups ((scope, tokens) :: groups) =>
    if ch.ok then { s with worker := .load scope (listing s.concepts scope) tokens [] groups }
    else { s with worker := .groups groups }
  | .load scope _ [] pairs groups => { s with worker := .embed scope pairs [] (.drain groups) }
  | .load scope paths (token :: tokens) pairs groups =>
    match pathOf env.keys scope paths token with
    | none => { s with worker := .belt scope token (.load scope paths tokens pairs groups) }
    | some path =>
      if ch.ok then
        match s.concepts.get? (scope, path) with
        | some text =>
          { s with worker := .load scope paths tokens (pairs ++ [(path, text)]) groups }
        | none => { s with worker := .belt scope token (.load scope paths tokens pairs groups) }
      else { s with worker := .load scope paths tokens pairs groups }
  | .belt scope token next =>
    { s with
      tables := if ch.ok then s.tables.removeRowByToken scope token else s.tables
      worker := next }
  | .park _ [] groups => { s with worker := .groups groups }
  | .park scope (path :: parked) groups =>
    { s with
      queue := enqueueWrite s.queue scope (env.keys.token scope path)
      worker := .park scope parked groups }
  | w => { s with worker := w }

/-- The steps of `embed_and_upsert`. SOURCE: vector_worker.rs:405-482, embeddings.rs:174-183 -/
@[simp] def embedStep (env : Env) (s : State) (ch : Choice) : Worker → State
  | .embed scope [] parked mode => { s with worker := afterEmbed scope parked mode }
  | .embed scope (pair :: pairs) parked mode =>
    let todo := pair :: pairs
    if ch.red then { s with worker := .embed scope [] (parked ++ todo.map (·.1)) mode }
    else
      let n := max 1 env.batch
      match ch.embedded with
      | none =>
        { s with worker := .embed scope (todo.drop n) (parked ++ (todo.take n).map (·.1)) mode }
      | some dims =>
        { s with
          learned := dims
          worker := .upsert scope (todo.take n) dims (todo.drop n) parked mode }
  | .upsert scope [] _ pairs parked mode => { s with worker := .embed scope pairs parked mode }
  | .upsert scope ((path, text) :: chunk) dims pairs parked mode =>
    { s with
      tables := if ch.ok then s.tables.upsertRow (newRow env ch scope path text dims) else s.tables
      worker := .upsert scope chunk dims pairs parked mode }
  | w => { s with worker := w }

/-- The steps of the two enumerations of the backlog. SOURCE: vector_worker.rs:484-623 -/
@[simp] def backlogStep (env : Env) (s : State) (ch : Choice) : Worker → State
  | .staleScopes =>
    if ch.ok then { s with worker := .rebuild (scopesWithStale s.tables) }
    else { s with worker := .bootScopes }
  | .rebuild [] => { s with worker := .bootScopes }
  | .rebuild (scope :: scopes) =>
    if ch.ok then
      let paths := backlogPaths env.keys s.tables scope env.model s.learned
      { s with worker := .reload scope (paths.take staleRowsPerTick) [] scopes }
    else { s with worker := .rebuild scopes }
  | .reload scope [] pairs scopes => { s with worker := .embed scope pairs [] (.rebuild scopes) }
  | .reload scope (path :: paths) pairs scopes =>
    if ch.ok then
      match s.concepts.get? (scope, path) with
      | some text => { s with worker := .reload scope paths (pairs ++ [(path, text)]) scopes }
      | none => { s with worker := .sweepIndex scope path (.reload scope paths pairs scopes) }
    else { s with worker := .reload scope paths pairs scopes }
  | .sweepIndex scope path next =>
    { s with
      tables := if ch.ok then removeDoc s.tables scope path else s.tables
      worker := .sweepVector scope path next }
  | .sweepVector scope path next =>
    { s with
      tables :=
        if ch.ok then s.tables.removeRowByToken scope (env.keys.token scope path) else s.tables
      worker := next }
  | .bootScopes =>
    if s.tickBoot then
      { s with
        worker := .backlog ("global:skills" :: "global:library" :: ch.users.map ("user:" ++ ·)) }
    else { s with worker := .idle }
  | .backlog [] => { s with worker := .idle }
  | .backlog (scope :: scopes) =>
    if ch.ok then
      { s with
        worker := .walk scope (backlogPaths env.keys s.tables scope env.model s.tickLearned) scopes }
    else { s with worker := .backlog scopes }
  | .walk _ [] scopes => { s with worker := .backlog scopes }
  | .walk scope (path :: paths) scopes =>
    if ch.ok then
      match s.concepts.get? (scope, path) with
      | some _ =>
        { s with
          queue := enqueueWrite s.queue scope (env.keys.token scope path)
          worker := .walk scope paths scopes }
      | none => { s with worker := .sweepIndex scope path (.walk scope paths scopes) }
    else { s with worker := .walk scope paths scopes }
  | w => { s with worker := w }

/-- The next step of the worker. SOURCE: vector_worker.rs:170-208 (the tick) -/
def workerStep (env : Env) (s : State) (ch : Choice) : State :=
  match s.worker with
  | .idle => if ch.configured then { s with worker := .prologue } else s
  | .prologue =>
    { s with
      tables :=
        if s.learned ≠ 0 ∧ ch.ok = true then s.tables.markCorpusStale env.model s.learned
        else s.tables
      tickLearned := s.learned
      worker := .health }
  | .health =>
    if ch.red then { s with worker := .idle }
    else { s with bootBacklog := false, tickBoot := s.bootBacklog, worker := .drain }
  | .drain | .groups _ | .load _ _ _ _ _ | .belt _ _ _ | .park _ _ _ =>
    drainStep env s ch s.worker
  | .embed _ _ _ _ | .upsert _ _ _ _ _ _ => embedStep env s ch s.worker
  | _ => backlogStep env s ch s.worker

inductive Action where
  | put (scope path text : String) (status : Option String)
  | delete (scope path : String)
  | work (ch : Choice)
  | learn (dims : ℕ)
  | restart

/-- One step of the system. `learn` is an embedding outside the worker (a query, a probe).
SOURCE: concept_store.rs:406-412 (the put hook), 652-663 (the delete hook) -/
def step (env : Env) (s : State) : Action → Option State
  | .put scope path text status =>
    some { s with
      concepts := s.concepts.insert (scope, path) text
      tables := addDoc s.tables scope path status
      queue := enqueueWrite s.queue scope (env.keys.token scope path) }
  | .delete scope path =>
    some { s with
      concepts := s.concepts.erase (scope, path)
      tables :=
        (removeDoc s.tables scope path).removeRowByToken scope (env.keys.token scope path) }
  | .work ch => some (workerStep env s ch)
  | .learn dims => some { s with learned := dims }
  | .restart => some (State.boot s.concepts s.tables)

end Mycelium.Model.VectorFreshness
