import Mathlib.Logic.Function.Basic
import Mycelium.Model.Vectors

/-!
# The decoded vector cache of the process

The cache holds one decoded snapshot per scope behind a mutex, next to the invalidation
epoch, an atomic 64-bit counter. A build (`cache_scope`) looks the scope up, loads the
epoch, fetches the rows and, holding the mutex, compares the epoch again: it installs its
snapshot only on a match and otherwise starts over, three passes in all. An invalidation
(`invalidate_scope`) bumps the epoch and then, holding the mutex, removes the entry.

Any number of builds and invalidations run at once. Their steps are those at which they
touch shared state; the two statements of a fetch are two steps, and between them, as
between any two steps, the tables change in any way.

Ghosts: `bumps` counts the bumps without wrapping (the epoch is `bumps % 2 ^ 64`), a
snapshot keeps how many bumps there had been when its fetch began, a build keeps how many
there had been when it loaded the epoch, and `invalidated` lists the completed
invalidations with the number of bumps before their own. No step reads them.

SOURCE: crates/mycelium-store/src/vectors.rs
-/

set_option autoImplicit false

namespace Mycelium.Model.VectorCache

open Mycelium.Model.Vectors

/-- SOURCE: vectors.rs:86 -/
def cacheBuildPasses : ℕ := 3

/-- The epoch is an `AtomicU64`. -/
def epochBound : ℕ := 2 ^ 64

/-- SOURCE: vectors.rs:137-145, 599-605 -/
structure ScopeVectors where
  model : String
  rows : List CacheRow
  begun : ℕ
  deriving DecidableEq, Repr

/-- SOURCE: vectors.rs:599-605 -/
def snapshotOf (rows : List CacheRow) (begun : ℕ) : ScopeVectors where
  model := (rows.head?.map (·.model)).getD ""
  rows := rows
  begun := begun

/-- The fetch of a snapshot began before the bump that `k` bumps came before. -/
def ScopeVectors.BeganBefore (snapshot : ScopeVectors) (k : ℕ) : Prop := snapshot.begun ≤ k

/-- Where a build stands. -/
inductive Build where
  | idle
  | called (scope : String)
  | missed (scope : String) (pass : ℕ)
  | loaded (scope : String) (pass epoch loadedAt : ℕ)
  | fetching (scope : String) (pass epoch loadedAt begun : ℕ) (active : List String)
  | fetched (scope : String) (pass epoch loadedAt : ℕ) (snapshot : ScopeVectors)
  | finished (result : Except VectorError ScopeVectors)

/-- Where an invalidation stands; `before` is the number of bumps before its own. -/
inductive Invalidation where
  | idle
  | bumped (scope : String) (before : ℕ)
  deriving DecidableEq, Repr

structure State where
  tables : Tables
  cache : String → Option ScopeVectors
  epoch : ℕ
  builds : ℕ → Build
  invalidations : ℕ → Invalidation
  bumps : ℕ
  invalidated : List (String × ℕ)

/-- The process starts with an empty cache. -/
def State.boot (tables : Tables) : State where
  tables := tables
  cache := fun _ => none
  epoch := 0
  builds := fun _ => .idle
  invalidations := fun _ => .idle
  bumps := 0
  invalidated := []

inductive Action where
  | write (tables : Tables)
  | call (i : ℕ) (scope : String)
  | build (i : ℕ)
  | abort (i : ℕ) (e : VectorError)
  | invalidate (j : ℕ) (scope : String)
  | remove (j : ℕ)

def State.setBuild (s : State) (i : ℕ) (b : Build) : State :=
  { s with builds := Function.update s.builds i b }

/-- The next step of a build: the cache and what it does next.
SOURCE: vectors.rs:473-515 (the passes), 521-593 (the fetch) -/
def buildStep (keys : Keys) (s : State) : Build → (String → Option ScopeVectors) × Build
  | .idle => (s.cache, .idle)
  | .called scope =>
    match s.cache scope with
    | some hit => (s.cache, .finished (.ok hit))
    | none => (s.cache, .missed scope 0)
  | .missed scope pass => (s.cache, .loaded scope pass s.epoch s.bumps)
  | .loaded scope pass epoch loadedAt =>
    (s.cache, .fetching scope pass epoch loadedAt s.bumps (activeTokens keys scope s.tables.docs))
  | .fetching scope pass epoch loadedAt begun active =>
    match keptRows keys active (fetchRows scope s.tables.rows) with
    | .ok kept => (s.cache, .fetched scope pass epoch loadedAt (snapshotOf kept begun))
    | .error e => (s.cache, .finished (.error e))
  | .fetched scope pass epoch _ snapshot =>
    if s.epoch = epoch then
      (Function.update s.cache scope (some snapshot), .finished (.ok snapshot))
    else if pass + 1 < cacheBuildPasses then (s.cache, .missed scope (pass + 1))
    else (s.cache, .finished (.ok snapshot))
  | .finished r => (s.cache, .finished r)

/-- One step of the process. `abort` is a statement of a fetch that fails, or a caller that
drops its future; a finished task number is free for another call.
SOURCE: vectors.rs:671-677 (`invalidate`, `remove`) -/
def step (keys : Keys) (s : State) : Action → Option State
  | .write tables => some { s with tables }
  | .call i scope =>
    match s.builds i with
    | .idle | .finished _ => some (s.setBuild i (.called scope))
    | _ => none
  | .build i =>
    let r := buildStep keys s (s.builds i)
    some { s with cache := r.1, builds := Function.update s.builds i r.2 }
  | .abort i e => some (s.setBuild i (.finished (.error e)))
  | .invalidate j scope =>
    match s.invalidations j with
    | .idle =>
      some { s with
        epoch := (s.epoch + 1) % epochBound
        bumps := s.bumps + 1
        invalidations := Function.update s.invalidations j (.bumped scope s.bumps) }
    | .bumped _ _ => none
  | .remove j =>
    match s.invalidations j with
    | .idle => none
    | .bumped scope before =>
      some { s with
        cache := Function.update s.cache scope none
        invalidations := Function.update s.invalidations j .idle
        invalidated := (scope, before) :: s.invalidated }

end Mycelium.Model.VectorCache
