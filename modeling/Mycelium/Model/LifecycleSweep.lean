import Mycelium.Model.StoreTasks

/-!
# The sweep over deprecated tags

At boot every concept with a `deprecated` tag is retired, scope after scope. No row marks a
concept as migrated: the sweep knows one by its file. A put of the sweep is the put of
`Mycelium.Model.StoreTasks`, so that a boot may be cut between any two of its storage steps.
What the server does between two sweeps is one step that may leave any stores. `lower` stands
for `str::to_lowercase`, and the clock of a round is read once by the rewrite and then by the
put.

SOURCE: crates/mycelium-web/src/lifecycle.rs
-/

set_option autoImplicit false

namespace Mycelium.Model.LifecycleSweep

open Mycelium.Model.Text Mycelium.Model.Concepts Mycelium.Model.ConceptStore
open Mycelium.Model.StoreTasks (Pc Choice Call taskStep Store.restart)

/-! ## The rewrite -/

/-- SOURCE: lifecycle.rs:37-39 -/
def migrationLabel : String := "migration"

/-- SOURCE: lifecycle.rs:85-91 -/
def isDeprecatedTag (lower : String → String) (tag : String) : Bool :=
  lower (String.ofList (trim tag.toList)) = "deprecated"

/-- The concept that replaces a deprecated one. SOURCE: lifecycle.rs:75-82 -/
def retired (lower : String → String) (now : String) (c : Concept) : Concept :=
  { c with
    frontmatter := { c.frontmatter with
      tags := c.frontmatter.tags.filter fun t => !isDeprecatedTag lower t
      status := some "retired"
      source := some migrationLabel
      confirmedAt := some now } }

/-- SOURCE: lifecycle.rs:49-83 -/
def rewriteIfDeprecated (lower : String → String) (now : String) (c : Concept) : Option Concept :=
  if c.frontmatter.tags.any (isDeprecatedTag lower) then some (retired lower now c) else none

/-! ## The sweep -/

/-- The store of a scope as the sweep opens it. SOURCE: lifecycle.rs:117-119 -/
def sweepHandle : Handle where
  provenance := some migrationLabel
  revisionOp := some .migration

def skillsScope : String := "global:skills"

def libraryScope : String := "global:library"

/-- The two shelves and the users whose id is read and whose key is recovered; the users come in
the order of their ids. SOURCE: lifecycle.rs:125-188 -/
def sweepTargets (users : List (String × Bool)) : List String :=
  skillsScope :: libraryScope :: (users.filter Prod.snd).map fun u => "user:" ++ u.1

/-- Where a sweep stands: before the next scope, in the listing of one, in a put, or at its end
with the count of its puts. -/
inductive SweepPc where
  | targets (todo : List String) (migrated : ℕ)
  | scope (name : String) (paths rest : List String) (migrated : ℕ)
  | putting (name : String) (pc : Pc) (paths rest : List String) (migrated : ℕ)
  | done (migrated : ℕ)

structure State where
  stores : String → Store
  sweep : Option SweepPc

def setStore (stores : String → Store) (name : String) (s : Store) : String → Store :=
  fun n => if n = name then s else stores n

/-- One path of a listing: staging notes are passed over, and so is what cannot be read.
SOURCE: lifecycle.rs:204-224 -/
def visit (cx : Codec) (lower : String → String) (s : Store) (ch : Choice) (path : String) :
    Option Pc :=
  if isQueuePath path then none
  else
    match s.get cx path with
    | .error _ => none
    | .ok c =>
      (rewriteIfDeprecated lower (ch.clock 0) c).map fun c =>
        (Call.put c).begin cx sweepHandle fun i => ch.clock (i + 1)

/-- The next storage step of a sweep. SOURCE: lifecycle.rs:110-123, 190-237 -/
@[simp] def sweepStep (cx : Codec) (lower : String → String) (stores : String → Store) (ch : Choice) :
    SweepPc → (String → Store) × SweepPc
  | .targets [] migrated => (stores, .done migrated)
  | .targets (name :: rest) migrated =>
    -- the library belongs to the ingest worker
    if name = libraryScope then (stores, .targets rest migrated)
    else (stores, .scope name ((stores name).list.map ConceptEntry.path) rest migrated)
  | .scope _ [] rest migrated => (stores, .targets rest migrated)
  | .scope name (path :: paths) rest migrated =>
    match visit cx lower (stores name) ch path with
    | none => (stores, .scope name paths rest migrated)
    | some pc => (stores, .putting name pc paths rest migrated)
  | .putting name (.finished (.ok ())) paths rest migrated =>
    (stores, .scope name paths rest (migrated + 1))
  | .putting name (.finished (.error _)) paths rest migrated =>
    (stores, .scope name paths rest migrated)
  | .putting name pc paths rest migrated =>
    let r := taskStep cx (stores name) ch pc
    (setStore stores name r.1, .putting name r.2 paths rest migrated)
  | .done migrated => (stores, .done migrated)

/-- The storage operation of the next step fails: a listing that fails skips its scope, a read or
a put its concept. SOURCE: lifecycle.rs:195-202, 213-220, 230-233 -/
def sweepFail : SweepPc → Option SweepPc
  | .targets (_ :: rest) migrated => some (.targets rest migrated)
  | .scope name (_ :: paths) rest migrated => some (.scope name paths rest migrated)
  | .putting name _ paths rest migrated => some (.scope name paths rest migrated)
  | _ => none

/-! ## The system -/

inductive Action where
  | boot (users : Option (List (String × Bool)))
  | step (ch : Choice)
  | fail
  | serve (stores : String → Store)

/-- The processes of a boot, the sweep of the one before among them, are gone; a boot that cannot
list the users sweeps nothing. -/
def step (cx : Codec) (lower : String → String) (s : State) : Action → Option State
  | .boot users =>
    some { stores := fun name => Store.restart (s.stores name)
           sweep := users.map fun us => .targets (sweepTargets us) 0 }
  | .step ch => do
    let pc ← s.sweep
    let r := sweepStep cx lower s.stores ch pc
    return { stores := r.1, sweep := some r.2 }
  | .fail => do
    let pc ← s.sweep
    let pc ← sweepFail pc
    return { s with sweep := some pc }
  | .serve stores =>
    match s.sweep with
    | none | some (.done _) => some { stores, sweep := none }
    | _ => none

end Mycelium.Model.LifecycleSweep
