import Mathlib.Data.List.Dedup
import Mathlib.Data.List.Sort
import Mathlib.Data.String.Basic
import Mycelium.Model.RevisionTable

/-!
# The consolidation signal of a dream pass

A concept with many `update` revisions in a row is reported for a rewrite. The count is read
from the newest stored rows of its chain.

SOURCE: crates/mycelium-store/src/revisions.rs, crates/mycelium-librarian/src/dream.rs
-/

set_option autoImplicit false

namespace Mycelium.Model.Consolidation

open Mycelium.Model.Revisions (RevisionOp)
open Mycelium.Model.RevisionTable

/-- SOURCE: revisions.rs:250-255, 287-289 -/
def clampConsolidationPatches (v : ℕ) : ℕ := max 2 (min v 100)

/-- `SELECT op … ORDER BY revision_no DESC LIMIT ?`. SOURCE: revisions.rs:947-958 -/
def newestOps (s : State) (scope pathToken : String) (limit : ℕ) : List RevisionOp :=
  (((chain s.rows scope pathToken).insertionSort fun a b =>
    b.rev.revisionNo ≤ a.rev.revisionNo).take limit).map fun r => r.rev.op

/-- The updates at the front of the newest rows. SOURCE: revisions.rs:934-967 -/
def consecutiveUpdateCount (s : State) (patches : ℕ) (scope pathToken : String) : ℕ :=
  ((newestOps s scope pathToken (clampConsolidationPatches patches + 1)).takeWhile
    (· = .update)).length

/-- SOURCE: dream.rs:645-659 -/
def disorganized (patches : ℕ) (counts : List (String × ℕ)) : List (String × ℕ) :=
  ((counts.filter fun c => clampConsolidationPatches patches < c.2).dedup).insertionSort
    fun a b => a.1 < b.1 ∨ (a.1 = b.1 ∧ a.2 ≤ b.2)

/-- The concepts a pass reports, of those at the paths. SOURCE: dream.rs:209-219 -/
def cluttered (token : String → String → String) (s : State) (patches : ℕ) (scope : String)
    (paths : List String) : List (String × ℕ) :=
  disorganized patches (paths.map fun path =>
    (path, consecutiveUpdateCount s patches scope (token scope path)))

end Mycelium.Model.Consolidation
