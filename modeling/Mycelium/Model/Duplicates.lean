import Mathlib.Data.Finset.Card
import Mathlib.Data.Rat.Defs
import Mycelium.Model.CrossScope

/-!
# The duplicate candidates of a dream pass

Two signals: the cosine of two vector rows, and the similarity of two titles. A concept that
holds a fresh row belongs to the cosine branch; every other concept rides the title scan.

A similarity of titles is an exact quotient: the rounding of the source's numbers cannot move a
quotient of two sizes of token sets across the threshold. A map whose order nothing reads is a
list, and a set that is read in order is the sorted list of its members.

SOURCE: crates/mycelium-librarian/src/dream.rs
-/

set_option autoImplicit false

namespace Mycelium.Model.Duplicates

open Mycelium.Model.Concepts Mycelium.Model.Search Mycelium.Model.Vectors
open Mycelium.Model.CrossScope
open Mycelium.Model.ChatRunner (BackendState)

/-! ## Pairs -/

/-- The two loops `for i`, `for j in (i + 1)..`. -/
def pairs {α : Type} : List α → List (α × α)
  | [] => []
  | a :: l => l.map (fun b => (a, b)) ++ pairs l

/-- A set of pairs, in its order. -/
def pairSet (l : List (String × String)) : List (String × String) :=
  l.dedup.insertionSort fun a b => a.1 < b.1 ∨ (a.1 = b.1 ∧ a.2 ≤ b.2)

/-- SOURCE: dream.rs:441-448 -/
def canonicalPair (a b : String) : String × String := if a ≤ b then (a, b) else (b, a)

/-! ## Titles -/

/-- SOURCE: dream.rs:52 -/
def duplicateSimilarity : ℚ := 4 / 5

/-- SOURCE: dream.rs:473-488 -/
def jaccard (lower : String → String) (a b : String) : ℚ :=
  let ta := (tokenize lower (lower a)).toFinset
  let tb := (tokenize lower (lower b)).toFinset
  if ta = ∅ ∧ tb = ∅ then 1
  else
    let inter := (ta ∩ tb).card
    let union := (ta ∪ tb).card
    if union = 0 then 0 else (inter : ℚ) / union

/-- SOURCE: dream.rs:450-471 -/
def jaccardPairs (lower : String → String) (concepts : List Concept) : List (String × String) :=
  pairSet ((pairs concepts).filterMap fun (c, d) =>
    let a := c.frontmatter.title.getD ""
    let b := d.frontmatter.title.getD ""
    if a = "" ∨ b = "" then none
    else if duplicateSimilarity ≤ jaccard lower a b then
      some (canonicalPair c.sourcePath d.sourcePath)
    else none)

/-! ## Vector rows -/

/-- The rows of a scope; the primary key of the table holds. -/
structure VectorStore where
  keys : Keys
  scopeId : String
  rows : List RawVectorRow
  rows_key : ((rows.filter fun r => r.scopeId = scopeId).map RawVectorRow.pathToken).Nodup

def VectorStore.pathTokenOf (vs : VectorStore) (path : String) : String :=
  vs.keys.token vs.scopeId path

/-- Every row of the scope, or the first error. SOURCE: vectors.rs:317-330 -/
def VectorStore.loadRows (vs : VectorStore) : Except VectorError (List VectorRow) :=
  (fetchRows vs.scopeId vs.rows).mapM (decodeRow vs.keys)

/-- A fresh row of a concept that exists. -/
structure LiveRow where
  path : String
  model : String
  dims : ℕ
  vec : Vector32
  deriving DecidableEq, Repr

/-- SOURCE: dream.rs:353-372 -/
def liveRows (vs : VectorStore) (concepts : List Concept) (rows : List VectorRow) : List LiveRow :=
  (rows.filter fun r => !r.stale).filterMap fun r =>
    (byToken vs.pathTokenOf (concepts.map Concept.sourcePath) r.pathToken).map fun path =>
      { path := path, model := r.model, dims := r.dims, vec := r.vecF32 }

/-- Two live rows under one model. SOURCE: dream.rs:374-383 -/
def populated (live : List LiveRow) : Bool :=
  live.any fun r => 2 ≤ (live.filter fun q => q.model = r.model).length

/-- SOURCE: dream.rs:384-390 -/
def healthy (state : BackendState) : Bool := state = .green ∨ state = .yellow

/-- SOURCE: dream.rs:57 -/
def neighborsPerConcept : ℕ := 2

section Cosine

variable {K : Type} [LinearOrder K] (cosine : Vector32 → Vector32 → K) (threshold : K)

/-- Each row of a group draws its nearest neighbours. SOURCE: dream.rs:404-426 -/
def drawn (group : List LiveRow) : List (String × String) :=
  group.zipIdx.flatMap fun (r, i) =>
    ((((group.eraseIdx i).map fun q => (q.path, cosine r.vec q.vec)).insertionSort
      scoresBefore).take neighborsPerConcept).map fun e => canonicalPair r.path e.1

/-- The candidates of one model and dimensionality. SOURCE: dream.rs:397-437 -/
def groupCandidates (group : List LiveRow) : List (String × String) :=
  if group.length < 2 then []
  else
    (pairs group).filterMap fun (r, q) =>
      let pair := canonicalPair r.path q.path
      if pair ∈ drawn cosine group ∧ threshold ≤ cosine r.vec q.vec then some pair else none

/-- The candidates and the paths that the branch owns. SOURCE: dream.rs:335-439 -/
def cosineCandidates (state : BackendState) (concepts : List Concept)
    (vectors : Option VectorStore) : List (String × String) × List String :=
  match vectors with
  | none => ([], [])
  | some vs =>
    match vs.loadRows with
    | .error _ => ([], [])
    | .ok rows =>
      let live := liveRows vs concepts rows
      if !healthy state && !populated live then ([], [])
      else
        let groups := (live.map fun r => (r.model, r.dims)).dedup.map fun key =>
          live.filter fun r => (r.model, r.dims) = key
        (pairSet (groups.flatMap (groupCandidates cosine threshold)),
          live.map LiveRow.path)

/-- The reported pairs. SOURCE: dream.rs:288-313 -/
def duplicateCandidates (lower : String → String) (state : BackendState) (concepts : List Concept)
    (vectors : Option VectorStore) : List (String × String) :=
  let found := cosineCandidates cosine threshold state concepts vectors
  let scan := if found.2.isEmpty then concepts
    else concepts.filter fun c => c.sourcePath ∉ found.2
  pairSet (found.1 ++ jaccardPairs lower scan)

end Cosine

end Mycelium.Model.Duplicates
