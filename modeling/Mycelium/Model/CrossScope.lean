import Mycelium.Model.ChatRunner
import Mycelium.Model.SearchIndex
import Mycelium.Model.Vectors

/-!
# Search across the scopes

The fusion of two ranked pools and the composer over the private bundle, the skills shelf and
the library. Scores are taken in exact arithmetic; the cosine of two vectors is a function of
their bits (`Composer.cosine`), and the embedding of a question is what the backend answers.

A shelf is what a request finds of one concept store: its index, the decoded vector rows of the
process and the files of the scope. A statement that fails contributes no hits.

SOURCE: crates/mycelium-core/src/search.rs, crates/mycelium-librarian/src/agent.rs,
crates/mycelium-store/src/vectors.rs
-/

set_option autoImplicit false

namespace Mycelium.Model.CrossScope

open Mycelium.Model.Text Mycelium.Model.Concepts Mycelium.Model.Search
open Mycelium.Model.SearchIndex Mycelium.Model.Vectors
open Mycelium.Model.ChatRunner (BackendState)

/-! ## Fusion -/

section Fusion

variable {K : Type} [Field K] [LinearOrder K]

/-- SOURCE: search.rs:151-161 -/
structure RrfParams (K : Type) where
  rrfK : K
  wLex : K
  wVec : K

/-- Best score first, ties by path. SOURCE: search.rs:228-232 -/
def scoresBefore (a b : String × K) : Prop := b.2 < a.2 ∨ (a.2 = b.2 ∧ a.1 ≤ b.1)

instance : DecidableRel (scoresBefore (K := K)) :=
  fun a b => inferInstanceAs (Decidable (b.2 < a.2 ∨ (a.2 = b.2 ∧ a.1 ≤ b.1)))

/-- What each entry of a pool adds to its path. -/
def poolTerms (k w : K) (pool : List (String × K)) : List (String × K) :=
  pool.zipIdx.map fun (entry, rank) => (entry.1, w / (k + rank + 1))

/-- SOURCE: search.rs:209-234 -/
def rrfFuse (lexPool vecPool : List (String × K)) (params : RrfParams K) : List (String × K) :=
  let scores := ((∅ : Dict String K).addAll (poolTerms params.rrfK params.wLex lexPool)).addAll
    (poolTerms params.rrfK params.wVec vecPool)
  (scores.entries.map fun e => (e.1, e.2)).insertionSort scoresBefore

end Fusion

/-! ## Shelves -/

/-- What a request finds of one concept store. The primary keys of the tables hold. -/
structure Shelf where
  index : EncryptedIndex
  tables : SearchIndex.Tables
  searchOk : Bool
  cacheScope : Except VectorError (List CacheRow)
  pathToken : String → String
  files : Except VectorError (List String)
  get : String → Option Concept
  docs_key : ((tables.searchDocs.filter fun r => r.scope = index.scopeId).map
    DocRow.conceptPath).Nodup
  rows_key : ∀ rows, cacheScope = .ok rows → (rows.map CacheRow.pathToken).Nodup

/-- A vector of `f32`, by their bits. -/
abbrev Vector32 : Type := List (List UInt8)

/-- SOURCE: crates/mycelium-librarian/src/embeddings.rs:320-324 -/
structure EmbeddingsClient where
  model : String
  embedBatch : List String → Option (List Vector32)

/-- What does not depend on the request. -/
structure Composer (K : Type) where
  lower : String → String
  ln : K → K
  cosine : Vector32 → Vector32 → K
  rrfParams : RrfParams K
  embeddingState : BackendState

/-- SOURCE: search.rs:29-41 -/
inductive SearchMode where
  | auto
  | lexical
  | vectorOnly
  deriving DecidableEq, Repr

inductive Scope where
  | user
  | skills
  | library
  deriving DecidableEq, Repr

/-- SOURCE: agent.rs:97-122 -/
structure AgentScopes where
  skills : Option Shelf
  library : Option Shelf
  visibleSlugs : Option (List String)

/-- The slug of a book is the first segment of a path. SOURCE: agent.rs:124-141 -/
def libraryPathVisible (scopes : AgentScopes) (path : String) : Bool :=
  match scopes.visibleSlugs with
  | none => true
  | some visible =>
    let slug := (path.toList.dropWhile (· = '/')).takeWhile (· ≠ '/')
    String.ofList slug ∈ visible

/-- SOURCE: agent.rs:152-163 -/
inductive FuseSources where
  | lexicalOnly
  | hybrid (qvec : Vector32) (model : String)
  | vecOnly (qvec : Vector32) (model : String)
  deriving DecidableEq, Repr

/-- SOURCE: agent.rs:168 -/
def lexPoolSize : ℕ := 50

/-- SOURCE: agent.rs:170-196 -/
def questionQvec (q : SearchQuery) (embedding : Option EmbeddingsClient) :
    Option (Vector32 × String) := do
  let client ← embedding
  let questionText := String.intercalate " " q.terms
  if questionText = "" then none
  else
    let vecs ← client.embedBatch [questionText]
    let vec ← vecs.head?
    if vec = [] then none else some (vec, client.model)

/-! ## Pools -/

section Pools

variable {K : Type} [Field K] [LinearOrder K] (cx : Composer K)

def Shelf.search (cs : Shelf) (q : SearchQuery) : Option (List (SearchResult K)) :=
  if cs.searchOk then some (cs.index.search cx.lower cx.ln cs.tables q) else none

/-- The file of a token; the later one where two have it. SOURCE: vectors.rs:429-432 -/
def byToken (pathToken : String → String) (paths : List String) (token : String) :
    Option String :=
  (paths.filter fun path => pathToken path = token).getLast?

/-- SOURCE: vectors.rs:388-439 -/
def Shelf.topCosine (cs : Shelf) (qvec : Vector32) (model : String) (top : ℕ) :
    Except VectorError (List (String × K)) := do
  if top = 0 then return []
  let rows ← cs.cacheScope
  let scored := (((rows.filter fun r => r.model = model && r.dims = qvec.length).map fun r =>
    (r.pathToken, cx.cosine r.vecF32 qvec)).filter fun e => 0 < e.2).insertionSort scoresBefore
  if scored.isEmpty then return []
  let paths ← cs.files
  return (scored.filterMap fun (token, c) =>
    (byToken cs.pathToken paths token).map fun path => (path, c)).take top

/-- SOURCE: agent.rs:198-219 -/
def rankedLexPool (cs : Shelf) (q : SearchQuery) : List (SearchResult K) :=
  ((cs.search cx q).getD []).take lexPoolSize

/-- SOURCE: agent.rs:221-236 -/
def vecPool (cs : Shelf) (qvec : Vector32) (model : String) : List (String × K) :=
  match cs.topCosine cx qvec model lexPoolSize with
  | .ok pairs => pairs
  | .error _ => []

/-- Title and snippet of a concept, or its path where it cannot be read.
SOURCE: agent.rs:238-263 -/
def enrichHit (cs : Shelf) (path : String) : String × String :=
  match cs.get path with
  | some concept => (titleOf concept, snippetOf concept.body)
  | none => (path, "")

/-! ## The composer -/

/-- SOURCE: agent.rs:305-328 -/
def fuseSources (mode : SearchMode) (q : SearchQuery) (embedding : Option EmbeddingsClient) :
    Option FuseSources :=
  match mode with
  | .lexical => some .lexicalOnly
  | .vectorOnly => (questionQvec q embedding).map fun (qvec, model) => .vecOnly qvec model
  | .auto =>
    if embedding.isSome && (cx.embeddingState = .green || cx.embeddingState = .yellow) then
      match questionQvec q embedding with
      | some (qvec, model) => some (.hybrid qvec model)
      | none => some .lexicalOnly
    else some .lexicalOnly

/-- The hits of one scope. SOURCE: agent.rs:345-423 -/
def scopeHits (scopes : AgentScopes) (q : SearchQuery) (tag : Scope) (cs : Shelf) :
    FuseSources → List (SearchResult K)
  | .lexicalOnly => ((cs.search cx q).getD []).filter fun h =>
      !(tag = .library && !(libraryPathVisible scopes h.conceptPath))
  | .hybrid qvec model =>
    let lexHits := rankedLexPool cx cs q
    let vectorPool := vecPool cx cs qvec model
    if lexHits.isEmpty && vectorPool.isEmpty then []
    else
      (rrfFuse (lexHits.map fun h => (h.conceptPath, h.score)) vectorPool cx.rrfParams).map
        fun (path, score) =>
          match lexHits.find? fun h => h.conceptPath = path with
          | some h => ⟨path, h.title, h.snippet, score⟩
          -- the empty title marks a hit to enrich
          | none => ⟨path, "", "", score⟩
  | .vecOnly qvec model => (vecPool cx cs qvec model).map fun (path, cos) => ⟨path, "", "", cos⟩

/-- A scope and a hit in it. -/
abbrev ScopedHit (K : Type) : Type := Scope × SearchResult K

/-- SOURCE: agent.rs:433-438 -/
def hitsBefore (a b : ScopedHit K) : Prop := ranksBefore a.2 b.2

instance : DecidableRel (hitsBefore (K := K)) :=
  fun a b => inferInstanceAs (Decidable (ranksBefore a.2 b.2))

/-- The scopes in the order of the composer. SOURCE: agent.rs:333-337 -/
def sources (store : Option Shelf) (scopes : AgentScopes) : List (Scope × Option Shelf) :=
  [(.user, store), (.skills, scopes.skills), (.library, scopes.library)]

/-- All hits, before they are ranked. SOURCE: agent.rs:339-431 -/
def allHits (store : Option Shelf) (scopes : AgentScopes) (q : SearchQuery) (fuse : FuseSources) :
    List (ScopedHit K) :=
  let hits := (sources store scopes).flatMap fun (tag, cs) =>
    match cs with
    | some cs => (scopeHits cx scopes q tag cs fuse).map fun h => (tag, h)
    | none => []
  if fuse = .lexicalOnly then hits
  else hits.filter fun (tag, h) => tag ≠ .library || libraryPathVisible scopes h.conceptPath

/-- The titles of the hits that are kept. SOURCE: agent.rs:441-461 -/
def enrich (store : Option Shelf) (scopes : AgentScopes) (hit : ScopedHit K) : ScopedHit K :=
  if hit.2.title = "" then
    match (sources store scopes).find? fun s => s.1 = hit.1 with
    | some (_, some cs) =>
      let (title, snippet) := enrichHit cs hit.2.conceptPath
      (hit.1, { hit.2 with title, snippet })
    | _ => hit
  else hit

/-- SOURCE: agent.rs:265-463 -/
def crossScopeHits (store : Option Shelf) (scopes : AgentScopes) (mode : SearchMode)
    (q : SearchQuery) (cap : ℕ) (embedding : Option EmbeddingsClient) : List (ScopedHit K) :=
  match fuseSources cx mode q embedding with
  | none => []
  | some fuse =>
    let hits := ((allHits cx store scopes q fuse).insertionSort hitsBefore).take cap
    if fuse = .lexicalOnly then hits else hits.map (enrich store scopes)

end Pools

end Mycelium.Model.CrossScope
