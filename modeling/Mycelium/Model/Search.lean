import Mathlib.Algebra.Field.Defs
import Mathlib.Data.List.Sort
import Mathlib.Order.Defs.LinearOrder
import Mycelium.Lib.Dict
import Mycelium.Model.Concepts

/-!
# Lexical search and its in-memory reference index

Tokenisation, the BM25 scorer and the in-memory index that serves as the oracle of the
encrypted one. Scores are taken in exact arithmetic: an ordered field with a function `ln`
for the natural logarithm. `lower` stands for `str::to_lowercase`. The fields of a query
that the lexical engines ignore are left out. The 32-bit counters of the code wrap at
`u32`; sums over the corpus are not bounded.

SOURCE: crates/mycelium-core/src/search.rs
-/

set_option autoImplicit false

namespace Mycelium.Model.Search

open Mycelium.Model.Text Mycelium.Model.Concepts

/-! ## Queries and texts -/

inductive StatusFilter where
  | activeOnly
  | all
  deriving DecidableEq, Repr

/-- SOURCE: search.rs:18 -/
def nonActiveStatuses : List String := ["superseded", "retired"]

/-- SOURCE: search.rs:22-27 -/
def isActiveStatus : Option String → Bool
  | none => true
  | some s => s ∉ nonActiveStatuses

structure SearchQuery where
  terms : List String
  statusFilter : StatusFilter := .activeOnly

structure SearchResult (K : Type) where
  conceptPath : String
  title : String
  snippet : String
  score : K

/-- Lowercase, split on non-alphanumeric, minimum length 2. SOURCE: search.rs:88-94 -/
def tokenize (lower : String → String) (text : String) : List String :=
  ((splitBy (fun c => !isAsciiAlphanumeric c) (lower text).toList).filter
    fun t => 2 ≤ t.length).map String.ofList

def titleOf (c : Concept) : String := c.frontmatter.title.getD c.sourcePath

/-- The text indexed for a concept; the body is cut at the first `# History` line.
SOURCE: search.rs:103-133 -/
def searchableText (c : Concept) : String :=
  let body := (splitInclusive c.body.toList).takeWhile fun line =>
    trimEnd line ≠ "# History".toList
  titleOf c ++
    (match c.frontmatter.description with
      | some d => " " ++ d
      | none => "") ++
    c.frontmatter.tags.foldl (fun text tag => text ++ " " ++ tag) "" ++
    " " ++ String.ofList body.flatten

def snippetOf (body : String) : String := String.ofList (trim (body.toList.take 200))

def u32 : ℕ := 2 ^ 32

/-! ## BM25 -/

section Scoring

variable {K : Type} [Field K] [DecidableEq K]

/-- The mean document length, zero for an empty corpus. -/
def avgdl (totalLen nDocs : ℕ) : K := if nDocs = 0 then 0 else (totalLen : K) / (nDocs : K)

/-- BM25 contribution of one term and document, with `k1 = 1.2` and `b = 0.75`.
SOURCE: search.rs:278-301 -/
def bm25Score (ln : K → K) (nDocs df tf docLen : ℕ) (avg : K) : K :=
  let k1 : K := 6 / 5
  let b : K := 3 / 4
  if df = 0 then 0
  else
    let idf := ln (((nDocs : K) - df + 1 / 2) / (df + 1 / 2) + 1)
    let lengthRatio := if avg = 0 then 1 else (docLen : K) / avg
    let tfTerm := (tf : K) * (k1 + 1) / (tf + k1 * (1 - b + b * lengthRatio))
    idf * tfTerm

end Scoring

/-- Best score first, ties by path. SOURCE: search.rs:424-429 -/
def ranksBefore {K : Type} [LinearOrder K] (a b : SearchResult K) : Prop :=
  b.score < a.score ∨ (a.score = b.score ∧ a.conceptPath ≤ b.conceptPath)

instance {K : Type} [LinearOrder K] : DecidableRel (ranksBefore (K := K)) :=
  fun a b => inferInstanceAs
    (Decidable (b.score < a.score ∨ (a.score = b.score ∧ a.conceptPath ≤ b.conceptPath)))

def sortResults {K : Type} [LinearOrder K] (l : List (SearchResult K)) : List (SearchResult K) :=
  l.insertionSort ranksBefore

/-! ## The in-memory index -/

/-- SOURCE: search.rs:305-316 -/
structure DocMeta where
  title : String
  body : String
  status : Option String
  length : ℕ
  deriving DecidableEq, Repr, Inhabited

/-- Term to path to term frequency, and path to metadata. SOURCE: search.rs:323-328 -/
structure InMemoryIndex where
  postings : Dict String (Dict String ℕ)
  docs : Dict String DocMeta

def InMemoryIndex.new : InMemoryIndex := ⟨∅, ∅⟩

/-- One occurrence of a token in the document at a path. -/
def countToken (path : String) (postings : Dict String (Dict String ℕ)) (token : String) :
    Dict String (Dict String ℕ) :=
  postings.upsert token ∅ fun docs => docs.upsert path 0 fun n => (n + 1) % u32

/-- A re-add replaces the postings of the path. SOURCE: search.rs:339-379 -/
def InMemoryIndex.add (lower : String → String) (idx : InMemoryIndex) (c : Concept) :
    InMemoryIndex :=
  let tokens := tokenize lower (searchableText c)
  let stripped := idx.postings.mapValues fun docs => docs.erase c.sourcePath
  let kept := stripped.retain fun docs => docs.size ≠ 0
  { postings := tokens.foldl (countToken c.sourcePath) kept
    docs := idx.docs.insert c.sourcePath
      { title := titleOf c, body := c.body, status := c.frontmatter.status
        length := tokens.length % u32 } }

/-- The statistics of the index that scoring reads. -/
def InMemoryIndex.nDocs (idx : InMemoryIndex) : ℕ := idx.docs.size

def InMemoryIndex.totalLen (idx : InMemoryIndex) : ℕ :=
  (idx.docs.entries.map fun e => e.2.length).sum

def InMemoryIndex.df (idx : InMemoryIndex) (token : String) : ℕ :=
  match idx.postings.get? token with
  | some docs => docs.size
  | none => 0

def InMemoryIndex.tf (idx : InMemoryIndex) (token path : String) : ℕ :=
  match idx.postings.get? token with
  | some docs => (docs.get? path).getD 0
  | none => 0

/-- `self.docs[path]`; every path of a posting list has a document. -/
def InMemoryIndex.doc (idx : InMemoryIndex) (path : String) : DocMeta :=
  (idx.docs.get? path).getD default

/-- The distinct query terms, lowercased, in the order they first appear. -/
def distinctTerms (lower : String → String) (terms : List String) : List String :=
  (terms.map lower).eraseDups

section

variable {K : Type} [Field K] [LinearOrder K]

/-- The contributions of one term: the documents of its posting list that the lifecycle
filter lets through. SOURCE: search.rs:400-422 -/
def InMemoryIndex.scoreTerm (ln : K → K) (idx : InMemoryIndex) (filter : StatusFilter)
    (scores : Dict String K) (token : String) : Dict String K :=
  match idx.postings.get? token with
  | none => scores
  | some docs =>
    docs.entries.foldl (fun scores e =>
      if filter = .activeOnly ∧ isActiveStatus (idx.doc e.1).status = false then scores
      else
        scores.upsert e.1 0 fun score => score +
          bm25Score ln idx.nDocs docs.size e.2 (idx.doc e.1).length
            (avgdl idx.totalLen idx.nDocs)) scores

/-- SOURCE: search.rs:381-450 -/
def InMemoryIndex.search (lower : String → String) (ln : K → K) (idx : InMemoryIndex)
    (q : SearchQuery) : List (SearchResult K) :=
  let scores :=
    (distinctTerms lower q.terms).foldl (idx.scoreTerm ln q.statusFilter) (∅ : Dict String K)
  sortResults (scores.entries.map fun e =>
    { conceptPath := e.1, title := (idx.doc e.1).title
      snippet := snippetOf (idx.doc e.1).body, score := e.2 })

/-- The contributions of one term with the indexing of the code: `none` where `docs[path]`
finds no document. SOURCE: search.rs:400-422 -/
def InMemoryIndex.scoreTermIndexed (ln : K → K) (idx : InMemoryIndex) (filter : StatusFilter)
    (scores : Dict String K) (token : String) : Option (Dict String K) :=
  match idx.postings.get? token with
  | none => some scores
  | some docs =>
    docs.entries.foldlM (fun scores e => do
      let doc ← idx.docs.get? e.1
      if filter = .activeOnly ∧ isActiveStatus doc.status = false then pure scores
      else
        pure (scores.upsert e.1 0 fun score => score +
          bm25Score ln idx.nDocs docs.size e.2 doc.length
            (avgdl idx.totalLen idx.nDocs))) scores

/-- The search with the indexing of the code: `none` is its panic. SOURCE: search.rs:381-450 -/
def InMemoryIndex.searchIndexed (lower : String → String) (ln : K → K) (idx : InMemoryIndex)
    (q : SearchQuery) : Option (List (SearchResult K)) := do
  let scores ← (distinctTerms lower q.terms).foldlM
    (idx.scoreTermIndexed ln q.statusFilter) (∅ : Dict String K)
  let results ← scores.entries.mapM fun e => do
    let doc ← idx.docs.get? e.1
    pure { conceptPath := e.1, title := doc.title
           snippet := snippetOf doc.body, score := e.2 }
  return sortResults results

end

end Mycelium.Model.Search
