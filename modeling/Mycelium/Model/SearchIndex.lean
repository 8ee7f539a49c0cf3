import Mycelium.Lib.Chunks
import Mycelium.Model.Search

/-!
# The encrypted search index

The inverted index of a scope in SQLite. Terms are stored as keyed tokens and documents
as sealed payloads. The tables hold the rows of every scope; a statement returns its rows
in table order. `IndexKeys` stands for the HMAC, the AEAD and the JSON of a payload, which
are not part of the repository.

The two maps a query builds are read with a default only, so they are functions here,
next to the list of the paths that have an entry.

SOURCE: crates/mycelium-store/src/search_index.rs
-/

set_option autoImplicit false

namespace Mycelium.Model.SearchIndex

open Mycelium.Model.Text Mycelium.Model.Concepts Mycelium.Model.Search Chunks

/-! ## Keys and tables -/

structure DocPayload where
  title : String
  snippet : String
  deriving DecidableEq, Repr

/-- The token of a term, sealing (with a nonce and associated data) and opening, and the
JSON of a payload. -/
structure IndexKeys where
  token : String → String
  toJson : DocPayload → String
  fromJson : String → Option DocPayload
  aeadSeal : ℕ → String → String → String
  aeadOpen : String → String → Option String

/-- The index of one scope. SOURCE: search_index.rs:33-37 -/
structure EncryptedIndex where
  scopeId : String
  keys : IndexKeys

structure TokenRow where
  scope : String
  token : String
  conceptPath : String
  tf : ℕ
  deriving DecidableEq, Repr

structure DocRow where
  scope : String
  conceptPath : String
  payload : String
  length : ℕ
  lifecycleStatus : Option String
  deriving DecidableEq, Repr

structure Tables where
  searchTokens : List TokenRow
  searchDocs : List DocRow

/-! ## Adding -/

/-- The occurrences of each distinct token; the counter is 32 bits wide. -/
def tokenCounts (tokens : List String) : List (String × ℕ) :=
  tokens.eraseDups.map fun t => (t, tokens.count t % u32)

def EncryptedIndex.tokenRows (ix : EncryptedIndex) (lower : String → String) (c : Concept) :
    List TokenRow :=
  (tokenCounts (tokenize lower (searchableText c))).map fun (term, tf) =>
    { scope := ix.scopeId, token := ix.keys.token term, conceptPath := c.sourcePath, tf }

def EncryptedIndex.docRow (ix : EncryptedIndex) (lower : String → String) (nonce : ℕ)
    (c : Concept) : DocRow where
  scope := ix.scopeId
  conceptPath := c.sourcePath
  payload := ix.keys.aeadSeal nonce
    (ix.keys.toJson { title := titleOf c, snippet := snippetOf c.body }) c.sourcePath
  length := (tokenize lower (searchableText c)).length
  lifecycleStatus := c.frontmatter.status

/-- The transaction that replaces the rows of a path. SOURCE: search_index.rs:279-357 -/
def EncryptedIndex.addAsync (ix : EncryptedIndex) (lower : String → String) (db : Tables)
    (c : Concept) (nonce : ℕ) : Tables where
  searchTokens :=
    db.searchTokens.filter (fun r => !(r.scope = ix.scopeId && r.conceptPath = c.sourcePath)) ++
      ix.tokenRows lower c
  searchDocs :=
    db.searchDocs.filter (fun r => !(r.scope = ix.scopeId && r.conceptPath = c.sourcePath)) ++
      [ix.docRow lower nonce c]

/-! ## Searching -/

/-- The rows of the token pass, chunk by chunk. SOURCE: search_index.rs:149-160 -/
def EncryptedIndex.tokenPass (ix : EncryptedIndex) (db : Tables) (tokens : List String) :
    List TokenRow :=
  (chunks 16 tokens).flatMap fun chunk =>
    db.searchTokens.filter fun r => r.scope = ix.scopeId && r.token ∈ chunk

/-- What the token pass accumulates. SOURCE: search_index.rs:142-168 -/
structure TokenStats where
  df : String → ℕ
  tf : String → String → ℕ
  paths : List String

def TokenStats.empty : TokenStats := ⟨fun _ => 0, fun _ _ => 0, []⟩

def TokenStats.addRow (st : TokenStats) (r : TokenRow) : TokenStats where
  df := fun t => if t = r.token then st.df t + 1 else st.df t
  tf := fun p t =>
    if p = r.conceptPath ∧ t = r.token then (st.tf p t + r.tf % u32) % u32 else st.tf p t
  paths := if r.conceptPath ∈ st.paths then st.paths else st.paths ++ [r.conceptPath]

/-- The distinct query terms in order, as tokens. SOURCE: search_index.rs:108-111 -/
def EncryptedIndex.queryTokens (ix : EncryptedIndex) (lower : String → String)
    (terms : List String) : List String :=
  ((terms.map lower).dedup.insertionSort fun a b => a ≤ b).map ix.keys.token

def EncryptedIndex.stats (ix : EncryptedIndex) (lower : String → String) (db : Tables)
    (terms : List String) : TokenStats :=
  (ix.tokenPass db (ix.queryTokens lower terms)).foldl TokenStats.addRow TokenStats.empty

/-- `COUNT(*)` and `SUM(length)` over the scope. SOURCE: search_index.rs:121-126 -/
def EncryptedIndex.nDocs (ix : EncryptedIndex) (db : Tables) : ℕ :=
  (db.searchDocs.filter fun r => r.scope = ix.scopeId).length

def EncryptedIndex.sumLen (ix : EncryptedIndex) (db : Tables) : ℕ :=
  ((db.searchDocs.filter fun r => r.scope = ix.scopeId).map DocRow.length).sum

/-- The lifecycle predicate of the document query. -/
def statusAdmits (filter : StatusFilter) (status : Option String) : Bool :=
  match filter with
  | .all => true
  | .activeOnly =>
    match status with
    | none => true
    | some s => s ∉ nonActiveStatuses

/-- The document rows loaded for the scored paths, chunk by chunk.
SOURCE: search_index.rs:181-214 -/
def EncryptedIndex.docPass (ix : EncryptedIndex) (db : Tables) (filter : StatusFilter)
    (paths : List String) : List DocRow :=
  (chunks 64 (paths.insertionSort fun a b => a ≤ b)).flatMap fun chunk =>
    db.searchDocs.filter fun r =>
      r.scope = ix.scopeId && r.conceptPath ∈ chunk && statusAdmits filter r.lifecycleStatus

section

variable {K : Type} [Field K] [LinearOrder K]

/-- The score of a document: the sum over the query's tokens. SOURCE: search_index.rs:236-250 -/
def EncryptedIndex.score (ln : K → K) (st : TokenStats) (nDocs : ℕ) (avg : K)
    (tokens : List String) (path : String) (docLen : ℕ) : K :=
  tokens.foldl (fun score token =>
    let df := st.df token
    if df = 0 then score
    else
      let tf := st.tf path token
      if tf = 0 then score
      else score + bm25Score ln (max nDocs df) df tf (docLen % u32) avg) 0

/-- SOURCE: search_index.rs:98-257 -/
def EncryptedIndex.search (ix : EncryptedIndex) (lower : String → String) (ln : K → K)
    (db : Tables) (q : SearchQuery) : List (SearchResult K) :=
  if q.terms = [] then []
  else
    let tokens := ix.queryTokens lower q.terms
    let st := ix.stats lower db q.terms
    let nDocs := ix.nDocs db
    let avg : K := avgdl (ix.sumLen db) nDocs
    sortResults ((ix.docPass db q.statusFilter st.paths).filterMap fun r => do
      -- a row that does not open or does not parse is skipped
      let plain ← ix.keys.aeadOpen r.payload r.conceptPath
      let payload ← ix.keys.fromJson plain
      return { conceptPath := r.conceptPath, title := payload.title, snippet := payload.snippet
               score := EncryptedIndex.score ln st nDocs avg tokens r.conceptPath r.length })

end

end Mycelium.Model.SearchIndex
