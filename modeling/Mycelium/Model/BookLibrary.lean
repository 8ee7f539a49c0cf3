import Mycelium.Lib.SqlLike
import Mycelium.Model.Catalog
import Mycelium.Model.StoreTasks

/-!
# The shared library

Ingesting and deleting books, one storage step at a time. The full text of a book is a raw
file of the library's scope, its catalog is a batch of concepts of the same scope: both are
files of one flat repository. `Point` is where a call stands; the puts and deletes of the
concept store that it makes run inside it (`Mycelium.Model.StoreTasks`).

A book is known by its slug, what `slugify` makes of an upload's field when it is not empty.

SOURCE: crates/mycelium-librarian/src/ingest.rs, crates/mycelium-web/src/api.rs
-/

set_option autoImplicit false

namespace Mycelium.Model.BookLibrary

open Mycelium.Model.Text Mycelium.Model.Concepts Mycelium.Model.Outline
open Mycelium.Model.ConceptStore Mycelium.Model.StoreTasks Mycelium.Model.Catalog

/-! ## Texts -/

inductive IngestError where
  | store (e : StoreError)
  | repo (e : StoreError)
  | emptyBook
  | noChapters
  deriving DecidableEq, Repr

/-- SOURCE: ingest.rs:22-25 -/
def stackPathFor (slug : String) : String := "/library/" ++ slug ++ ".md"

/-- SOURCE: ingest.rs:54-67 -/
def readStackText (s : Store) (slug : String) : Except IngestError String :=
  match s.read (stackPathFor slug) with
  | .error e => .error (.repo e)
  | .ok none => .error (.repo (.notFound (stackPathFor slug)))
  | .ok (some text) => .ok text

/-! ## Listing by prefix -/

/-- The wildcards of a prefix are escaped and one is put after it.
SOURCE: concept_store.rs:734-747 -/
def likeEscape (start : String) : String :=
  String.ofList (start.toList.flatMap (fun c =>
    if c = '%' ∨ c = '_' ∨ c = '\\' then ['\\', c] else [c]) ++ ['%'])

/-- `LIKE … ESCAPE '\'` as SQLite compares by default: ASCII letters in either case.
SOURCE: concept_store.rs:703-724 -/
def listPrefix (s : Store) (start : String) : List ConceptEntry :=
  s.list.filter fun e =>
    SqlLike.like Char.toLower '\\' (likeEscape start).toList e.path.toList

/-! ## Calls -/

/-- The slugs an upload is admitted with. SOURCE: api.rs:5193-5196 -/
def Admitted (tables : CharTables) (slug : String) : Prop :=
  slug ≠ "" ∧ ∃ field, slug.toList = slugify tables field

abbrev Slug (tables : CharTables) : Type := { slug : String // Admitted tables slug }

/-- What a job ingests. The catalog is built for the slug. SOURCE: worker.rs:273-281 -/
structure Upload (tables : CharTables) where
  slug : Slug tables
  text : String
  catalog : BookCatalog
  catalog_slug : catalog.slug = slug.val

def Upload.outline {tables : CharTables} (u : Upload tables) : List ChapterOutline :=
  parseOutline tables u.text.toList

/-- The catalog of an upload. -/
def Upload.concepts {tables : CharTables} (u : Upload tables) : List Concept :=
  catalogConcepts tables u.catalog u.outline

inductive LibraryCall (tables : CharTables) where
  | ingestBook (u : Upload tables)
  | deleteBook (slug : Slug tables)

/-- How a call returned. -/
inductive Outcome where
  | ingested (r : Except IngestError (List String))
  | deleted

/-- Where a call stands. -/
inductive Point (tables : CharTables) where
  | writeText (u : Upload tables)
  | putCatalog (pc : Pc) (written : List String)
  | listBook (slug : String)
  | deleteEach (entries : List ConceptEntry) (slug : String)
  | deleteOne (pc : Pc) (entries : List ConceptEntry) (slug : String)
  | returned (o : Outcome)

def LibraryCall.begin {tables : CharTables} : LibraryCall tables → Point tables
  | .ingestBook u => .writeText u
  | .deleteBook slug => .listBook slug.val

/-! ## Steps -/

def ingestHandle : Handle where
  provenance := some "ingest"

/-- SOURCE: ingest.rs:92-117 -/
def writeCatalog (cx : Codec) {tables : CharTables} (u : Upload tables) (clock : ℕ → String) :
    Point tables :=
  if u.outline = [] then .returned (.ingested (.error .noChapters))
  else
    .putCatalog ((Call.putBatch u.concepts).begin cx ingestHandle clock)
      (u.concepts.map Concept.sourcePath)

/-- The next storage step of a call. SOURCE: ingest.rs:34-52 (text), 119-132 (ingest),
69-90 (delete) -/
def pointStep (cx : Codec) {tables : CharTables} (s : Store) (ch : Choice) :
    Point tables → Store × Point tables
  | .writeText u =>
    if trim u.text.toList = [] then (s, .returned (.ingested (.error .emptyBook)))
    else
      match s.write (stackPathFor u.slug.val) u.text with
      | .error e => (s, .returned (.ingested (.error (.repo e))))
      | .ok s' => (s', writeCatalog cx u ch.clock)
  | .putCatalog (.finished (.error e)) _ => (s, .returned (.ingested (.error (.store e))))
  | .putCatalog (.finished (.ok ())) written => (s, .returned (.ingested (.ok written)))
  | .putCatalog pc written =>
    let r := taskStep cx s ch pc
    (r.1, .putCatalog r.2 written)
  | .listBook slug => (s, .deleteEach (listPrefix s ("/" ++ slug ++ "/")) slug)
  | .deleteEach (e :: entries) slug =>
    (s, .deleteOne ((Call.delete e.path).begin cx {} ch.clock) entries slug)
  -- a delete that fails is passed over
  | .deleteOne (.finished _) entries slug => (s, .deleteEach entries slug)
  | .deleteOne pc entries slug =>
    let r := taskStep cx s ch pc
    (r.1, .deleteOne r.2 entries slug)
  | .deleteEach [] slug => (s.deleteFile (stackPathFor slug), .returned .deleted)
  | .returned o => (s, .returned o)

/-! ## Sequences of calls -/

structure State (tables : CharTables) where
  store : Store
  point : Point tables

def State.init (tables : CharTables) (scopeId : String) : State tables where
  store := Store.empty scopeId
  point := .returned .deleted

inductive Action (tables : CharTables) where
  | call (c : LibraryCall tables)
  | step (ch : Choice)

def Point.isReturned {tables : CharTables} : Point tables → Bool
  | .returned _ => true
  | _ => false

/-- A call starts when the one before it has returned. -/
def step (cx : Codec) {tables : CharTables} (s : State tables) : Action tables →
    Option (State tables)
  | .call c => if s.point.isReturned then some { s with point := c.begin } else none
  | .step ch =>
    let r := pointStep cx s.store ch s.point
    some { store := r.1, point := r.2 }

end Mycelium.Model.BookLibrary
