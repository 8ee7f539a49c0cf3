import Mycelium.Lib.Dict
import Mycelium.Model.ConceptStore

/-!
# The query cache

A query takes the fingerprint of the caller's bundle, looks an answer up under it and the
question, and on a miss asks hot memory and then the agent; what they answer is stored under the
fingerprint taken first. The steps of the queries interleave with those of puts and deletes: of a
put the queries can see its file and then its registry row, of a delete the row that goes and
then the file.

SHA-256 is taken to be free of collisions, so a digest stands for the text it was made from. The
contents `seen` by a run are a ghost, and so is `texts`: the text a concept had when the registry
row with a time stamp was written.

SOURCE: crates/mycelium-librarian/src/query_cache.rs
-/

set_option autoImplicit false

namespace Mycelium.Model.QueryCache

open Mycelium.Model.Text Mycelium.Model.Concepts Mycelium.Model.ConceptStore

def maxEntries : ℕ := 200

def defaultTtlMs : ℕ := 24 * 3600000

/-! ## Keys -/

/-- The id of a scope: `user:` and a UUID or `global:` and a namespace, without a slash. -/
structure ScopeId where
  id : String
  plain : '/' ∉ id.toList
  deriving DecidableEq

def skillsScope : ScopeId := ⟨"global:skills", by decide⟩

def libraryScope : ScopeId := ⟨"global:library", by decide⟩

/-- What the digest of a listing is made from. SOURCE: query_cache.rs:52-61 -/
def bundleFingerprint (scope : ScopeId) (entries : List ConceptEntry) : String :=
  entries.foldl (fun text e => text ++ e.path ++ e.updatedAt) scope.id

/-- SOURCE: query_cache.rs:63-69 -/
structure Key where
  fingerprint : String
  question : String
  deriving DecidableEq

/-- `lower` stands for `str::to_lowercase`. SOURCE: query_cache.rs:71-73 -/
def normalize (lower : String → String) (question : String) : String :=
  String.ofList ((lower (String.ofList (trim question.toList))).toList.map fun c =>
    if c = '\n' ∨ c = '\t' then ' ' else c)

def cacheKey (lower : String → String) (fingerprint question : String) : Key where
  fingerprint := fingerprint
  question := normalize lower question

/-! ## Entries -/

abbrev Content := String → Option String

/-- A cached answer; `owner` and the contents its run has seen are ghosts. -/
structure Entry where
  expiresAt : ℕ
  answer : String
  owner : ScopeId
  seen : List (ScopeId × Content)

abbrev Cache := Dict Key Entry

/-- An arbitrary entry goes. -/
def dropOne (cache : Cache) (n : ℕ) : Cache :=
  match cache.keys[n % cache.keys.length]? with
  | some k => cache.erase k
  | none => cache

/-- The eviction loop, `order` telling which entry comes first in the map.
SOURCE: query_cache.rs:170-178 -/
def trimCache (order : ℕ → ℕ) : ℕ → Cache → Cache
  | 0, cache => cache
  | fuel + 1, cache =>
    if maxEntries < cache.size then trimCache order fuel (dropOne cache (order fuel)) else cache

/-! ## Queries and writes -/

inductive QuerySource where
  | cache
  | hot
  | deep
  deriving DecidableEq, Repr

/-- SOURCE: query_cache.rs:32-37 -/
structure CachedQueryResult where
  answer : String
  steps : ℕ := 0
  source : QuerySource
  deriving DecidableEq, Repr

/-- Where a query stands. `alone` tells `cached_answer` from `run_query_cached`; a deep run
without a key caches nothing. -/
inductive Query where
  | idle
  | begun (owner : ScopeId) (question : String) (alone : Bool)
  | looking (owner : ScopeId) (key : Key) (alone : Bool)
  | hot (owner : ScopeId) (key : Key) (seen : List (ScopeId × Content))
  | deep (owner : ScopeId) (key : Option Key) (seen : List (ScopeId × Content))
  | finished (result : Option CachedQueryResult)

def Query.owner : Query → Option ScopeId
  | .begun owner .. | .looking owner .. | .hot owner .. | .deep owner .. => some owner
  | _ => none

def Query.seen : Query → List (ScopeId × Content)
  | .hot _ _ seen | .deep _ _ seen => seen
  | _ => []

/-- The scopes a run may read: hot memory reads the caller's, the agent the global ones too. -/
def Query.reads : Query → List ScopeId
  | .hot owner .. => [owner]
  | .deep owner .. => [owner, skillsScope, libraryScope]
  | _ => []

def Query.see (scope : ScopeId) (content : Content) : Query → Query
  | .hot owner key seen => .hot owner key ((scope, content) :: seen)
  | .deep owner key seen => .deep owner key ((scope, content) :: seen)
  | q => q

/-- Where a put or a delete stands. -/
inductive Write where
  | idle
  | registering (scope : ScopeId) (c : Concept)
  | removing (scope : ScopeId) (path : String)

/-- The path a write is about, while it is under way. -/
def Write.target : Write → Option (ScopeId × String)
  | .idle => none
  | .registering scope c => some (scope, c.sourcePath)
  | .removing scope path => some (scope, path)

structure State where
  now : ℕ
  scopes : ScopeId → Store
  texts : ScopeId → String → String → Option String
  cache : Cache
  queries : ℕ → Query
  writes : ℕ → Write

def State.init : State where
  now := 0
  scopes := fun scope => Store.empty scope.id
  texts := fun _ _ _ => none
  cache := ∅
  queries := fun _ => .idle
  writes := fun _ => .idle

inductive Action where
  | tick (d : ℕ)
  | ask (i : ℕ) (owner : ScopeId) (question : String) (alone : Bool)
  | fingerprint (i : ℕ) (fails : Bool)
  | lookup (i : ℕ)
  | read (i : ℕ) (scope : ScopeId)
  | answer (i : ℕ) (answer : Option String) (order : ℕ → ℕ)
  | abandon (i : ℕ)
  | put (i : ℕ) (scope : ScopeId) (c : Concept) (markdown : String)
  | register (i : ℕ) (now : String)
  | delete (i : ℕ) (scope : ScopeId) (path : String)
  | remove (i : ℕ)

def State.setQuery (s : State) (i : ℕ) (q : Query) : State :=
  { s with queries := fun j => if j = i then q else s.queries j }

def State.setWrite (s : State) (i : ℕ) (w : Write) : State :=
  { s with writes := fun j => if j = i then w else s.writes j }

def State.setScope (s : State) (scope : ScopeId) (store : Store) : State :=
  { s with scopes := fun k => if k = scope then store else s.scopes k }

/-- A live entry answers, an expired one is evicted. SOURCE: query_cache.rs:78-91 -/
def lookupExact (s : State) (key : Key) : State × Option CachedQueryResult :=
  match s.cache.get? key with
  | none => (s, none)
  | some e =>
    if s.now < e.expiresAt then (s, some { answer := e.answer, source := .cache })
    else ({ s with cache := s.cache.erase key }, none)

/-- The entry that an answer becomes. -/
def entryOf (s : State) (owner : ScopeId) (answer : String) (seen : List (ScopeId × Content)) :
    Entry where
  expiresAt := s.now + defaultTtlMs
  answer := answer
  owner := owner
  seen := seen

/-- The text of the concept is noted for the stamp of its row, the first time. -/
def State.note (s : State) (scope : ScopeId) (path stamp : String) : State :=
  { s with texts := fun k q u =>
      if k = scope ∧ q = path ∧ u = stamp then (s.texts k q u).or ((s.scopes scope).files path)
      else s.texts k q u }

/-- What hot memory or the agent has answered, `none` when hot memory does not know and when the
agent's run fails. The eviction loop runs on the insertion of a deep answer only.
SOURCE: query_cache.rs:134-184 -/
def answerStep (s : State) (answer : Option String) (order : ℕ → ℕ) : Query → Option (State × Query)
  | .hot owner key seen =>
    match answer with
    | some text =>
      some ({ s with cache := s.cache.insert key (entryOf s owner text seen) },
        .finished (some { answer := text, source := .hot }))
    | none => some (s, .deep owner (some key) [])
  | .deep owner (some key) seen =>
    match answer with
    | some text =>
      let cache := s.cache.insert key (entryOf s owner text seen)
      some ({ s with cache := trimCache order cache.size cache },
        .finished (some { answer := text, source := .deep }))
    | none => some (s, .finished none)
  | .deep _ none _ => some (s, .finished (answer.map fun text => { answer := text, source := .deep }))
  | _ => none

/-- One step of the process. SOURCE: query_cache.rs:102-184, concept_store.rs:373-396 (a put's
file and row), 652-664 (a delete's) -/
def step (lower : String → String) (s : State) : Action → Option State
  | .tick d => some { s with now := s.now + d }
  | .ask i owner question alone =>
    match s.queries i with
    | .idle | .finished _ => some (s.setQuery i (.begun owner question alone))
    | _ => none
  | .fingerprint i fails =>
    match s.queries i with
    | .begun owner question alone =>
      if fails then
        some (s.setQuery i (if alone then .finished none else .deep owner none []))
      else
        let key := cacheKey lower (bundleFingerprint owner (s.scopes owner).list) question
        some (s.setQuery i (.looking owner key alone))
    | _ => none
  | .lookup i =>
    match s.queries i with
    | .looking owner key alone =>
      match lookupExact s key with
      | (s', some hit) => some (s'.setQuery i (.finished (some hit)))
      | (s', none) => some (s'.setQuery i (if alone then .finished none else .hot owner key []))
    | _ => none
  | .read i scope =>
    if scope ∈ (s.queries i).reads then
      some (s.setQuery i ((s.queries i).see scope (s.scopes scope).files))
    else none
  | .answer i answer order =>
    (answerStep s answer order (s.queries i)).map fun r => r.1.setQuery i r.2
  | .abandon i => some (s.setQuery i .idle)
  | .put i scope c markdown =>
    match s.writes i, (s.scopes scope).write c.sourcePath markdown with
    | .idle, .ok store => some ((s.setScope scope store).setWrite i (.registering scope c))
    | _, _ => none
  | .register i now =>
    match s.writes i with
    | .registering scope c =>
      let s' := s.note scope c.sourcePath now
      some ((s'.setScope scope ((s.scopes scope).register c now)).setWrite i .idle)
    | _ => none
  | .delete i scope path =>
    match s.writes i, (s.scopes scope).files path with
    | .idle, some _ =>
      some ((s.setScope scope ((s.scopes scope).unregister path)).setWrite i (.removing scope path))
    | _, _ => none
  | .remove i =>
    match s.writes i with
    | .removing scope path =>
      some ((s.setScope scope ((s.scopes scope).deleteFile path)).setWrite i .idle)
    | _ => none

end Mycelium.Model.QueryCache
