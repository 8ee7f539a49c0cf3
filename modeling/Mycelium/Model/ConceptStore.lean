import Mathlib.Data.List.Sort
import Mathlib.Data.List.Dedup
import Mathlib.Data.String.Basic
import Mycelium.Model.Concepts
import Mycelium.Model.Revisions

/-!
# The concept store of a scope

The facade over the encrypted files, the `scope_files` registry, the search index, the
revision log and the vector rows of one scope. This module has the stored data and the
single storage steps; the operations that string them together are in
`Mycelium.Model.StoreTasks`.

The envelopes of the files are opened: `files` maps a canonical path to its plaintext. A
document of the search index is the concept it was added for.

SOURCE: crates/mycelium-store/src/concept_store.rs, file_repo.rs
-/

set_option autoImplicit false

namespace Mycelium.Model.ConceptStore

open Mycelium.Model.Text Mycelium.Model.Concepts Mycelium.Model.Revisions

/-! ## The stored data -/

/-- A row of the registry. SOURCE: concept_store.rs:43-48 -/
structure ConceptEntry where
  path : String
  title : String
  conceptType : String
  updatedAt : String
  deriving DecidableEq, Repr

inductive StoreError where
  | invalidPath (path : String)
  | parse (e : ConceptError)
  | revisions (e : RevisionsError)
  | notFound (path : String)
  | reserved (path : String)
  | queuePath (path : String)
  deriving DecidableEq, Repr

/-- What a scope stores. `history` is a ghost: every row ever recorded with the retention
in force at that moment, which no operation reads. The last two fields are in memory. -/
structure Store where
  scopeId : String
  files : String → Option String
  registry : List ConceptEntry
  index : String → Option Concept
  revisions : Log
  history : List (Revision × ℕ)
  vectorRows : List String
  vectorQueue : List (String × String)
  vectorCached : Bool

def Store.empty (scopeId : String) : Store where
  scopeId := scopeId
  files := fun _ => none
  registry := []
  index := fun _ => none
  revisions := []
  history := []
  vectorRows := []
  vectorQueue := []
  vectorCached := false

/-- The labels a `ConceptStore` is opened with: the provenance stamped on every put and
the explicit revision operation. SOURCE: concept_store.rs:92-99 -/
structure Handle where
  provenance : Option String := none
  revisionOp : Option RevisionOp := none

/-! ## Paths -/

/-- The mutation queue's reserved prefix. -/
def isQueuePath (path : String) : Bool := startsWith path "/mutation-queue/"

/-- The system-maintained basenames. -/
def isReserved (path : String) : Bool :=
  let name := basename path
  name = "index.md" || name = "log.md" || name = "info.md"

/-- SOURCE: file_repo.rs:76-84 -/
def validPath (path : String) : Bool := startsWith path "/"

/-! ## Storage steps -/

/-- SOURCE: file_repo.rs:130-178 -/
def Store.read (s : Store) (path : String) : Except StoreError (Option String) :=
  if validPath path then .ok (s.files path) else .error (.invalidPath path)

/-- SOURCE: concept_store.rs:551-566 -/
def Store.get (cx : Codec) (s : Store) (path : String) : Except StoreError Concept :=
  match s.read path with
  | .error e => .error e
  | .ok none => .error (.notFound path)
  | .ok (some markdown) => (Concept.parse cx path markdown).mapError .parse

/-- The file is renamed into place, so the write is one step. SOURCE: file_repo.rs:87-127 -/
def Store.write (s : Store) (path content : String) : Except StoreError Store :=
  if validPath path then
    .ok { s with files := fun q => if q = path then some content else s.files q }
  else .error (.invalidPath path)

/-- SOURCE: file_repo.rs:181-191 -/
def Store.deleteFile (s : Store) (path : String) : Store :=
  { s with files := fun q => if q = path then none else s.files q }

def Store.registered (s : Store) (path : String) : Bool := s.registry.any fun e => e.path = path

/-- The upsert into `scope_files`. SOURCE: concept_store.rs:381-396 -/
def Store.register (s : Store) (c : Concept) (now : String) : Store :=
  let entry : ConceptEntry :=
    { path := c.sourcePath, title := c.frontmatter.title.getD c.sourcePath,
      conceptType := c.frontmatter.conceptType, updatedAt := now }
  if s.registered c.sourcePath then
    { s with registry := s.registry.map fun e => if e.path = c.sourcePath then entry else e }
  else { s with registry := s.registry ++ [entry] }

def Store.unregister (s : Store) (path : String) : Store :=
  { s with registry := s.registry.filter fun e => e.path ≠ path }

def Store.addIndex (s : Store) (c : Concept) : Store :=
  { s with index := fun q => if q = c.sourcePath then some c else s.index q }

def Store.removeIndex (s : Store) (path : String) : Store :=
  { s with index := fun q => if q = path then none else s.index q }

/-- The record transaction of the log, kept in the ghost history as well. -/
def Store.record (s : Store) (d : Draft) (retention : ℕ) (now : String) : Store :=
  { s with
    revisions := recordOnce s.revisions d retention now
    history := (d.row s.revisions now, clampRetention retention) :: s.history }

/-- The capacity of the embedding queue, which all scopes of the process share. -/
def vectorQueueCapacity : ℕ := 512

/-- Duplicates are skipped and a full queue drops the new item. SOURCE: vectors.rs:682-689 -/
def Store.enqueueVector (s : Store) (path : String) : Store :=
  let item := (s.scopeId, path)
  if item ∈ s.vectorQueue ∨ vectorQueueCapacity ≤ s.vectorQueue.length then s
  else { s with vectorQueue := s.vectorQueue ++ [item] }

def Store.removeVector (s : Store) (path : String) : Store :=
  { s with vectorRows := s.vectorRows.filter (· ≠ path) }

def Store.invalidateVectors (s : Store) : Store := { s with vectorCached := false }

/-- The registry listing, by path. SOURCE: concept_store.rs:684-701 -/
def Store.list (s : Store) : List ConceptEntry :=
  s.registry.insertionSort fun a b => a.path ≤ b.path

/-! ## Directory indexes -/

/-- The directory an entry is grouped under. -/
def dirOf (e : ConceptEntry) : String := (dirname e.path).getD ""

/-- The directories that get an `index.md`, in order; the root always does. -/
def indexDirs (entries : List ConceptEntry) : List String :=
  (("" :: entries.map dirOf).dedup).insertionSort fun a b => a ≤ b

/-- The immediate child of `dir` that holds `other`, as a full path. -/
def childOf (dir other : String) : Option String :=
  let pre := dir ++ "/"
  match stripPrefix other pre with
  | some rest =>
    if other ≠ dir ∧ rest ≠ [] then some (pre ++ String.ofList (rest.takeWhile (· ≠ '/')))
    else none
  | none => none

/-- The line of a subdirectory: how many concepts are below it and of which types. -/
def subdirLine (entries : List ConceptEntry) (dir sub : String) : String :=
  let below := entries.filter fun e => childOf dir (dirOf e) = some sub
  let types :=
    ((below.map ConceptEntry.conceptType).filter (· ≠ "")).dedup.insertionSort fun a b => a ≤ b
  let typeList := if types = [] then "" else " (" ++ join ", " types ++ ")"
  "* [" ++ sub ++ "](" ++ sub ++ "/) — " ++ toString below.length ++ " concept(s)" ++ typeList

/-- The text of a directory's `index.md`. SOURCE: concept_store.rs:484-556 -/
def indexText (entries : List ConceptEntry) (dir : String) : String :=
  let name := if dir = "" then "Knowledge Base" else basename dir
  let bullets := (entries.filter fun e => dirOf e = dir).map fun e =>
    "* [" ++ e.title ++ "](" ++ basename e.path ++ ") [" ++ e.conceptType ++ "]"
  let subdirs :=
    ((indexDirs entries).filterMap (childOf dir)).dedup.insertionSort fun a b => a ≤ b
  let tail :=
    if subdirs = [] then []
    else "\n## Subdirectories\n" :: subdirs.map (subdirLine entries dir)
  join "\n" (("# " ++ name ++ "\n") :: bullets ++ tail) ++ "\n"

/-- The files one regeneration writes, in order. SOURCE: concept_store.rs:467-562 -/
def indexFiles (entries : List ConceptEntry) : List (String × String) :=
  (indexDirs entries).map fun dir => (dir ++ "/index.md", indexText entries dir)

/-! ## Stamping -/

/-- A batch is checked and stamped before anything is written: the reserved basenames are
refused, `confirmed_at` is the clock, `source` the label of a labelled store.
SOURCE: concept_store.rs:312-327 -/
def stamp (cx : Codec) (h : Handle) (now : String) (c : Concept) : Except StoreError Concept := do
  if isReserved c.sourcePath then throw (.reserved c.sourcePath)
  let source :=
    match h.provenance with
    | some src => if src = "" then c.frontmatter.source else some src
    | none => c.frontmatter.source
  let frontmatter := { c.frontmatter with confirmedAt := some now, source }
  (frontmatter.validated cx).mapError .parse
  return { c with frontmatter }

/-- The stamping loop; `clock i` is what the clock says at the `i`-th concept. -/
def stampAll (cx : Codec) (h : Handle) (clock : ℕ → String) :
    ℕ → List Concept → Except StoreError (List Concept)
  | _, [] => .ok []
  | i, c :: cs => do
    let c ← stamp cx h (clock i) c
    let cs ← stampAll cx h clock (i + 1) cs
    return c :: cs

/-- The provenance of a put's revision row. SOURCE: concept_store.rs:362-366 -/
def revSource (h : Handle) (c : Concept) : String :=
  match h.provenance with
  | some src => if src = "" then "" else src
  | none => c.frontmatter.source.getD ""

/-! ## What the steps leave alone -/

/-- INTERNAL: stamping keeps the path and refuses the reserved ones. -/
theorem stamp_eq_ok {cx : Codec} {h : Handle} {now : String} {c c' : Concept}
    (hs : stamp cx h now c = .ok c') :
    c'.sourcePath = c.sourcePath ∧ isReserved c'.sourcePath = false := by
  unfold stamp at hs
  by_cases hr : isReserved c.sourcePath = true
  · simp [hr, throw, throwThe, MonadExceptOf.throw, bind, Except.bind] at hs
  · simp only [hr, Bool.false_eq_true, ↓reduceIte, bind, Except.bind, pure, Except.pure] at hs
    split at hs
    · cases hs
    · cases hs
      exact ⟨rfl, by simpa using hr⟩

/-- INTERNAL: every concept of a stamped batch is one of the batch, stamped. -/
theorem stamp_of_mem_stampAll {cx : Codec} {h : Handle} {clock : ℕ → String} {i : ℕ}
    {cs cs' : List Concept} (hs : stampAll cx h clock i cs = .ok cs') {c' : Concept}
    (hc' : c' ∈ cs') : ∃ c ∈ cs, ∃ j, stamp cx h (clock j) c = .ok c' := by
  induction cs generalizing i cs' with
  | nil =>
    cases hs
    cases hc'
  | cons c cs ih =>
    simp only [stampAll, bind, Except.bind, pure, Except.pure] at hs
    split at hs
    · cases hs
    · rename_i c₁ hc
      split at hs
      · cases hs
      · rename_i cs₁ hcs
        cases hs
        rcases List.mem_cons.mp hc' with rfl | hc'
        · exact ⟨c, List.mem_cons_self, i, hc⟩
        · obtain ⟨d, hd, j, hstamp⟩ := ih hcs hc'
          exact ⟨d, List.mem_cons_of_mem c hd, j, hstamp⟩

/-- INTERNAL: a stamped batch has the paths of the batch. -/
theorem paths_stampAll {cx : Codec} {h : Handle} {clock : ℕ → String} {i : ℕ}
    {cs cs' : List Concept} (hs : stampAll cx h clock i cs = .ok cs') :
    cs'.map Concept.sourcePath = cs.map Concept.sourcePath := by
  induction cs generalizing i cs' with
  | nil =>
    cases hs
    rfl
  | cons c cs ih =>
    simp only [stampAll, bind, Except.bind, pure, Except.pure] at hs
    split at hs
    · cases hs
    · rename_i c₁ hc
      split at hs
      · cases hs
      · rename_i cs₁ hcs
        cases hs
        rw [List.map_cons, List.map_cons, (stamp_eq_ok hc).1, ih hcs]

/-- INTERNAL: no concept of a stamped batch has a reserved basename. -/
theorem not_reserved_of_stampAll {cx : Codec} {h : Handle} {clock : ℕ → String} {i : ℕ}
    {cs cs' : List Concept} (hs : stampAll cx h clock i cs = .ok cs') :
    ∀ c ∈ cs', isReserved c.sourcePath = false := by
  intro c hc
  obtain ⟨_, -, _, hstamp⟩ := stamp_of_mem_stampAll hs hc
  exact (stamp_eq_ok hstamp).2

theorem isReserved_index (dir : String) : isReserved (dir ++ "/index.md") = true := by
  have hname : basename (dir ++ "/index.md") = "index.md" := by
    have := basename_append dir "index.md" (by decide)
    rwa [String.append_assoc] at this
  simp [isReserved, hname]

/-- INTERNAL: every file a regeneration writes has a reserved basename. -/
theorem isReserved_of_mem_indexFiles {entries : List ConceptEntry} {f : String × String}
    (hf : f ∈ indexFiles entries) : isReserved f.1 = true := by
  obtain ⟨dir, -, rfl⟩ := List.mem_map.mp hf
  exact isReserved_index dir

theorem mem_list {s : Store} {e : ConceptEntry} : e ∈ s.list ↔ e ∈ s.registry :=
  List.mem_insertionSort _

theorem mem_indexDirs {entries : List ConceptEntry} {dir : String} :
    dir ∈ indexDirs entries ↔ dir = "" ∨ ∃ e ∈ entries, dirOf e = dir := by
  simp only [indexDirs, List.mem_insertionSort, List.mem_dedup, List.mem_cons, List.mem_map]

/-- INTERNAL: a file write changes nothing but the files. -/
theorem write_eq_ok {s s' : Store} {path content : String} (hw : s.write path content = .ok s') :
    s' = { s with files := fun q => if q = path then some content else s.files q } := by
  unfold Store.write at hw
  split at hw
  · cases hw
    rfl
  · cases hw

theorem validPath_iff {path : String} :
    validPath path = true ↔ ∃ rest, path.toList = '/' :: rest := by
  simp only [validPath, startsWith]
  cases hpath : path.toList with
  | nil => simp
  | cons c rest =>
    constructor
    · intro h
      have hc : '/' = c := by simpa [List.isPrefixOf] using h
      exact ⟨rest, by rw [hc]⟩
    · rintro ⟨rest', h⟩
      obtain ⟨rfl, -⟩ := List.cons.inj h
      simp [List.isPrefixOf]

theorem validPath_of_write {s s' : Store} {path content : String}
    (hw : s.write path content = .ok s') : validPath path = true := by
  unfold Store.write at hw
  split at hw
  · assumption
  · cases hw

/-- INTERNAL: the upsert into the registry leaves the rest of the store. -/
theorem register_fields (s : Store) (c : Concept) (now : String) :
    (s.register c now).history = s.history ∧ (s.register c now).revisions = s.revisions ∧
      (s.register c now).files = s.files ∧ (s.register c now).index = s.index := by
  unfold Store.register
  simp only
  split <;> exact ⟨rfl, rfl, rfl, rfl⟩

/-- INTERNAL: the entries after an upsert have the old paths or the new one. -/
theorem path_of_mem_register {s : Store} {c : Concept} {now : String} {e : ConceptEntry}
    (he : e ∈ (s.register c now).registry) :
    e.path = c.sourcePath ∨ ∃ e' ∈ s.registry, e'.path = e.path := by
  unfold Store.register at he
  simp only at he
  split at he
  · obtain ⟨e', he', heq⟩ := List.mem_map.mp he
    split at heq
    · left
      rw [← heq]
    · right
      exact ⟨e', he', by rw [heq]⟩
  · rcases List.mem_append.mp he with he | he
    · exact .inr ⟨e, he, rfl⟩
    · left
      rw [List.mem_singleton.mp he]

theorem enqueueVector_fields (s : Store) (path : String) :
    (s.enqueueVector path).history = s.history ∧ (s.enqueueVector path).revisions = s.revisions ∧
      (s.enqueueVector path).registry = s.registry ∧ (s.enqueueVector path).files = s.files ∧
      (s.enqueueVector path).index = s.index := by
  unfold Store.enqueueVector
  simp only
  split <;> exact ⟨rfl, rfl, rfl, rfl, rfl⟩

theorem registered_iff {s : Store} {path : String} :
    s.registered path = true ↔ ∃ e ∈ s.registry, e.path = path := by
  simp [Store.registered]

/-- INTERNAL: the upsert adds its own path to the registry and no other. -/
theorem registered_register (s : Store) (c : Concept) (now path : String) :
    (s.register c now).registered path = (s.registered path || path = c.sourcePath) := by
  rw [Bool.eq_iff_iff]
  unfold Store.register
  simp only
  split
  · rename_i hreg
    obtain ⟨e, he, hep⟩ := registered_iff.mp hreg
    simp only [registered_iff, Bool.or_eq_true, decide_eq_true_eq, List.mem_map]
    constructor
    · rintro ⟨_, ⟨e', he', rfl⟩, hp⟩
      by_cases h : e'.path = c.sourcePath
      · simp only [h, ↓reduceIte] at hp
        exact Or.inr hp.symm
      · simp only [h, ↓reduceIte] at hp
        exact Or.inl ⟨e', he', hp⟩
    · rintro (⟨e', he', hp⟩ | rfl)
      · refine ⟨_, ⟨e', he', rfl⟩, ?_⟩
        by_cases h : e'.path = c.sourcePath
        · simp only [h, ↓reduceIte]
          exact h.symm.trans hp
        · simpa only [h, ↓reduceIte] using hp
      · exact ⟨_, ⟨e, he, rfl⟩, by simp only [hep, ↓reduceIte]⟩
  · simp only [Store.registered, List.any_append, List.any_cons, List.any_nil, Bool.or_false,
      Bool.or_eq_true, decide_eq_true_eq, @eq_comm String path]

theorem registered_unregister (s : Store) (gone path : String) :
    (s.unregister gone).registered path = (s.registered path && path ≠ gone) := by
  rw [Bool.eq_iff_iff]
  simp only [Store.unregister, Store.registered, List.any_filter, List.any_eq_true,
    Bool.and_eq_true, decide_eq_true_eq]
  constructor
  · rintro ⟨e, he, hne, rfl⟩
    exact ⟨⟨e, he, rfl⟩, hne⟩
  · rintro ⟨⟨e, he, rfl⟩, hne⟩
    exact ⟨e, he, hne, rfl⟩

end Mycelium.Model.ConceptStore
