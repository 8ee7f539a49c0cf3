import Mathlib.Data.List.Sort
import Mathlib.Data.String.Basic
import Mycelium.Lib.Chunks
import Mycelium.Model.Search

/-!
# The vector rows of all scopes

The table `search_vectors` beside the columns of `search_docs` that the vector side reads,
and the queue of pending embeddings. One row per scope and path token; the token is the
scope's one-way name of a path (`Keys.token`). Opening an envelope is a parameter
(`Keys.openVec`), and an `f32` is its 32 bits: nothing here computes with it.

SOURCE: crates/mycelium-store/src/vectors.rs, migrations/0010_lifecycle.sql
-/

set_option autoImplicit false

namespace Mycelium.Model.Vectors

open Mycelium.Model.Search

/-! ## Rows -/

/-- What the model uses of the search index: scope, path and status. -/
structure SearchDoc where
  scope : String
  conceptPath : String
  lifecycleStatus : Option String
  deriving DecidableEq, Repr

/-- A stored row. `text` is a ghost: the text the vector was computed from, which no
operation reads. SOURCE: vectors.rs:147-154 -/
structure RawVectorRow where
  scopeId : String
  pathToken : String
  model : String
  dims : ℤ
  stale : Bool
  sealed : List UInt8
  updatedAt : String
  text : String
  deriving DecidableEq, Repr

/-- SOURCE: vectors.rs:115-122 -/
structure VectorRow where
  pathToken : String
  model : String
  dims : ℕ
  stale : Bool
  vecF32 : List (List UInt8)
  updatedAt : String
  deriving DecidableEq, Repr

/-- SOURCE: vectors.rs:127-132 -/
structure CacheRow where
  pathToken : String
  model : String
  dims : ℕ
  vecF32 : List (List UInt8)
  deriving DecidableEq, Repr

/-- SOURCE: vectors.rs:90-103 -/
inductive VectorError where
  | db
  | crypto
  | dimMismatch
  | dataIntegrity (detail : String)
  deriving DecidableEq, Repr

/-- The key layer of the scopes: the token of a path and the opening of a row's envelope
under the scope's index key with the row's own associated data. -/
structure Keys where
  token : String → String → String
  openVec : RawVectorRow → Option (List UInt8)

/-- The two tables. -/
structure Tables where
  docs : List SearchDoc
  rows : List RawVectorRow
  deriving DecidableEq, Repr

/-! ## Decoding -/

/-- Four little-endian bytes a number; a short rest is dropped. SOURCE: vectors.rs:715-722 -/
def bytesToVec (bytes : List UInt8) : List (List UInt8) :=
  (Chunks.chunks 4 bytes).filter fun c => c.length = 4

/-- The bound of `u32`. -/
def u32Bound : ℤ := 2 ^ 32

/-- SOURCE: vectors.rs:630-661 -/
def decodeRow (keys : Keys) (row : RawVectorRow) : Except VectorError VectorRow :=
  match keys.openVec row with
  | none => .error .crypto
  | some plain =>
    if row.dims < 0 ∨ u32Bound ≤ row.dims then
      .error (.dataIntegrity s!"row dims {row.dims} is not a non-negative u32")
    else if plain.length % 4 ≠ 0 then
      .error (.dataIntegrity s!"row payload length {plain.length} is not a multiple of 4")
    else
      let vec := bytesToVec plain
      if vec.length ≠ row.dims.toNat then
        .error (.dataIntegrity
          s!"row decoded to {vec.length} floats but declares {row.dims} dims")
      else
        .ok { pathToken := row.pathToken, model := row.model, dims := row.dims.toNat,
              stale := row.stale, vecF32 := vec, updatedAt := row.updatedAt }

/-- The tokens of the scope's concepts that are searchable. SOURCE: vectors.rs:523-533 -/
def activeTokens (keys : Keys) (scope : String) (docs : List SearchDoc) : List String :=
  (docs.filter fun d => d.scope = scope && isActiveStatus d.lifecycleStatus).map fun d =>
    keys.token scope d.conceptPath

/-- The scope's rows in the order of their tokens. SOURCE: vectors.rs:609-628 -/
def fetchRows (scope : String) (rows : List RawVectorRow) : List RawVectorRow :=
  (rows.filter fun r => r.scopeId = scope).insertionSort fun a b => a.pathToken ≤ b.pathToken

/-- The rows of a fetch that the cache keeps: those of a stale row, of a concept that is
gone or hidden, and those that do not decode are skipped. SOURCE: vectors.rs:535-591 -/
def keptRows (keys : Keys) (active : List String) :
    List RawVectorRow → Except VectorError (List CacheRow)
  | [] => .ok []
  | row :: rows =>
    if row.stale then keptRows keys active rows
    else if row.pathToken ∉ active then keptRows keys active rows
    else
      match decodeRow keys row with
      | .ok r => (keptRows keys active rows).map fun kept =>
          { pathToken := r.pathToken, model := r.model, dims := r.dims, vecF32 := r.vecF32 } :: kept
      | .error .crypto => keptRows keys active rows
      | .error (.dataIntegrity _) => keptRows keys active rows
      | .error e => .error e

/-! ## The queue of pending embeddings -/

/-- A scope and the token of a path. -/
abbrev Item := String × String

/-- SOURCE: vectors.rs:56 -/
def vectorQueueCapacity : ℕ := 512

/-- A duplicate is skipped and a full queue drops the new item. SOURCE: vectors.rs:682-689 -/
def enqueueWrite (queue : List Item) (scope token : String) : List Item :=
  if (scope, token) ∈ queue ∨ vectorQueueCapacity ≤ queue.length then queue
  else queue ++ [(scope, token)]

/-- The drained items and the queue without them. SOURCE: vectors.rs:692-696 -/
def drainQueue (queue : List Item) (max : ℕ) : List Item × List Item :=
  (queue.take max, queue.drop max)

/-! ## Writes to the rows -/

/-- The row of a scope and token. -/
def Tables.row? (t : Tables) (scope token : String) : Option RawVectorRow :=
  t.rows.find? fun r => r.scopeId = scope && r.pathToken = token

/-- Insert or replace the row with its key, in one statement. SOURCE: vectors.rs:239-260 -/
def Tables.upsertRow (t : Tables) (row : RawVectorRow) : Tables :=
  if (t.row? row.scopeId row.pathToken).isSome then
    { t with rows := t.rows.map fun r =>
        if r.scopeId = row.scopeId ∧ r.pathToken = row.pathToken then row else r }
  else { t with rows := t.rows ++ [row] }

/-- SOURCE: vectors.rs:266-290 -/
def Tables.removeRowByToken (t : Tables) (scope token : String) : Tables :=
  { t with rows := t.rows.filter fun r => ¬ (r.scopeId = scope ∧ r.pathToken = token) }

/-- SOURCE: vectors.rs:308-321 -/
def Tables.markCorpusStale (t : Tables) (model : String) (learnedDims : ℕ) : Tables :=
  { t with rows := t.rows.map fun r =>
      if r.model ≠ model ∨ r.dims ≠ (learnedDims : ℤ) then { r with stale := true } else r }

/-- Does the path lack a fresh row? The dimensions count once they are known, and a value
that is no `u32` counts as 0. SOURCE: vectors.rs:372-384 -/
def needsWork (model : String) (learnedDims : ℕ) : Option RawVectorRow → Bool
  | none => true
  | some row =>
    row.stale || row.model ≠ model ||
      (learnedDims ≠ 0 &&
        (if row.dims < 0 ∨ u32Bound ≤ row.dims then 0 else row.dims.toNat) ≠ learnedDims)

/-- SOURCE: vectors.rs:340-386 -/
def backlogPaths (keys : Keys) (t : Tables) (scope model : String) (learnedDims : ℕ) :
    List String :=
  (((t.docs.filter fun d => d.scope = scope).map (·.conceptPath)).insertionSort (· ≤ ·)).filter
    fun path => needsWork model learnedDims (t.row? scope (keys.token scope path))

/-! ## The row of a key after a write -/

/-- An upsert is seen at its own key only. -/
theorem row?_upsertRow (t : Tables) (row : RawVectorRow) (scope token : String) :
    (t.upsertRow row).row? scope token =
      if row.scopeId = scope ∧ row.pathToken = token then some row else t.row? scope token := by
  have hmap (l : List RawVectorRow) :
      (l.map fun r =>
          if r.scopeId = row.scopeId ∧ r.pathToken = row.pathToken then row else r).find?
          (fun r => r.scopeId = scope && r.pathToken = token) =
        if row.scopeId = scope ∧ row.pathToken = token then
          (l.find? fun r => r.scopeId = scope && r.pathToken = token).map fun _ => row
        else l.find? fun r => r.scopeId = scope && r.pathToken = token := by
    induction l with
    | nil => simp
    | cons r l ih =>
      simp only [List.map_cons, List.find?_cons, ih]
      by_cases hr : r.scopeId = row.scopeId ∧ r.pathToken = row.pathToken
      · rw [if_pos hr, hr.1, hr.2]
        by_cases hk : row.scopeId = scope ∧ row.pathToken = token
        · simp [hk]
        · have hk' : (decide (row.scopeId = scope) && decide (row.pathToken = token)) = false := by
            simpa using hk
          simp [hk, hk']
      · rw [if_neg hr]
        by_cases hk : row.scopeId = scope ∧ row.pathToken = token
        · have hr' : (decide (r.scopeId = scope) && decide (r.pathToken = token)) = false := by
            rw [← hk.1, ← hk.2]
            simpa using hr
          simp [hk, hr']
        · simp [hk]
  simp only [Tables.upsertRow]
  split
  · rename_i hthere
    show List.find? _ (List.map _ _) = _
    rw [hmap]
    split
    · rename_i hk
      rw [← hk.1, ← hk.2]
      obtain ⟨r, hr⟩ := Option.isSome_iff_exists.mp hthere
      simp only [Tables.row?] at hr
      simp [hr]
    · rfl
  · rename_i hthere
    simp only [Tables.row?, List.find?_append, List.find?_singleton]
    by_cases hk : row.scopeId = scope ∧ row.pathToken = token
    · rw [← hk.1, ← hk.2]
      have hnone : t.rows.find? (fun r =>
          r.scopeId = row.scopeId && r.pathToken = row.pathToken) = none := by
        simpa [Tables.row?] using hthere
      simp [hnone]
    · have hk' : (decide (row.scopeId = scope) && decide (row.pathToken = token)) = false := by
        simpa using hk
      simp [hk, hk']

/-- A removal empties its own key only. -/
theorem row?_removeRowByToken (t : Tables) (scope' token' scope token : String) :
    (t.removeRowByToken scope' token').row? scope token =
      if scope' = scope ∧ token' = token then none else t.row? scope token := by
  simp only [Tables.row?, Tables.removeRowByToken, List.find?_filter]
  split
  · rename_i hk
    rw [List.find?_eq_none, hk.1, hk.2]
    intro r _
    by_cases hs : r.scopeId = scope
    · simp [hs]
    · simp [hs]
  · rename_i hk
    congr 1
    funext r
    by_cases hr : r.scopeId = scope ∧ r.pathToken = token
    · have hne : ¬ (scope = scope' ∧ token = token') := fun h => hk ⟨h.1.symm, h.2.symm⟩
      simp [hr, hne]
    · have hr' : (decide (r.scopeId = scope) && decide (r.pathToken = token)) = false := by
        simpa using hr
      simp [hr']

/-- The mark changes no key. -/
theorem row?_markCorpusStale (t : Tables) (model : String) (learned : ℕ) (scope token : String) :
    (t.markCorpusStale model learned).row? scope token =
      (t.row? scope token).map fun r =>
        if r.model ≠ model ∨ r.dims ≠ (learned : ℤ) then { r with stale := true } else r := by
  simp only [Tables.row?, Tables.markCorpusStale, List.find?_map]
  congr 2
  funext r
  simp only [Function.comp_apply]
  split <;> rfl

/-- The backlog lists the indexed paths that lack a fresh row. -/
theorem mem_backlogPaths {keys : Keys} {t : Tables} {scope model path : String} {learned : ℕ} :
    path ∈ backlogPaths keys t scope model learned ↔
      (∃ d ∈ t.docs, d.scope = scope ∧ d.conceptPath = path) ∧
        needsWork model learned (t.row? scope (keys.token scope path)) = true := by
  simp only [backlogPaths, List.mem_filter, List.mem_insertionSort, List.mem_map,
    decide_eq_true_eq, and_assoc]

/-- What is queued stays queued when something else is. -/
theorem mem_enqueueWrite_of_mem {queue : List Item} {e : Item} (h : e ∈ queue)
    (scope token : String) : e ∈ enqueueWrite queue scope token := by
  unfold enqueueWrite
  split
  · exact h
  · exact List.mem_append_left _ h

/-- A queue with room takes the item. -/
theorem mem_enqueueWrite_self {queue : List Item} {scope token : String}
    (h : (scope, token) ∈ queue ∨ queue.length < vectorQueueCapacity) :
    (scope, token) ∈ enqueueWrite queue scope token := by
  unfold enqueueWrite
  split
  · rename_i hfull
    rcases hfull with hin | hcap
    · exact hin
    · rcases h with hin | hroom
      · exact hin
      · omega
  · exact List.mem_append_right _ (List.mem_singleton_self _)

end Mycelium.Model.Vectors
