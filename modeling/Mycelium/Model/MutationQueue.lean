import Mathlib.Data.List.Basic
import Mathlib.Data.List.Sort

/-!
# The mutation queue's rows

The `mutation_queue` table (`mycelium-store/src/mutation_queue.rs`): one row per
enqueued write, and one definition per SQL statement of the store module, under the
Rust name. A table is the list of its rows in insertion order, so an `UPDATE` is a
map over it and `ORDER BY created_at` a stable sort.

Instants stand for the RFC 3339 strings the columns hold; the comparisons
`next_retry_at <= now` and `ORDER BY created_at` are comparisons of instants.
-/

set_option autoImplicit false

namespace Mycelium.Model.MutationQueue

/-- A 128-bit identifier. -/
abbrev Uuid := ℕ

/-- A point in time, in seconds. -/
abbrev Instant := ℕ

/-- The tool that enqueued an item. SOURCE: models.rs:102-109 -/
inductive QueueTool
  | add
  | update
  | maintain
  deriving DecidableEq, Repr

/-- An item's lifecycle. SOURCE: models.rs:138-147 -/
inductive QueueStatus
  | staging
  | pending
  | running
  | done
  | dead
  deriving DecidableEq, Repr

/-- The two statuses nothing leaves. -/
def QueueStatus.terminal : QueueStatus → Bool
  | .done | .dead => true
  | .staging | .pending | .running => false

/-- What the enqueuer and the drain write into the `detail` column.
SOURCE: queue_worker.rs, tools.rs -/
inductive Detail
  | empty
  | stagingPayloadMissing
  | payloadMissing
  | payloadUnreadable (error : String)
  | attempt (attempts : ℕ) (error : String)
  | keyRecoveryFailed (error : String)
  | fallbackUnavailable
  | fallbackFailed (error : String)
  | viaFallback (provenance : String)
  | summary (text : String)
  | interruptedByRestart
  | enqueueBlobUnwritable
  | enqueueNoteUnwritable
  deriving DecidableEq, Repr

/-- The column's text. -/
def Detail.text : Detail → String
  | .empty => ""
  | .stagingPayloadMissing =>
      "payload missing — enqueue interrupted before durability; re-submit"
  | .payloadMissing =>
      "payload missing — enqueue interrupted before durability; re-submit the mutation"
  | .payloadUnreadable error => "payload unreadable: " ++ error
  | .attempt attempts error => "attempt " ++ toString attempts ++ ": " ++ error
  | .keyRecoveryFailed error => "master-key recovery failed: " ++ error
  | .fallbackUnavailable => "fallback unavailable: master-key recovery failed"
  | .fallbackFailed error => "fallback failed: " ++ error
  | .viaFallback provenance =>
      "integrated via deterministic fallback (" ++ provenance ++ ")"
  | .summary text => text
  | .interruptedByRestart => "interrupted by restart"
  | .enqueueBlobUnwritable => "enqueue failed: payload blob unwritable"
  | .enqueueNoteUnwritable => "enqueue failed: staging note unwritable"

/-- The details a dead row carries when its payload was not found. -/
def Detail.isPayloadMissing : Detail → Bool
  | .stagingPayloadMissing | .payloadMissing => true
  | _ => false

/-- A row of the table. SOURCE: models.rs:177-194 -/
structure MutationQueueItem where
  id : Uuid
  userId : Uuid
  tool : QueueTool
  status : QueueStatus
  attempts : ℕ
  detail : Detail
  createdAt : Instant
  updatedAt : Instant
  nextRetryAt : Option Instant
  finalPaths : Option (List String)
  source : String
  deriving DecidableEq, Repr

/-- The table, in insertion order. -/
abbrev Table := List MutationQueueItem

/-- `SELECT … WHERE id = ?`. -/
def lookup (t : Table) (id : Uuid) : Option MutationQueueItem :=
  t.find? fun r => decide (r.id = id)

/-- `UPDATE … SET f WHERE id = ? AND p`. -/
def updateWhere (t : Table) (id : Uuid) (p : MutationQueueItem → Bool)
    (f : MutationQueueItem → MutationQueueItem) : Table :=
  t.map fun r => if r.id = id ∧ p r then f r else r

/-- `ORDER BY created_at`. -/
def byAge (t : Table) : Table := t.insertionSort fun a b => a.createdAt ≤ b.createdAt

/-- The row `enqueue` inserts. SOURCE: mutation_queue.rs:77-94 -/
def stagingRow (id userId : Uuid) (tool : QueueTool) (source : String) (now : Instant) :
    MutationQueueItem :=
  { id, userId, tool, status := .staging, attempts := 0, detail := .empty, createdAt := now,
    updatedAt := now, nextRetryAt := none, finalPaths := none, source }

/-- INSERT a row in `staging`. SOURCE: mutation_queue.rs:77-94 -/
def enqueue (t : Table) (id userId : Uuid) (tool : QueueTool) (source : String)
    (now : Instant) : Table :=
  t ++ [stagingRow id userId tool source now]

/-- The depth the enqueue cap counts: staging, pending and running rows of the user.
SOURCE: mutation_queue.rs:108-114 -/
def depth (t : Table) (userId : Uuid) : ℕ :=
  (t.filter fun r => decide (r.userId = userId) && !r.status.terminal).length

/-- Flip staging (or, again, pending) to pending. SOURCE: mutation_queue.rs:121-132 -/
def activate (t : Table) (id : Uuid) (now : Instant) : Table :=
  updateWhere t id (fun r => r.status == .staging || r.status == .pending)
    fun r => { r with status := .pending, updatedAt := now }

/-- A pending row whose retry timer has run out. -/
def isDue (now : Instant) (r : MutationQueueItem) : Bool :=
  r.status == .pending && r.nextRetryAt.all (· ≤ now)

/-- The claim's SELECT: at most eight due rows of the user, oldest first.
SOURCE: mutation_queue.rs:143-152 -/
def dueCandidates (t : Table) (userId : Uuid) (now : Instant) : List Uuid :=
  ((byAge (t.filter fun r => decide (r.userId = userId) && isDue now r)).take 8).map (·.id)

/-- The claim's conditional UPDATE. SOURCE: mutation_queue.rs:154-162 -/
def claim (t : Table) (id : Uuid) (now : Instant) : Table :=
  updateWhere t id (fun r => r.status == .pending)
    fun r => { r with status := .running, attempts := r.attempts + 1, updatedAt := now }

/-- Whether the claim's UPDATE affects a row. -/
def claimable (t : Table) (id : Uuid) : Bool :=
  (lookup t id).any (·.status == .pending)

/-- Terminal success; unconditional on the status. SOURCE: mutation_queue.rs:178-193 -/
def markDone (t : Table) (id : Uuid) (paths : List String) (detail : Detail)
    (now : Instant) : Table :=
  updateWhere t id (fun _ => true) fun r =>
    { r with status := .done, finalPaths := some paths, detail, updatedAt := now,
             nextRetryAt := none }

/-- Back to pending with a retry timer; unconditional on the status.
SOURCE: mutation_queue.rs:197-210 -/
def markFailed (t : Table) (id : Uuid) (next : Instant) (detail : Detail)
    (now : Instant) : Table :=
  updateWhere t id (fun _ => true) fun r =>
    { r with status := .pending, nextRetryAt := some next, detail, updatedAt := now }

/-- Terminal failure; unconditional on the status. SOURCE: mutation_queue.rs:214-227 -/
def markDead (t : Table) (id : Uuid) (detail : Detail) (now : Instant) : Table :=
  updateWhere t id (fun _ => true) fun r =>
    { r with status := .dead, detail, updatedAt := now, nextRetryAt := none }

/-- Rows of one status, oldest first. SOURCE: mutation_queue.rs:342-363 -/
def rowsWithStatus (t : Table) (status : QueueStatus) : List MutationQueueItem :=
  byAge (t.filter fun r => r.status == status)

/-- The staging rows the reconciliation walks. SOURCE: mutation_queue.rs:294-296 -/
def stagingRows (t : Table) : List MutationQueueItem := rowsWithStatus t .staging

/-- Users with a due row, the one with the oldest due row first.
SOURCE: mutation_queue.rs:276-291 -/
def queueUsersWithDue (t : Table) (now : Instant) : List Uuid :=
  ((byAge (t.filter (isDue now))).map (·.userId)).eraseDups

/-- The status of a row, if there is one. -/
def statusOf (t : Table) (id : Uuid) : Option QueueStatus := (lookup t id).map (·.status)

/-! ## What a statement does to the row of an identifier -/

/-- INTERNAL: the row found has the identifier asked for. -/
theorem id_of_lookup {t : Table} {id : Uuid} {r : MutationQueueItem}
    (h : lookup t id = some r) : r.id = id := by
  have h1 := List.find?_some h
  exact of_decide_eq_true h1

/-- INTERNAL: an `UPDATE` that keeps the key acts on each row found on its own. -/
theorem lookup_updateWhere (t : Table) (id id' : Uuid) (p : MutationQueueItem → Bool)
    (f : MutationQueueItem → MutationQueueItem) (hf : ∀ r, (f r).id = r.id) :
    lookup (updateWhere t id p f) id' =
      (lookup t id').map fun r => if id' = id ∧ p r then f r else r := by
  unfold lookup updateWhere
  rw [List.find?_map]
  have hkey : ((fun r : MutationQueueItem => decide (r.id = id')) ∘
      fun r => if r.id = id ∧ p r then f r else r) = fun r => decide (r.id = id') := by
    funext r
    simp only [Function.comp]
    split <;> simp [hf]
  rw [hkey]
  cases hr : t.find? fun r => decide (r.id = id') with
  | none => rfl
  | some r =>
    have hid : r.id = id' := id_of_lookup hr
    simp [hid]

/-- INTERNAL: an insert adds its own row and no other. -/
theorem lookup_enqueue (t : Table) (id id' userId : Uuid) (tool : QueueTool) (source : String)
    (now : Instant) (hfresh : lookup t id = none) :
    lookup (enqueue t id userId tool source now) id' =
      if id' = id then some (stagingRow id userId tool source now) else lookup t id' := by
  unfold lookup enqueue at *
  rw [List.find?_append]
  by_cases h : id' = id
  · subst h
    rw [hfresh]
    simp [stagingRow]
  · have h' : ¬ id = id' := fun e => h e.symm
    simp [h, h', stagingRow]

/-- INTERNAL: `activate` moves the staging or pending row of its identifier to pending. -/
theorem lookup_activate (t : Table) (id id' : Uuid) (now : Instant) :
    lookup (activate t id now) id' = (lookup t id').map fun r =>
      if id' = id ∧ (r.status = .staging ∨ r.status = .pending) then
        { r with status := .pending, updatedAt := now } else r := by
  unfold activate
  rw [lookup_updateWhere]
  · simp
  · intro r; rfl

/-- INTERNAL: a claim moves the pending row of its identifier to running. -/
theorem lookup_claim (t : Table) (id id' : Uuid) (now : Instant) :
    lookup (claim t id now) id' = (lookup t id').map fun r =>
      if id' = id ∧ r.status = .pending then
        { r with status := .running, attempts := r.attempts + 1, updatedAt := now } else r := by
  unfold claim
  rw [lookup_updateWhere]
  · simp
  · intro r; rfl

/-- INTERNAL: `mark_done` acts on the row of its identifier, whatever its status. -/
theorem lookup_markDone (t : Table) (id id' : Uuid) (paths : List String) (detail : Detail)
    (now : Instant) :
    lookup (markDone t id paths detail now) id' = (lookup t id').map fun r =>
      if id' = id then
        { r with status := .done, finalPaths := some paths, detail, updatedAt := now,
                 nextRetryAt := none }
      else r := by
  unfold markDone
  rw [lookup_updateWhere]
  · simp
  · intro r; rfl

/-- INTERNAL: `mark_failed` acts on the row of its identifier, whatever its status. -/
theorem lookup_markFailed (t : Table) (id id' : Uuid) (next : Instant) (detail : Detail)
    (now : Instant) :
    lookup (markFailed t id next detail now) id' = (lookup t id').map fun r =>
      if id' = id then
        { r with status := .pending, nextRetryAt := some next, detail, updatedAt := now }
      else r := by
  unfold markFailed
  rw [lookup_updateWhere]
  · simp
  · intro r; rfl

/-- INTERNAL: `mark_dead` acts on the row of its identifier, whatever its status. -/
theorem lookup_markDead (t : Table) (id id' : Uuid) (detail : Detail) (now : Instant) :
    lookup (markDead t id detail now) id' = (lookup t id').map fun r =>
      if id' = id then
        { r with status := .dead, detail, updatedAt := now, nextRetryAt := none }
      else r := by
  unfold markDead
  rw [lookup_updateWhere]
  · simp
  · intro r; rfl

/-- INTERNAL: a listed staging row is a row of the table. -/
theorem lookup_isSome_of_mem {t : Table} {r : MutationQueueItem} (h : r ∈ t) :
    (lookup t r.id).isSome := by
  unfold lookup
  rw [List.find?_isSome]
  exact ⟨r, h, by simp⟩

/-- INTERNAL: the staging rows are rows of the table. -/
theorem mem_of_mem_stagingRows {t : Table} {r : MutationQueueItem} (h : r ∈ stagingRows t) :
    r ∈ t := by
  unfold stagingRows rowsWithStatus byAge at h
  rw [List.mem_insertionSort] at h
  exact List.mem_of_mem_filter h

end Mycelium.Model.MutationQueue
