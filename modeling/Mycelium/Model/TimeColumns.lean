import Mycelium.Lib.Grouping
import Mycelium.Model.MutationQueue

/-!
# Columns that hold times

The statements over `mutation_queue` and `chat_sessions` that compare the times of a column,
and the statements that write them. What a column holds is a parameter `τ` with an order: a
text in the database, an instant in what the statements are meant to say. Of a row only the
columns that these statements read are kept.
-/

set_option autoImplicit false

namespace Mycelium.Model.TimeColumns

open Grouping
open Mycelium.Model.MutationQueue (QueueStatus)

variable {τ κ : Type}

/-! ## The mutation queue -/

structure QueueRow (τ : Type) where
  id : ℕ
  userId : ℕ
  status : QueueStatus
  attempts : ℕ
  createdAt : τ
  updatedAt : τ
  nextRetryAt : Option τ
  deriving DecidableEq

def QueueRow.mapTime (f : τ → κ) (row : QueueRow τ) : QueueRow κ where
  id := row.id
  userId := row.userId
  status := row.status
  attempts := row.attempts
  createdAt := f row.createdAt
  updatedAt := f row.updatedAt
  nextRetryAt := row.nextRetryAt.map f

/-- The statements that write, with the times that the caller binds. -/
inductive QueueWrite (τ : Type) where
  | enqueue (id userId : ℕ) (now : τ)
  | activate (id : ℕ) (now : τ)
  | claim (id : ℕ) (now : τ)
  | markDone (id : ℕ) (now : τ)
  | markFailed (id : ℕ) (nextRetryAt now : τ)
  | markDead (id : ℕ) (now : τ)
  | repairRunning (id : ℕ) (now : τ)

def QueueWrite.mapTime (f : τ → κ) : QueueWrite τ → QueueWrite κ
  | .enqueue id userId now => .enqueue id userId (f now)
  | .activate id now => .activate id (f now)
  | .claim id now => .claim id (f now)
  | .markDone id now => .markDone id (f now)
  | .markFailed id nextRetryAt now => .markFailed id (f nextRetryAt) (f now)
  | .markDead id now => .markDead id (f now)
  | .repairRunning id now => .repairRunning id (f now)

/-- `UPDATE … SET f WHERE id = ? AND status IN (…)`. -/
def updateWhere (rows : List (QueueRow τ)) (id : ℕ) (status : QueueStatus → Bool)
    (f : QueueRow τ → QueueRow τ) : List (QueueRow τ) :=
  rows.map fun row => if row.id = id ∧ status row.status then f row else row

/-- SOURCE: mutation_queue.rs:77-228; queue_worker.rs:246-257 -/
def QueueWrite.apply (rows : List (QueueRow τ)) : QueueWrite τ → List (QueueRow τ)
  | .enqueue id userId now => rows ++ [⟨id, userId, .staging, 0, now, now, none⟩]
  | .activate id now => updateWhere rows id (fun s => s == .staging || s == .pending) fun row =>
      { row with status := .pending, updatedAt := now }
  | .claim id now => updateWhere rows id (· == .pending) fun row =>
      { row with status := .running, attempts := row.attempts + 1, updatedAt := now }
  | .markDone id now => updateWhere rows id (fun _ => true) fun row =>
      { row with status := .done, updatedAt := now, nextRetryAt := none }
  | .markFailed id nextRetryAt now => updateWhere rows id (fun _ => true) fun row =>
      { row with status := .pending, updatedAt := now, nextRetryAt := some nextRetryAt }
  | .markDead id now => updateWhere rows id (fun _ => true) fun row =>
      { row with status := .dead, updatedAt := now, nextRetryAt := none }
  | .repairRunning id now => updateWhere rows id (· == .running) fun row =>
      { row with status := .pending, updatedAt := now, nextRetryAt := none }

section Select

variable [LinearOrder τ]

/-- `status = 'pending' AND (next_retry_at IS NULL OR next_retry_at <= now)`. -/
def isDue (now : τ) (row : QueueRow τ) : Bool :=
  row.status == .pending && row.nextRetryAt.all (· ≤ now)

/-- SOURCE: mutation_queue.rs:143-152 -/
def dueCandidates (rows : List (QueueRow τ)) (userId : ℕ) (now : τ) : List ℕ :=
  ((sort QueueRow.createdAt
    (rows.filter fun row => decide (row.userId = userId) && isDue now row)).take 8).map QueueRow.id

/-- Users with a due row, the one with the oldest due row first.
SOURCE: mutation_queue.rs:276-291 -/
def queueUsersWithDue (rows : List (QueueRow τ)) (now : τ) : List ℕ :=
  ((sort QueueRow.createdAt (rows.filter (isDue now))).map QueueRow.userId).eraseDups

/-- SOURCE: mutation_queue.rs:342-363 -/
def rowsWithStatus (rows : List (QueueRow τ)) (status : QueueStatus) : List (QueueRow τ) :=
  sort QueueRow.createdAt (rows.filter fun row => row.status == status)

/-- SOURCE: mutation_queue.rs:302-314 -/
def queueWaitingRows (rows : List (QueueRow τ)) : List (QueueRow τ) :=
  sort QueueRow.createdAt (rows.filter fun row => row.status == .staging || row.status == .pending)

/-- SOURCE: mutation_queue.rs:325-337 -/
def queueRecentRows (rows : List (QueueRow τ)) (limit : ℕ) : List (QueueRow τ) :=
  (sortDesc QueueRow.createdAt rows).take limit

end Select

/-! ## Chat sessions -/

structure ChatSessionRow (τ : Type) where
  id : ℕ
  userId : ℕ
  createdAt : τ
  updatedAt : τ
  deriving DecidableEq

def ChatSessionRow.mapTime (f : τ → κ) (row : ChatSessionRow τ) : ChatSessionRow κ where
  id := row.id
  userId := row.userId
  createdAt := f row.createdAt
  updatedAt := f row.updatedAt

section Chat

variable [LinearOrder τ]

/-- The sessions that make room for a new one; `owes` is whether a session has a turn that
still owes an answer. SOURCE: chat.rs:293-310 -/
def prunedSessions (owes : ℕ → Bool) (rows : List (ChatSessionRow τ)) (userId limit : ℕ) : List ℕ :=
  ((sort ChatSessionRow.updatedAt
    (rows.filter fun row => decide (row.userId = userId) && !owes row.id)).take limit).map
      ChatSessionRow.id

/-- SOURCE: chat.rs:341-347 -/
def listSessions (rows : List (ChatSessionRow τ)) (userId : ℕ) : List ℕ :=
  (sortDesc ChatSessionRow.updatedAt (rows.filter fun row => row.userId = userId)).map
    ChatSessionRow.id

end Chat

end Mycelium.Model.TimeColumns
