import Mycelium.Model.QueueWorker

/-!
# The life of a queue row: failing calls, restarts and the boot sweep

`Model.QueueWorker` interleaves enqueuers and drain passes over storage that never
fails. Around it this module puts what else touches a row: an `enqueue_mutation` call
whose blob or note cannot be written and that abandons its row (`abandon_row`), a drain
pass that leaves through the `?` of a failed statement, a payload that cannot be read,
a process that stops at any point, and the `recover_on_boot` the next one starts with.

`main` awaits `recover_on_boot` before it spawns the drain worker and before the server
listens, so no other task moves during the sweep. From then on any number of calls and
passes is in flight, as in `Model.QueueWorker`.
-/

set_option autoImplicit false

namespace Mycelium.Model.QueueLifecycle

open Mycelium.Model.MutationQueue

/-- The boot repair of one running row. SOURCE: queue_worker.rs:246-257 -/
def repairRunning (t : Table) (id : Uuid) (now : Instant) : Table :=
  updateWhere t id (fun r => r.status == .running) fun r =>
    { r with status := .pending, detail := .interruptedByRestart, updatedAt := now,
             nextRetryAt := none }

/-- What is left of an `enqueue_mutation` call that has failed. SOURCE: tools.rs:482-560 -/
inductive AbandonPc
  | none
  | markDead (id : Uuid) (why : Detail)
  | dropBlob (id : Uuid)
  | returnedErr
  deriving DecidableEq, Repr

/-- Where the process stands in `recover_on_boot`. The staging reconciliation is walked
by the first drain's program counter. SOURCE: queue_worker.rs:241-259 -/
inductive BootPc
  | starting
  | repairing (todo : List MutationQueueItem)
  | sweeping
  | serving
  deriving DecidableEq, Repr

/-- The storage and the tasks of the running process. -/
structure State where
  queue : QueueWorker.State
  abandon : ℕ → AbandonPc
  boot : BootPc

/-- The first start, over an empty queue. -/
def State.init : State where
  queue := QueueWorker.State.init
  abandon _ := .none
  boot := .starting

/-- The process stops, whatever its tasks were doing, and a new one starts: the rows, the
blobs and the notes are what survives. -/
def State.restart (s : State) : State where
  queue := { s.queue with enq := fun _ => .idle, drain := fun _ => .idle }
  abandon _ := .none
  boot := .starting

/-- A step of one of the tasks, or a failure of the operation it stands at. -/
inductive Action
  | restart
  | boot (c : QueueWorker.DrainChoice)
  | bootFails
  | enqueue (e : ℕ) (c : QueueWorker.EnqueueChoice)
  | enqueueFails (e : ℕ)
  | abandon (e : ℕ) (now : Instant) (succeeds : Bool)
  | drain (d : ℕ) (c : QueueWorker.DrainChoice)
  | drainFails (d : ℕ)
  | payloadUnreadable (d : ℕ) (error : String)
  deriving DecidableEq, Repr

/-- One step of `recover_on_boot`. SOURCE: queue_worker.rs:241-324 -/
def bootStep (lim : QueueWorker.QueueLimits) (s : State) (c : QueueWorker.DrainChoice) :
    Option State :=
  match s.boot with
  | .starting => some { s with boot := .repairing (rowsWithStatus s.queue.table .running) }
  | .repairing (item :: todo) =>
    some { s with queue := { s.queue with table := repairRunning s.queue.table item.id c.now },
                  boot := .repairing todo }
  | .repairing [] =>
    some { s with queue := s.queue.setDrain 0 (.staging (stagingRows s.queue.table)),
                  boot := .sweeping }
  | .sweeping =>
    match s.queue.drain 0 with
    | .staging [] => some { s with queue := s.queue.setDrain 0 .idle, boot := .serving }
    | _ => some { s with queue := QueueWorker.drainStep lim s.queue 0 c }
  | .serving => none

/-- What an `enqueue_mutation` call does when the operation it stands at fails: before
the insert and at the flip to pending it returns the error, in between it abandons the
row. SOURCE: tools.rs:454-523 -/
def afterFailure : QueueWorker.EnqueuePc → Option AbandonPc
  | .idle | .counted _ => some .returnedErr
  | .inserted _ id => some (.markDead id .enqueueBlobUnwritable)
  | .blobWritten req id =>
    if req.tool = .add then some (.markDead id .enqueueNoteUnwritable) else some .returnedErr
  | .noteWritten _ _ => some .returnedErr
  | .activated _ _ | .returnedOk _ | .returnedCapacity => none

/-- One step of `abandon_row`; both of its operations are best effort.
SOURCE: tools.rs:540-560 -/
def abandonStep (s : State) (e : ℕ) (now : Instant) (succeeds : Bool) : Option State :=
  match s.abandon e with
  | .markDead id why =>
    let table := if succeeds then markDead s.queue.table id why now else s.queue.table
    some { s with queue := { s.queue with table },
                  abandon := Function.update s.abandon e (.dropBlob id) }
  | .dropBlob id =>
    let queue := if succeeds then s.queue.deletePayload id else s.queue
    some { s with queue, abandon := Function.update s.abandon e .returnedErr }
  | .none | .returnedErr => none

/-- The tasks of a serving process. -/
def serveStep (lim : QueueWorker.QueueLimits) (s : State) : Action → Option State
  | .enqueue e c =>
    if s.abandon e = .none then
      (QueueWorker.enqueueStep s.queue e c).map fun queue => { s with queue }
    else none
  | .enqueueFails e =>
    if s.abandon e = .none then
      (afterFailure (s.queue.enq e)).map fun pc =>
        { s with abandon := Function.update s.abandon e pc }
    else none
  | .abandon e now succeeds => abandonStep s e now succeeds
  | .drain d c => some { s with queue := QueueWorker.drainStep lim s.queue d c }
  | .drainFails d => some { s with queue := s.queue.setDrain d .idle }
  | .payloadUnreadable d error =>
    match s.queue.drain d with
    | .item .readPayload item k =>
      -- unseal and corruption errors are final: a retry cannot fix them
      let verdict := .settle (.dead (.payloadUnreadable error) .blobThenReconcile)
      some { s with queue := s.queue.setDrain d (.item verdict item k) }
    | _ => none
  | .restart | .boot _ | .bootFails => none

/-- The interleaved system. -/
def step (lim : QueueWorker.QueueLimits) (s : State) (a : Action) : Option State :=
  match a with
  | .restart => some s.restart
  | .boot c => bootStep lim s c
  | .bootFails =>
    -- `main` logs the error and goes on
    if s.boot = .serving then none
    else some { s with queue := s.queue.setDrain 0 .idle, boot := .serving }
  | _ => if s.boot = .serving then serveStep lim s a else none

/-- INTERNAL: the boot repair moves the running row of its identifier to pending. -/
theorem lookup_repairRunning (t : Table) (id id' : Uuid) (now : Instant) :
    lookup (repairRunning t id now) id' = (lookup t id').map fun r =>
      if id' = id ∧ r.status = .running then
        { r with status := .pending, detail := .interruptedByRestart, updatedAt := now,
                 nextRetryAt := none }
      else r := by
  unfold repairRunning
  rw [lookup_updateWhere]
  · simp
  · intro r; rfl

end Mycelium.Model.QueueLifecycle
