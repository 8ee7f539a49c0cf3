import Mathlib.Logic.Function.Basic
import Mycelium.Model.MutationQueue

/-!
# Enqueuers and drain passes as interleaved tasks

`enqueue_mutation` (`mycelium-mcp/src/tools.rs`) and `run_pending`
(`mycelium-librarian/src/queue_worker.rs`) as step machines over the shared queue
table, payload blobs and staging notes. A step is one storage statement or one file
operation; everything between two of them is local to its task and is folded into the
step before it. Any number of enqueue calls and of drain passes is in flight at once,
each under its own number, and an interleaving is a list of actions.

What the environment decides is carried by the action: the clock, the identifier
`Uuid::new_v4` returns, the backend's health, the LLM gate's answer, the outcome of an
agent run and of the deterministic fallback. Storage operations do not fail here.
-/

set_option autoImplicit false

namespace Mycelium.Model.QueueWorker

open Mycelium.Model.MutationQueue

/-! ## Data -/

/-- What a payload blob holds. SOURCE: mutation_queue.rs:462-472 -/
structure MutationPayload where
  tool : QueueTool
  argsJson : String
  content : String
  deriving DecidableEq, Repr

/-- The staging note of an `add` item, a concept of the user's bundle. -/
structure StagingNote where
  id : Uuid
  userId : Uuid
  content : String
  deriving DecidableEq, Repr

/-- The arguments of one `enqueue_mutation` call. SOURCE: tools.rs:447-453 -/
structure Request where
  userId : Uuid
  tool : QueueTool
  content : String
  argsJson : String
  source : String
  depthCap : ℕ
  deriving DecidableEq, Repr

/-- The queue tunables the drain reads. SOURCE: queue_worker.rs:41-76 -/
structure QueueLimits where
  maxAttempts : ℕ := 3
  ageDeadlineSecs : ℕ := 600
  backoffSecs : List ℕ := [30, 60, 120]
  deriving DecidableEq, Repr

/-- Why an agent run failed. SOURCE: queue_worker.rs:844-856 -/
inductive AgentError
  | stepCapExceeded
  | llmEmptyResponse
  | llmBackendDown (error : String)
  | llmVerdict (error : String)
  | badToolArgs (error : String)
  | store (error : String)
  deriving DecidableEq, Repr

/-- Is the error worth a retry? SOURCE: queue_worker.rs:844-856 -/
def isTransient : AgentError → Bool
  | .stepCapExceeded | .llmEmptyResponse | .llmBackendDown _ => true
  | .llmVerdict _ | .badToolArgs _ | .store _ => false

/-- The bounded error text the drain stores. -/
def shortDetail : AgentError → String
  | .stepCapExceeded => "step cap exceeded"
  | .llmEmptyResponse => "empty response"
  | .llmBackendDown error | .llmVerdict error | .badToolArgs error | .store error => error

/-- The outcome of `run_item`. -/
inductive AgentOutcome
  | ok (filesChanged : List String) (summary : String)
  | err (error : AgentError)
  deriving DecidableEq, Repr

/-- The outcome of the deterministic fallback. -/
inductive FallbackOutcome
  | ok (paths : List String)
  | err (error : String)
  deriving DecidableEq, Repr

/-! ## Program counters -/

/-- Where an `enqueue_mutation` call stands: each constructor names the last storage
step it has taken. SOURCE: tools.rs:447-530 -/
inductive EnqueuePc
  | idle
  | counted (req : Request)
  | inserted (req : Request) (id : Uuid)
  | blobWritten (req : Request) (id : Uuid)
  | noteWritten (req : Request) (id : Uuid)
  | activated (req : Request) (id : Uuid)
  | returnedOk (id : Uuid)
  | returnedCapacity
  deriving DecidableEq, Repr

/-- What is left of the pass's `for uid in users` loop, with its progress count. -/
structure Cont where
  users : List Uuid
  progress : ℕ
  deriving DecidableEq, Repr

/-- The cleanup that follows a row's settlement. -/
inductive Cleanup
  | none
  | blob
  | blobThenNote
  | blobThenReconcile
  deriving DecidableEq, Repr

/-- The row update that settles a claimed item. -/
inductive Settle
  | done (paths : List String) (detail : Detail)
  | failed (next : Instant) (detail : Detail)
  | dead (detail : Detail) (cleanup : Cleanup)
  deriving DecidableEq, Repr

/-- The cleanup after a settlement. SOURCE: queue_worker.rs:364-660 -/
def Settle.cleanup : Settle → Cleanup
  | .done _ _ => .blobThenNote
  | .failed _ _ => .none
  | .dead _ cleanup => cleanup

/-- Where a claimed item stands. SOURCE: queue_worker.rs:332-690 -/
inductive ItemPhase
  | claimed
  | readPayload
  | run (payload : MutationPayload)
  | fallbackRead (why : String)
  | fallbackRun (payload : MutationPayload) (why : String)
  | settle (write : Settle)
  | dropPayload (cleanup : Cleanup)
  | dropNote
  deriving DecidableEq, Repr

/-- What a note reconciliation returns to. -/
inductive AfterReconcile
  | process
  | finish
  deriving DecidableEq, Repr

/-- Where a drain pass stands. SOURCE: queue_worker.rs:209-324 -/
inductive DrainPc
  | idle
  | staging (todo : List MutationQueueItem)
  | stagingFound (item : MutationQueueItem) (todo : List MutationQueueItem)
  | stagingMissing (item : MutationQueueItem) (todo : List MutationQueueItem)
  | stagingDead (item : MutationQueueItem) (todo : List MutationQueueItem)
  | loopTop
  | users (k : Cont)
  | reconcile (uid : Uuid) (todo : List Uuid) (after : AfterReconcile) (k : Cont)
  | reconcileNote (id uid : Uuid) (todo : List Uuid) (after : AfterReconcile) (k : Cont)
  | process (uid : Uuid) (k : Cont)
  | claiming (uid : Uuid) (candidates : List Uuid) (k : Cont)
  | item (phase : ItemPhase) (item : MutationQueueItem) (k : Cont)
  deriving DecidableEq, Repr

/-! ## The shared state -/

/-- What happened to a payload blob, kept to state the claims about it: a run of the
item read it, or it was removed from disk. -/
inductive BlobEvent
  | read (id : Uuid)
  | deleted (id : Uuid)
  deriving DecidableEq, Repr

/-- The storage and every task's program counter. -/
structure State where
  table : Table
  blob : Uuid → Option MutationPayload
  notes : List StagingNote
  enq : ℕ → EnqueuePc
  drain : ℕ → DrainPc
  /-- Newest first. -/
  blobLog : List BlobEvent

/-- An empty queue with no task in flight. -/
def State.init : State where
  table := []
  blob _ := none
  notes := []
  enq _ := .idle
  drain _ := .idle
  blobLog := []

/-- Move one enqueuer. -/
def State.setEnq (s : State) (e : ℕ) (pc : EnqueuePc) : State :=
  { s with enq := Function.update s.enq e pc }

/-- Move one drain. -/
def State.setDrain (s : State) (d : ℕ) (pc : DrainPc) : State :=
  { s with drain := Function.update s.drain d pc }

/-- Remove a payload blob; a no-op when it is absent. SOURCE: queue_worker.rs:740-755 -/
def State.deletePayload (s : State) (id : Uuid) : State :=
  match s.blob id with
  | none => s
  | some _ =>
    { s with blob := Function.update s.blob id none, blobLog := .deleted id :: s.blobLog }

/-- Remove a staging note, if there is one. SOURCE: queue_worker.rs:760-775 -/
def State.deleteNote (s : State) (id : Uuid) : State :=
  { s with notes := s.notes.filter fun n => decide (n.id ≠ id) }

/-! ## `enqueue_mutation` -/

/-- What the environment decides for a step of an enqueuer. -/
structure EnqueueChoice where
  req : Request
  id : Uuid
  now : Instant
  deriving DecidableEq, Repr

/-- One step of an enqueue call. SOURCE: tools.rs:447-530 -/
def enqueueStep (s : State) (e : ℕ) (c : EnqueueChoice) : Option State :=
  match s.enq e with
  | .idle =>
    if c.req.depthCap ≤ depth s.table c.req.userId then some (s.setEnq e .returnedCapacity)
    else some (s.setEnq e (.counted c.req))
  | .counted req =>
    -- `Uuid::new_v4` never repeats an identifier
    if lookup s.table c.id = none then
      some ({ s with table := enqueue s.table c.id req.userId req.tool req.source c.now }.setEnq
        e (.inserted req c.id))
    else none
  | .inserted req id =>
    let payload := { tool := req.tool, argsJson := req.argsJson, content := req.content }
    some ({ s with blob := Function.update s.blob id (some payload) }.setEnq
      e (.blobWritten req id))
  | .blobWritten req id =>
    if req.tool = .add then
      let note := { id, userId := req.userId, content := req.content }
      some ({ s with notes := (s.deleteNote id).notes ++ [note] }.setEnq e (.noteWritten req id))
    else some ({ s with table := activate s.table id c.now }.setEnq e (.activated req id))
  | .noteWritten req id =>
    some ({ s with table := activate s.table id c.now }.setEnq e (.activated req id))
  | .activated _ id => some (s.setEnq e (.returnedOk id))
  | .returnedOk _ | .returnedCapacity => none

/-! ## `run_pending` -/

/-- What the environment decides for a step of a drain. -/
structure DrainChoice where
  now : Instant
  keyRecovered : Bool := true
  keyError : String := ""
  backendRed : Bool := false
  permit : Bool := true
  agent : AgentOutcome := .ok [] ""
  fallback : FallbackOutcome := .ok []
  deriving DecidableEq, Repr

/-- Seconds since the item was enqueued. SOURCE: queue_worker.rs:826-830 -/
def agePast (now : Instant) (item : MutationQueueItem) : ℕ := now - item.createdAt

/-- The retry backoff after a failed attempt: the schedule indexed by `attempts − 1`,
clamped. SOURCE: queue_worker.rs:478-483 -/
def backoff (lim : QueueLimits) (attempts : ℕ) : ℕ :=
  lim.backoffSecs.getD (min (attempts - 1) (lim.backoffSecs.length - 1)) 0

/-- What follows a finished agent run. SOURCE: queue_worker.rs:463-512 -/
def afterRun (lim : QueueLimits) (now : Instant) (item : MutationQueueItem) :
    AgentOutcome → ItemPhase
  | .ok files summary => .settle (.done files (.summary summary))
  | .err e =>
    if isTransient e ∧ item.attempts < lim.maxAttempts ∧
        agePast now item < lim.ageDeadlineSecs then
      .settle (.failed (now + backoff lim item.attempts)
        (.attempt item.attempts (shortDetail e)))
    else if isTransient e then
      .fallbackRead ("attempts exhausted (" ++ toString item.attempts ++ " of " ++
        toString lim.maxAttempts ++ ")")
    else .fallbackRead ("deterministic error: " ++ shortDetail e)

/-- What follows the deterministic fallback. SOURCE: queue_worker.rs:640-690 -/
def afterFallback (why : String) : FallbackOutcome → ItemPhase
  | .ok paths => .settle (.done paths (.viaFallback why))
  | .err error => .settle (.dead (.fallbackFailed error) .blobThenNote)

/-- The row update of a settlement. -/
def Settle.apply (w : Settle) (t : Table) (id : Uuid) (now : Instant) : Table :=
  match w with
  | .done paths detail => markDone t id paths detail now
  | .failed next detail => markFailed t id next detail now
  | .dead detail _ => markDead t id detail now

/-- The item is settled: the loop goes on with one more item processed. -/
def Cont.processed (k : Cont) : Cont := { k with progress := k.progress + 1 }

/-- Where the pass stands once the payload blob is dropped. -/
def afterDrop (s : State) (c : DrainChoice) (cleanup : Cleanup) (item : MutationQueueItem)
    (k : Cont) : DrainPc :=
  match cleanup with
  | .none | .blob => .users k.processed
  | .blobThenNote => .item .dropNote item k
  | .blobThenReconcile =>
    if c.keyRecovered then
      .reconcile item.userId ((s.notes.filter (·.userId = item.userId)).map (·.id)) .finish k
    else .users k.processed

/-- One step of a claimed item. SOURCE: queue_worker.rs:332-690 -/
def itemStep (lim : QueueLimits) (s : State) (d : ℕ) (c : DrainChoice) (phase : ItemPhase)
    (item : MutationQueueItem) (k : Cont) : State :=
  match phase with
  | .claimed =>
    if c.keyRecovered then s.setDrain d (.item .readPayload item k)
    else if lim.ageDeadlineSecs + 300 ≤ agePast c.now item then
      s.setDrain d (.item (.settle (.dead .fallbackUnavailable .none)) item k)
    else
      s.setDrain d (.item (.settle (.failed (c.now + 30) (.keyRecoveryFailed c.keyError))) item k)
  | .readPayload =>
    match s.blob item.id with
    | none => s.setDrain d (.item (.settle (.dead .payloadMissing .blobThenReconcile)) item k)
    | some payload =>
      { s with blobLog := .read item.id :: s.blobLog }.setDrain d
        (.item (if lim.ageDeadlineSecs ≤ agePast c.now item then
            .fallbackRead "age deadline passed" else .run payload) item k)
  | .run _ => s.setDrain d (.item (afterRun lim c.now item c.agent) item k)
  | .fallbackRead why =>
    match s.blob item.id with
    | none => s.setDrain d (.item (.settle (.dead .payloadMissing .blob)) item k)
    | some payload =>
      { s with blobLog := .read item.id :: s.blobLog }.setDrain d
        (.item (.fallbackRun payload why) item k)
  | .fallbackRun _ why => s.setDrain d (.item (afterFallback why c.fallback) item k)
  | .settle w =>
    { s with table := w.apply s.table item.id c.now }.setDrain d
      (match w.cleanup with
        | .none => .users k.processed
        | cleanup => .item (.dropPayload cleanup) item k)
  | .dropPayload cleanup =>
    let s' := s.deletePayload item.id
    s'.setDrain d (afterDrop s' c cleanup item k)
  | .dropNote => (s.deleteNote item.id).setDrain d (.users k.processed)

/-- One step of a drain pass. SOURCE: queue_worker.rs:209-324, 332-364 -/
def drainStep (lim : QueueLimits) (s : State) (d : ℕ) (c : DrainChoice) : State :=
  match s.drain d with
  | .idle => s.setDrain d (.staging (stagingRows s.table))
  | .staging [] => s.setDrain d .loopTop
  | .staging (item :: todo) =>
    if c.keyRecovered then
      if (s.blob item.id).isSome then s.setDrain d (.stagingFound item todo)
      else s.setDrain d (.stagingMissing item todo)
    else s.setDrain d (.staging todo)
  | .stagingFound item todo =>
    { s with table := activate s.table item.id c.now }.setDrain d (.staging todo)
  | .stagingMissing item todo =>
    { s with table := markDead s.table item.id .stagingPayloadMissing c.now }.setDrain d
      (.stagingDead item todo)
  | .stagingDead item todo => (s.deletePayload item.id).setDrain d (.staging todo)
  | .loopTop =>
    match queueUsersWithDue s.table c.now with
    | [] => s.setDrain d .idle
    | users => s.setDrain d (.users ⟨users, 0⟩)
  | .users ⟨[], progress⟩ => s.setDrain d (if progress = 0 then .idle else .loopTop)
  | .users ⟨uid :: users, progress⟩ =>
    s.setDrain d (if c.keyRecovered then
        .reconcile uid ((s.notes.filter (·.userId = uid)).map (·.id)) .process ⟨users, progress⟩
      else .process uid ⟨users, progress⟩)
  | .reconcile uid [] .process k => s.setDrain d (.process uid k)
  | .reconcile _ [] .finish k => s.setDrain d (.users k.processed)
  | .reconcile uid (id :: todo) after k =>
    if ((lookup s.table id).filter fun r => decide (r.userId = uid)).any (·.status.terminal) then
      s.setDrain d (.reconcileNote id uid todo after k)
    else s.setDrain d (.reconcile uid todo after k)
  | .reconcileNote id uid todo after k =>
    (s.deleteNote id).setDrain d (.reconcile uid todo after k)
  | .process uid k =>
    if c.backendRed ∨ ¬ c.permit then s.setDrain d (.users k)
    else s.setDrain d (.claiming uid (dueCandidates s.table uid c.now) k)
  | .claiming _ [] k => s.setDrain d (.users k)
  | .claiming uid (id :: candidates) k =>
    if claimable s.table id then
      let table := claim s.table id c.now
      match lookup table id with
      | none => s
      | some item => { s with table }.setDrain d (.item .claimed item k)
    else s.setDrain d (.claiming uid candidates k)
  | .item phase item k => itemStep lim s d c phase item k

/-! ## The system -/

/-- A step of one of the tasks. -/
inductive Action
  | enqueue (e : ℕ) (c : EnqueueChoice)
  | drain (d : ℕ) (c : DrainChoice)
  deriving DecidableEq, Repr

/-- The interleaved system. -/
def step (lim : QueueLimits) (s : State) : Action → Option State
  | .enqueue e c => enqueueStep s e c
  | .drain d c => some (drainStep lim s d c)

end Mycelium.Model.QueueWorker
