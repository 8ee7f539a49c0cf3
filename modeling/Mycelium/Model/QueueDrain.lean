import Mycelium.Lib.Fallible
import Mycelium.Model.QueueWorker

/-!
# One drain pass and the ways out of an item

`process_next_for_user`, `run_fallback` and `finish_success`
(`mycelium-librarian/src/queue_worker.rs`) with every exit they have, as programs that
may leave early: a `?` in the source is `Fallible.ofExcept` or `throw` here, and the rows
a program has written before it leaves stay written. `run_pending` is the loop around
them, one visit of a user per step.

What the environment decides in one visit is an `Outcomes`: key recovery, the two reads of
the payload, the agent run, the operations of the deterministic fallback, the cleanup of
the staging note, and the clock at each place that reads it. The updates of
`mutation_queue` succeed, and so do the statements of the pass outside an item. Error
texts are as `short_detail` bounds them.
-/

set_option autoImplicit false

namespace Mycelium.Model.QueueDrain

open Mycelium.Model.MutationQueue Fallible
open Mycelium.Model.QueueWorker (AgentError AgentOutcome MutationPayload QueueLimits StagingNote
  agePast backoff isTransient shortDetail)

/-- Why a call of the drain left. SOURCE: queue_worker.rs:123-133 -/
inductive QueueWorkerError
  | db (error : String)
  | queue (error : String)
  | store (error : String)
  | file (error : String)
  deriving DecidableEq, Repr

/-- What `ConceptStore::get` answers for a staging note that it does not return. -/
inductive NoteError
  | notFound
  | other (error : String)
  deriving DecidableEq, Repr

/-- How an agent run ended: it returned, or it panicked and was caught.
SOURCE: queue_worker.rs:437-455 -/
inductive RunEnd
  | returned (result : AgentOutcome)
  | panicked (message : String)
  deriving DecidableEq, Repr

/-- A panic never reached a model verdict: it takes the deterministic-error path.
SOURCE: queue_worker.rs:441-455 -/
def RunEnd.result : RunEnd → AgentOutcome
  | .returned result => result
  | .panicked message => .err (.badToolArgs ("agent run panicked: " ++ message))

/-- What the environment decides in one visit. -/
structure Outcomes where
  atClaim : Instant := 0
  atAge : Instant := 0
  atRetry : Instant := 0
  atMark : Instant := 0
  backendRed : Bool := false
  permit : Bool := true
  /-- Reading back the row just claimed failed. -/
  rereadError : Option String := none
  key : Except String Unit := .ok ()
  read : Except String (Option MutationPayload) := .ok none
  run : RunEnd := .returned (.ok [] "")
  /-- The fallback reads the payload again. -/
  fallbackRead : Except String (Option MutationPayload) := .ok none
  /-- `direct_write_add` or `dated_addendum_update`. -/
  integrate : Except String String := .ok ""
  listBefore : Except String (List String) := .ok []
  maintain : Except String String := .ok ""
  listAfter : Except String (List String) := .ok []
  payloadDeleted : Bool := true
  noteGet : Except NoteError Unit := .error .notFound
  noteDelete : Except String Unit := .ok ()
  /-- Key recovery for the rows of the staging reconciliation. -/
  stagingKey : Uuid → Bool := fun _ => true
  /-- `reconcile_notes` got the user's key and could list the concepts. -/
  notesListed : Bool := true
  noteReconciled : Uuid → Bool := fun _ => true

/-- The storage and the worker's counters. -/
structure Storage where
  table : Table
  blob : Uuid → Option MutationPayload
  notes : List StagingNote
  integratedCount : ℕ := 0
  fallbackCount : ℕ := 0
  deadCount : ℕ := 0

/-- A call of the drain. -/
abbrev Drain (α : Type) := Prog QueueWorkerError Storage α

/-! ## Statements -/

/-- An `UPDATE` of the queue. -/
def updateRows (f : Table → Table) : Drain Unit := modify fun st => { st with table := f st.table }

/-- Drop an item's payload blob, best effort. SOURCE: queue_worker.rs:744-755 -/
def deletePayload (o : Outcomes) (id : Uuid) : Drain Unit :=
  modify fun st =>
    if o.payloadDeleted then { st with blob := Function.update st.blob id none } else st

/-- Drop an item's staging note. SOURCE: queue_worker.rs:760-775 -/
def deleteStagingNote (o : Outcomes) (id : Uuid) : Drain Unit :=
  match o.noteGet with
  | .ok () => do
    ofExcept .store o.noteDelete
    modify fun st => { st with notes := st.notes.filter fun n => decide (n.id ≠ id) }
  | .error .notFound => pure ()
  | .error (.other e) => throw (.store e)

/-- The user's notes whose row is terminal are dropped; errors are logged and swallowed.
SOURCE: queue_worker.rs:781-809 -/
def reconcileNotes (o : Outcomes) (uid : Uuid) (st : Storage) : Storage :=
  let terminal (n : StagingNote) : Bool :=
    ((lookup st.table n.id).filter fun r => decide (r.userId = uid)).any (·.status.terminal)
  if o.notesListed then
    { st with notes := st.notes.filter fun n =>
        !(decide (n.userId = uid) && terminal n && o.noteReconciled n.id) }
  else st

/-- The claim: the first candidate whose conditional `UPDATE` affects a row.
SOURCE: mutation_queue.rs:154-172 -/
def claimFirst (o : Outcomes) (uid : Uuid) : List Uuid → Drain (Option MutationQueueItem)
  | [] => pure none
  | id :: candidates => do
    let st ← get
    if claimable st.table id then
      updateRows (claim · id o.atClaim)
      match o.rereadError with
      | some e => throw (.queue e)
      | none =>
        let st ← get
        pure ((lookup st.table id).filter fun r => decide (r.userId = uid))
    else claimFirst o uid candidates

/-- SOURCE: mutation_queue.rs:138-174 -/
def claimDueForUser (o : Outcomes) (uid : Uuid) : Drain (Option MutationQueueItem) := do
  let st ← get
  claimFirst o uid (dueCandidates st.table uid o.atClaim)

/-! ## The fallback and the ends of an item -/

/-- The paths in one listing and not in the other, in path order. -/
def pathDiff (before after : List String) : List String :=
  ((before.filter (· ∉ after) ++ after.filter (· ∉ before)).dedup).insertionSort (· ≤ ·)

/-- The deterministic integration of a payload; for a maintenance run a failed listing or
a failed repair leaves the call. SOURCE: queue_worker.rs:643-674 -/
def integratePayload (o : Outcomes) (payload : MutationPayload) :
    Drain (Except String (List String)) :=
  match payload.tool with
  | .add | .update => pure (o.integrate.map fun p => [p])
  | .maintain => do
    let before ← ofExcept .store o.listBefore
    let _summary ← ofExcept .store o.maintain
    let after ← ofExcept .store o.listAfter
    pure (.ok (pathDiff before after))

/-- The row is marked from the outcome of the integration. SOURCE: queue_worker.rs:675-711 -/
def finishFallback (o : Outcomes) (item : MutationQueueItem) (provenance : String) :
    Except String (List String) → Drain Unit
  | .ok paths => do
    updateRows (markDone · item.id paths (.viaFallback provenance) o.atMark)
    deletePayload o item.id
    deleteStagingNote o item.id
    modify fun st => { st with fallbackCount := st.fallbackCount + 1 }
  | .error e => do
    updateRows (markDead · item.id (.fallbackFailed e) o.atMark)
    deletePayload o item.id
    deleteStagingNote o item.id
    modify fun st => { st with deadCount := st.deadCount + 1 }

/-- The fallback for one item; without the master key (`keyed = false`) it cannot run
either and the item is dead. SOURCE: queue_worker.rs:592-713 -/
def runFallback (o : Outcomes) (item : MutationQueueItem) (keyed : Bool) (provenance : String) :
    Drain Unit :=
  if keyed then do
    let payload? ← ofExcept .file o.fallbackRead
    match payload? with
    | none =>
      updateRows (markDead · item.id .payloadMissing o.atMark)
      deletePayload o item.id
      modify fun st => { st with deadCount := st.deadCount + 1 }
    | some payload =>
      let outcome ← integratePayload o payload
      finishFallback o item provenance outcome
  else do
    updateRows (markDead · item.id .fallbackUnavailable o.atMark)
    modify fun st => { st with deadCount := st.deadCount + 1 }

/-- SOURCE: queue_worker.rs:716-732 -/
def finishSuccess (o : Outcomes) (item : MutationQueueItem) (files : List String)
    (summary : String) : Drain Unit := do
  updateRows (markDone · item.id files (.summary summary) o.atMark)
  deletePayload o item.id
  deleteStagingNote o item.id
  modify fun st => { st with integratedCount := st.integratedCount + 1 }

/-- Re-arm the retry timer without spending an attempt. SOURCE: queue_worker.rs:814-824 -/
def deferRetry (o : Outcomes) (item : MutationQueueItem) (why : String) : Drain Unit :=
  updateRows (markFailed · item.id (o.atRetry + 30) (.keyRecoveryFailed why) o.atMark)

/-- A payload that is not there or cannot be read: the item is dead.
SOURCE: queue_worker.rs:380-422 -/
def payloadDead (o : Outcomes) (item : MutationQueueItem) (detail : Detail) : Drain Unit := do
  updateRows (markDead · item.id detail o.atMark)
  deletePayload o item.id
  modify (reconcileNotes o item.userId)

/-- Is a failed run worth another attempt? SOURCE: queue_worker.rs:469-472 -/
def retries (lim : QueueLimits) (o : Outcomes) (item : MutationQueueItem) (e : AgentError) :
    Bool :=
  isTransient e && decide (item.attempts < lim.maxAttempts) &&
    decide (agePast o.atRetry item < lim.ageDeadlineSecs)

/-- Why a failed run takes the fallback. SOURCE: queue_worker.rs:495-502 -/
def fallbackReason (lim : QueueLimits) (item : MutationQueueItem) (e : AgentError) : String :=
  if isTransient e then
    "attempts exhausted (" ++ toString item.attempts ++ " of " ++ toString lim.maxAttempts ++ ")"
  else "deterministic error: " ++ shortDetail e

/-- What follows the agent run. SOURCE: queue_worker.rs:457-509 -/
def afterRun (lim : QueueLimits) (o : Outcomes) (item : MutationQueueItem) :
    AgentOutcome → Drain Unit
  | .ok files summary => finishSuccess o item files summary
  | .err e =>
    if retries lim o item e then
      updateRows (markFailed · item.id (o.atRetry + backoff lim item.attempts)
        (.attempt item.attempts (shortDetail e)) o.atMark)
    else runFallback o item true (fallbackReason lim item e)

/-- The way of a claimed item. SOURCE: queue_worker.rs:356-509 -/
def processItem (lim : QueueLimits) (o : Outcomes) (item : MutationQueueItem) : Drain Unit :=
  match o.key with
  | .error e =>
    if lim.ageDeadlineSecs + 300 ≤ agePast o.atAge item then
      runFallback o item false ("master-key recovery failed: " ++ e)
    else deferRetry o item e
  | .ok () =>
    match o.read with
    | .ok none => payloadDead o item .payloadMissing
    | .error e => payloadDead o item (.payloadUnreadable e)
    | .ok (some _) =>
      if lim.ageDeadlineSecs ≤ agePast o.atAge item then
        runFallback o item true "age deadline passed"
      else afterRun lim o item o.run.result

/-- One user's next due item: was one processed? SOURCE: queue_worker.rs:332-509 -/
def processNextForUser (lim : QueueLimits) (o : Outcomes) (uid : Uuid) : Drain Bool :=
  if o.backendRed then pure false
  else if !o.permit then pure false
  else do
    let item? ← claimDueForUser o uid
    match item? with
    | none => pure false
    | some item =>
      processItem lim o item
      pure true

/-! ## The pass -/

/-- One row of the staging reconciliation. SOURCE: queue_worker.rs:279-322 -/
def recoverStagingRow (o : Outcomes) (st : Storage) (item : MutationQueueItem) : Storage :=
  if o.stagingKey item.userId then
    if (st.blob item.id).isSome then { st with table := activate st.table item.id o.atClaim }
    else
      { st with table := markDead st.table item.id .stagingPayloadMissing o.atClaim,
                blob := Function.update st.blob item.id none }
  else st

/-- SOURCE: queue_worker.rs:278-324 -/
def recoverStaging (o : Outcomes) (st : Storage) : Storage :=
  (stagingRows st.table).foldl (recoverStagingRow o) st

/-- Where `run_pending` stands. -/
inductive PassPc
  | start
  | listing (processed : ℕ)
  | round (users : List Uuid) (progress processed : ℕ)
  | returnedOk (processed : ℕ)
  /-- The item of `uid` failed at `now`, and the pass with it. -/
  | returnedErr (error : QueueWorkerError) (uid : Uuid) (now : Instant)
  deriving DecidableEq, Repr

/-- A pass, with the rows its visits have claimed. -/
structure Pass where
  storage : Storage
  pc : PassPc
  claimed : List Uuid

/-- A pass over this storage before its first statement. -/
def Pass.begin (st : Storage) : Pass := { storage := st, pc := .start, claimed := [] }

/-- The row a visit of the user claims: the first candidate of the `SELECT`. -/
def claimedBy (o : Outcomes) (uid : Uuid) (t : Table) : Option Uuid :=
  if o.backendRed ∨ ¬ o.permit then none
  else (dueCandidates t uid o.atClaim).find? (claimable t ·)

/-- One visit of the round. SOURCE: queue_worker.rs:223-231 -/
def visit (lim : QueueLimits) (p : Pass) (o : Outcomes) (uid : Uuid) (users : List Uuid)
    (progress processed : ℕ) : Pass :=
  let st := reconcileNotes o uid p.storage
  let claimed := (claimedBy o uid st.table).toList ++ p.claimed
  match outcome (processNextForUser lim o uid) st with
  | (.ok true, storage) => { storage, claimed, pc := .round users (progress + 1) (processed + 1) }
  | (.ok false, storage) => { storage, claimed, pc := .round users progress processed }
  | (.error e, storage) => { storage, claimed, pc := .returnedErr e uid o.atMark }

/-- One step of `run_pending`. SOURCE: queue_worker.rs:209-236 -/
def step (lim : QueueLimits) (p : Pass) (o : Outcomes) : Option Pass :=
  match p.pc with
  | .start => some { p with storage := recoverStaging o p.storage, pc := .listing 0 }
  | .listing processed =>
    match queueUsersWithDue p.storage.table o.atClaim with
    | [] => some { p with pc := .returnedOk processed }
    | users => some { p with pc := .round users 0 processed }
  | .round [] progress processed =>
    some { p with pc := if progress = 0 then .returnedOk processed else .listing processed }
  | .round (uid :: users) progress processed => some (visit lim p o uid users progress processed)
  | .returnedOk _ | .returnedErr _ _ _ => none

end Mycelium.Model.QueueDrain
