import Mycelium.Model.ConceptStore

/-!
# The operations of the concept store, step by step

Every call on the store is a task that takes one storage step at a time: an SQL
statement or transaction, a file read, an atomic file write. `Pc` is the point a call
stands at with the local data it still needs, `taskStep` its next step. The system
`step` interleaves the steps of any number of calls; a call may be dropped at any point
(`abort`) and the process may crash between any two steps, which loses every call in
flight and what was in memory.

The argument `pre` of the write and delete points is the pre-state the call read: the
bytes of the file, or `none` when it found nothing to overwrite.

SOURCE: crates/mycelium-store/src/concept_store.rs
-/

set_option autoImplicit false

namespace Mycelium.Model.StoreTasks

open Mycelium.Model.Text Mycelium.Model.Concepts Mycelium.Model.Revisions
open Mycelium.Model.ConceptStore

/-! ## Calls -/

inductive Call where
  | put (c : Concept)
  | putBatch (cs : List Concept)
  | putBatchInternal (cs : List Concept)
  | restore (path : String) (no : ℕ)
  | delete (path : String)
  | deleteInternal (path : String)
  | reindex (path : String)
  deriving DecidableEq

/-- The arguments of `put_batch_with_revision` next to its concepts. -/
structure Job where
  handle : Handle
  tag : Option RevisionOp
  summary : Option String

/-- What a step takes from outside: the readings of the clock and the process-wide
retention setting. -/
structure Choice where
  clock : ℕ → String := fun _ => ""
  retention : ℕ := defaultRevisionRetention

/-- Where a call stands. -/
inductive Pc where
  | idle
  | restoreGet (path : String) (no : ℕ) (h : Handle)
  | next (todo : List Concept) (job : Job)
  | lookup (c : Concept) (markdown : String) (todo : List Concept) (job : Job)
  | readPre (c : Concept) (markdown : String) (todo : List Concept) (job : Job)
  | record (c : Concept) (markdown : String) (op : RevisionOp) (payload : String)
      (pre : Option String) (todo : List Concept) (job : Job)
  | writeFile (c : Concept) (markdown : String) (pre : Option String) (todo : List Concept)
      (job : Job)
  | register (c : Concept) (todo : List Concept) (job : Job)
  | addIndex (c : Concept) (todo : List Concept) (job : Job)
  | enqueueVector (c : Concept) (todo : List Concept) (job : Job)
  | regenList (deleted : Option String)
  | regenWrite (pending : List (String × String)) (deleted : Option String)
  | removeVector (path : String)
  | invalidate
  | deleteRead (path : String) (h : Handle)
  | deleteRecord (path pre : String) (h : Handle)
  | deleteEntry (path pre : String)
  | deleteIndex (path pre : String)
  | deleteFile (path pre : String)
  | reindexRead (path : String)
  | reindexAdd (c : Concept)
  | finished (result : Except StoreError Unit)

/-- `put_batch_with_revision` up to its loop: stamping and validation come before any
write. SOURCE: concept_store.rs:291-328 -/
def putBatchWithRevision (cx : Codec) (cs : List Concept) (job : Job) (clock : ℕ → String) : Pc :=
  match cs with
  | [] => .finished (.ok ())
  | cs =>
    match stampAll cx job.handle clock 0 cs with
    | .error e => .finished (.error e)
    | .ok stamped => .next stamped job

/-- The guards of a call before its first storage step. -/
def Call.begin (cx : Codec) (h : Handle) (clock : ℕ → String) : Call → Pc
  | .put c =>
    if isQueuePath c.sourcePath then .finished (.error (.queuePath c.sourcePath))
    else putBatchWithRevision cx [c] { handle := h, tag := h.revisionOp, summary := none } clock
  | .putBatch cs =>
    match cs.find? fun c => isQueuePath c.sourcePath with
    | some c => .finished (.error (.queuePath c.sourcePath))
    | none =>
      putBatchWithRevision cx cs { handle := h, tag := h.revisionOp, summary := none } clock
  | .putBatchInternal cs =>
    putBatchWithRevision cx cs { handle := h, tag := h.revisionOp, summary := none } clock
  | .restore path no =>
    if isQueuePath path then .finished (.error (.queuePath path)) else .restoreGet path no h
  | .delete path =>
    if isQueuePath path then .finished (.error (.queuePath path)) else .deleteRead path h
  | .deleteInternal path => .deleteRead path h
  | .reindex path =>
    if isQueuePath path then .finished (.error (.queuePath path)) else .reindexRead path

/-- A batch is over at once or enters its loop with the stamped concepts. -/
theorem putBatchWithRevision_cases {P : Pc → Prop} {cx : Codec} {cs : List Concept} {job : Job}
    {clock : ℕ → String} (hover : ∀ r, P (.finished r))
    (hnext : ∀ stamped, stampAll cx job.handle clock 0 cs = .ok stamped → P (.next stamped job)) :
    P (putBatchWithRevision cx cs job clock) := by
  cases cs with
  | nil => exact hover _
  | cons c cs =>
    simp only [putBatchWithRevision]
    cases hst : stampAll cx job.handle clock 0 (c :: cs) with
    | error e => exact hover _
    | ok stamped => exact hnext stamped hst

/-- Where a call starts: it is refused, or it is a batch, a restore, a delete or a reindex. -/
theorem begin_cases {P : Pc → Prop} {cx : Codec} {h : Handle} {clock : ℕ → String} {call : Call}
    (hover : ∀ r, P (.finished r))
    (hbatch : ∀ cs, P (putBatchWithRevision cx cs
      { handle := h, tag := h.revisionOp, summary := none } clock))
    (hrestore : ∀ path no, P (.restoreGet path no h))
    (hdelete : ∀ path, P (.deleteRead path h))
    (hreindex : ∀ path, call = .reindex path → P (.reindexRead path)) :
    P (call.begin cx h clock) := by
  cases call with
  | put c =>
    simp only [Call.begin]
    split
    · exact hover _
    · exact hbatch [c]
  | putBatch cs =>
    simp only [Call.begin]
    split
    · exact hover _
    · exact hbatch cs
  | putBatchInternal cs => exact hbatch cs
  | restore path no =>
    simp only [Call.begin]
    split
    · exact hover _
    · exact hrestore path no
  | delete path =>
    simp only [Call.begin]
    split
    · exact hover _
    · exact hdelete path
  | deleteInternal path => exact hdelete path
  | reindex path =>
    simp only [Call.begin]
    split
    · exact hover _
    · exact hreindex path rfl

/-! ## Steps -/

/-- The revision row of a delete: its source is the label of the actor.
SOURCE: concept_store.rs:628-643 -/
def deleteDraft (path pre : String) (h : Handle) : Draft where
  path := path
  op := .delete
  source := h.provenance.getD ""
  summary := "concept deleted"
  payload := pre

/-- The revision row of a put. SOURCE: concept_store.rs:351-369 -/
def putDraft (c : Concept) (op : RevisionOp) (payload : String) (job : Job) :
    Except RevisionsError Draft := do
  let summary ←
    match job.summary with
    | some s => pure s
    | none => opSummary op none
  return { path := c.sourcePath, op, source := revSource job.handle c, summary, payload }

/-- INTERNAL: the draft of a put has its path and its payload. -/
theorem putDraft_eq_ok {c : Concept} {op : RevisionOp} {payload : String} {job : Job} {d : Draft}
    (hd : putDraft c op payload job = .ok d) : d.path = c.sourcePath ∧ d.payload = payload := by
  unfold putDraft at hd
  cases hsum : job.summary with
  | some s =>
    simp only [hsum, pure, Except.pure, bind, Except.bind] at hd
    cases hd
    exact ⟨rfl, rfl⟩
  | none =>
    simp only [hsum, pure, Except.pure, bind, Except.bind] at hd
    split at hd
    · cases hd
    · cases hd
      exact ⟨rfl, rfl⟩

/-- The next storage step of a call. SOURCE: concept_store.rs:329-413 (put),
434-454 (restore), 466-562 (index.md), 599-606 (reindex), 612-665 (delete) -/
def taskStep (cx : Codec) (s : Store) (ch : Choice) : Pc → Store × Pc
  | .idle => (s, .idle)
  | .restoreGet path no h =>
    match Revisions.get s.revisions path no with
    | .error e => (s, .finished (.error (.revisions e)))
    | .ok markdown =>
      match Concept.parse cx path markdown with
      | .error e => (s, .finished (.error (.parse e)))
      | .ok c =>
        let job : Job :=
          { handle := h, tag := some .restore, summary := (opSummary .restore (some no)).toOption }
        (s, putBatchWithRevision cx [c] job ch.clock)
  | .next [] _ => (s, .regenList none)
  | .next (c :: todo) job =>
    match c.toMarkdown cx with
    | .error e => (s, .finished (.error (.parse e)))
    | .ok markdown =>
      -- staging notes of the mutation queue record nothing
      if isQueuePath c.sourcePath then (s, .writeFile c markdown none todo job)
      else
        match job.tag with
        | none => (s, .lookup c markdown todo job)
        | some .create => (s, .record c markdown .create markdown none todo job)
        | some _ => (s, .readPre c markdown todo job)
  | .lookup c markdown todo job =>
    if s.registered c.sourcePath then (s, .readPre c markdown todo job)
    else (s, .record c markdown .create markdown none todo job)
  | .readPre c markdown todo job =>
    match s.read c.sourcePath with
    | .error e => (s, .finished (.error e))
    | .ok (some pre) => (s, .record c markdown (job.tag.getD .update) pre (some pre) todo job)
    | .ok none =>
      match job.tag with
      | none => (s, .record c markdown .create markdown none todo job)
      | some .restore => (s, .record c markdown .restore "" none todo job)
      | some tag => (s, .record c markdown tag markdown none todo job)
  | .record c markdown op payload pre todo job =>
    match putDraft c op payload job with
    | .error e => (s, .finished (.error (.revisions e)))
    | .ok d => (s.record d ch.retention (ch.clock 0), .writeFile c markdown pre todo job)
  | .writeFile c markdown _ todo job =>
    match s.write c.sourcePath markdown with
    | .error e => (s, .finished (.error e))
    | .ok s' => (s', .register c todo job)
  | .register c todo job => (s.register c (ch.clock 0), .addIndex c todo job)
  | .addIndex c todo job => (s.addIndex c, .enqueueVector c todo job)
  | .enqueueVector c todo job => (s.enqueueVector c.sourcePath, .next todo job)
  | .regenList deleted => (s, .regenWrite (indexFiles s.list) deleted)
  | .regenWrite [] (some path) => (s, .removeVector path)
  | .regenWrite [] none => (s, .invalidate)
  | .regenWrite ((path, content) :: rest) deleted =>
    match s.write path content with
    | .error e => (s, .finished (.error e))
    | .ok s' => (s', .regenWrite rest deleted)
  | .removeVector path => (s.removeVector path, .invalidate)
  | .invalidate => (s.invalidateVectors, .finished (.ok ()))
  | .deleteRead path h =>
    match s.read path with
    | .error e => (s, .finished (.error e))
    | .ok none => (s, .finished (.error (.notFound path)))
    | .ok (some pre) =>
      if isQueuePath path then (s, .deleteEntry path pre) else (s, .deleteRecord path pre h)
  | .deleteRecord path pre h =>
    (s.record (deleteDraft path pre h) ch.retention (ch.clock 0), .deleteEntry path pre)
  | .deleteEntry path pre => (s.unregister path, .deleteIndex path pre)
  | .deleteIndex path pre => (s.removeIndex path, .deleteFile path pre)
  | .deleteFile path _ => (s.deleteFile path, .regenList (some path))
  | .reindexRead path =>
    match s.read path with
    | .error e => (s, .finished (.error e))
    | .ok none => (s, .finished (.error (.notFound path)))
    | .ok (some markdown) =>
      match Concept.parse cx path markdown with
      | .error e => (s, .finished (.error (.parse e)))
      | .ok c => (s, .reindexAdd c)
  | .reindexAdd c => (s.addIndex c, .finished (.ok ()))
  | .finished r => (s, .finished r)

/-! ## The system -/

structure State where
  store : Store
  tasks : ℕ → Pc

def State.init (scopeId : String) : State where
  store := Store.empty scopeId
  tasks := fun _ => .idle

def State.setTask (s : State) (i : ℕ) (pc : Pc) : State :=
  { s with tasks := fun j => if j = i then pc else s.tasks j }

inductive Action where
  | start (i : ℕ) (h : Handle) (call : Call) (ch : Choice)
  | step (i : ℕ) (ch : Choice)
  | abort (i : ℕ)
  | crash

/-- What is in memory is lost with the process. -/
def Store.restart (s : Store) : Store := { s with vectorQueue := [], vectorCached := false }

/-- One step of the system. A task starts a call when it has none in flight. -/
def step (cx : Codec) (s : State) : Action → Option State
  | .start i h call ch =>
    match s.tasks i with
    | .idle | .finished _ => some (s.setTask i (call.begin cx h ch.clock))
    | _ => none
  | .step i ch =>
    let r := taskStep cx s.store ch (s.tasks i)
    some ({ s with store := r.1 }.setTask i r.2)
  | .abort i => some (s.setTask i .idle)
  | .crash => some { store := Store.restart s.store, tasks := fun _ => .idle }

end Mycelium.Model.StoreTasks
