import Mycelium.Lib.Dict
import Mathlib.Data.List.Perm.Basic
import Mathlib.Data.String.Basic

/-!
# The ingest worker

A user uploads a book with `submit`: it reserves the user's slot, creates the rows of the
book and of the job, stages the text in memory under the job's id and points the slot at
the job. `run_job` claims a pending job, takes its staged text, ingests it, settles the row
and frees the slot of the job's user; `run_pending` does so for every pending job. The
slots and the staged texts are in memory, the rows are in the database.

Any number of submits and runs are interleaved at these steps. A statement may fail, and a
caller may drop its call at any point. Ids are drawn from outside (`Choice.id`); an insert
under an id that is taken violates the primary key.

`accepted` is a ghost: the handles `submit` has returned.

SOURCE: crates/mycelium-librarian/src/worker.rs, crates/mycelium-store/src/books.rs
-/

set_option autoImplicit false

namespace Mycelium.Model.IngestWorker

/-! ## Rows -/

inductive IngestStatus where
  | pending
  | running
  | done
  | failed
  deriving DecidableEq, Repr

structure BookRow where
  id : ℕ
  bookshelfId : ℕ
  slug : String
  title : String
  stackPath : String
  deriving DecidableEq, Repr

structure IngestJob where
  bookshelfId : ℕ
  bookId : ℕ
  requestedByUserId : ℕ
  status : IngestStatus
  detail : String
  deriving DecidableEq, Repr

inductive BooksError where
  | db
  | duplicateSlug (slug : String)
  deriving DecidableEq, Repr

/-- SOURCE: worker.rs:29-39 -/
inductive WorkerError where
  | store (e : BooksError)
  | ingest (message : String)
  | userBusy
  deriving DecidableEq, Repr

/-- SOURCE: worker.rs:66-71 -/
structure StagedBook where
  slug : String
  title : String
  text : String
  deriving DecidableEq, Repr

/-- SOURCE: worker.rs:42-47 -/
structure SubmittedJob where
  jobId : ℕ
  bookId : ℕ
  slug : String
  deriving DecidableEq, Repr

/-- The nil id that a reserved slot holds. -/
def nil : ℕ := 0

/-- SOURCE: ingest.rs:23-25 -/
def stackPathFor (slug : String) : String := "/library/" ++ slug ++ ".md"

/-- SOURCE: worker.rs:235 -/
def lostText : String := "staged text lost after restart — re-upload the book"

/-- SOURCE: worker.rs:254 -/
def doneText (count : ℕ) : String := toString count ++ " catalog concepts written"

/-- SOURCE: worker.rs:32-33 -/
def ingestErrorText (message : String) : String := "ingest error: " ++ message

/-! ## Calls -/

/-- The arguments of a submit. -/
structure Upload where
  bookshelfId : ℕ
  requestedBy : ℕ
  slug : String
  title : String
  text : String
  deriving DecidableEq, Repr

inductive Call where
  | submit (u : Upload)
  | runJob (jobId : ℕ)
  | runPending

inductive Reply where
  | submitted (job : SubmittedJob)
  | ran
  | processed (n : ℕ)
  deriving DecidableEq, Repr

/-- What a run goes back to: the caller of `run_job`, or the pass it belongs to with the
jobs that are left and the number of those processed. -/
inductive Sweep where
  | single
  | pass (rest : List ℕ) (processed : ℕ)
  deriving DecidableEq, Repr

/-- Where a call stands. -/
inductive Pc where
  | idle
  | reserve (u : Upload)
  | createBook (u : Upload)
  | createJob (u : Upload) (bookId : ℕ)
  | stage (u : Upload) (bookId jobId : ℕ)
  | point (u : Upload) (bookId jobId : ℕ)
  | release (user : ℕ) (e : WorkerError)
  | list
  | sweep (sweep : Sweep)
  | readJob (jobId : ℕ) (sweep : Sweep)
  | claim (jobId user : ℕ) (sweep : Sweep)
  | take (jobId user : ℕ) (sweep : Sweep)
  | ingest (jobId user : ℕ) (book : StagedBook) (sweep : Sweep)
  | settle (jobId user : ℕ) (status : IngestStatus) (detail : String) (sweep : Sweep)
  | free (jobId user : ℕ) (sweep : Sweep)
  | finished (r : Except WorkerError Reply)

/-- What a step takes from outside: whether the statement goes through, the id that is
drawn, the order the pending jobs are listed in, and what the ingest comes to. -/
structure Choice where
  dbOk : Bool := true
  id : ℕ := 1
  listed : List ℕ := []
  ingest : Except String ℕ := .ok 1

structure State where
  books : List BookRow
  jobs : Dict ℕ IngestJob
  userSlots : Dict ℕ ℕ
  staged : Dict ℕ StagedBook
  tasks : ℕ → Pc
  accepted : List SubmittedJob

/-- A process starts on the rows of earlier ones, with nothing in memory. -/
def State.boot (books : List BookRow) (jobs : Dict ℕ IngestJob) : State where
  books := books
  jobs := jobs
  userSlots := ∅
  staged := ∅
  tasks := fun _ => .idle
  accepted := []

/-- The pending jobs; the statement has no order. SOURCE: books.rs:228-238 -/
def pendingIds (jobs : Dict ℕ IngestJob) : List ℕ :=
  (jobs.entries.filter fun e => e.2.status = .pending).map fun e => e.1

/-- SOURCE: books.rs:119-135 -/
def updateIngestJob (jobs : Dict ℕ IngestJob) (jobId : ℕ) (status : IngestStatus)
    (detail : String) : Dict ℕ IngestJob :=
  match jobs.get? jobId with
  | none => jobs
  | some row => jobs.insert jobId { row with status, detail }

/-- What follows a job that `run_job` is through with. -/
def Sweep.next : Sweep → Pc
  | .single => .finished (.ok .ran)
  | .pass rest n => .sweep (.pass rest (n + 1))

/-- What every error of a statement comes to. -/
def dbError : WorkerError := .store .db

/-- The next step of a submit. SOURCE: worker.rs:148-198, books.rs:36-63, 97-116 -/
def submitStep (s : State) (ch : Choice) : Pc → State × Pc
  | .reserve u =>
    match s.userSlots.get? u.requestedBy with
    | some _ => (s, .finished (.error .userBusy))
    | none => ({ s with userSlots := s.userSlots.insert u.requestedBy nil }, .createBook u)
  | .createBook u =>
    if ch.dbOk = false then (s, .release u.requestedBy dbError)
    else if s.books.any fun b => b.slug = u.slug then
      (s, .release u.requestedBy (.store (.duplicateSlug u.slug)))
    else if s.books.any fun b => b.id = ch.id then (s, .release u.requestedBy dbError)
    else
      let row : BookRow :=
        { id := ch.id, bookshelfId := u.bookshelfId, slug := u.slug, title := u.title,
          stackPath := stackPathFor u.slug }
      ({ s with books := s.books ++ [row] }, .createJob u ch.id)
  | .createJob u bookId =>
    if ch.dbOk = false ∨ (s.jobs.get? ch.id).isSome then (s, .release u.requestedBy dbError)
    else
      let row : IngestJob :=
        { bookshelfId := u.bookshelfId, bookId := bookId, requestedByUserId := u.requestedBy,
          status := .pending, detail := "" }
      ({ s with jobs := s.jobs.insert ch.id row }, .stage u bookId ch.id)
  | .stage u bookId jobId =>
    ({ s with staged := s.staged.insert jobId { slug := u.slug, title := u.title, text := u.text } },
      .point u bookId jobId)
  | .point u bookId jobId =>
    let job : SubmittedJob := { jobId, bookId, slug := u.slug }
    ({ s with
        userSlots := s.userSlots.insert u.requestedBy jobId
        accepted := job :: s.accepted }, .finished (.ok (.submitted job)))
  | .release user e => ({ s with userSlots := s.userSlots.erase user }, .finished (.error e))
  | pc => (s, pc)

/-- The next step of a run. SOURCE: worker.rs:204-269, books.rs:141-154 (the claim) -/
def runStep (s : State) (ch : Choice) : Pc → State × Pc
  | .list =>
    if ch.dbOk = false then (s, .finished (.error dbError))
    else if ch.listed.Perm (pendingIds s.jobs) then (s, .sweep (.pass ch.listed 0))
    else (s, .sweep (.pass (pendingIds s.jobs) 0))
  | .sweep .single => (s, .finished (.ok .ran))
  | .sweep (.pass [] n) => (s, .finished (.ok (.processed n)))
  | .sweep (.pass (jobId :: rest) n) => (s, .readJob jobId (.pass rest n))
  | .readJob jobId sweep =>
    if ch.dbOk = false then (s, .finished (.error dbError))
    else
      match s.jobs.get? jobId with
      | none => (s, sweep.next)
      | some row => (s, .claim jobId row.requestedByUserId sweep)
  | .claim jobId user sweep =>
    if ch.dbOk = false then (s, .finished (.error dbError))
    else
      match s.jobs.get? jobId with
      | none => (s, sweep.next)
      | some row =>
        if row.status = .pending then
          ({ s with jobs := s.jobs.insert jobId { row with status := .running, detail := "" } },
            .take jobId user sweep)
        else (s, sweep.next)
  | .take jobId user sweep =>
    match s.staged.get? jobId with
    | none => (s, .settle jobId user .failed lostText sweep)
    | some book => ({ s with staged := s.staged.erase jobId }, .ingest jobId user book sweep)
  | .ingest jobId user _ sweep =>
    match ch.ingest with
    | .ok count => (s, .settle jobId user .done (doneText count) sweep)
    | .error message => (s, .settle jobId user .failed (ingestErrorText message) sweep)
  | .settle jobId user status detail sweep =>
    if ch.dbOk = false then (s, .finished (.error dbError))
    else
      ({ s with jobs := updateIngestJob s.jobs jobId status detail }, .free jobId user sweep)
  | .free _ user sweep => ({ s with userSlots := s.userSlots.erase user }, sweep.next)
  | pc => (s, pc)

/-- The next step of a call. -/
def taskStep (s : State) (ch : Choice) (pc : Pc) : State × Pc :=
  match pc with
  | .reserve _ | .createBook _ | .createJob _ _ | .stage _ _ _ | .point _ _ _ | .release _ _ =>
    submitStep s ch pc
  | _ => runStep s ch pc

def Call.begin : Call → Pc
  | .submit u => .reserve u
  | .runJob jobId => .readJob jobId .single
  | .runPending => .list

inductive Action where
  | start (i : ℕ) (call : Call)
  | step (i : ℕ) (ch : Choice)
  | drop (i : ℕ)

def step (s : State) : Action → Option State
  | .start i call =>
    match s.tasks i with
    | .idle | .finished _ => some { s with tasks := Function.update s.tasks i call.begin }
    | _ => none
  | .step i ch =>
    let r := taskStep s ch (s.tasks i)
    some { r.1 with tasks := Function.update s.tasks i r.2 }
  | .drop i => some { s with tasks := Function.update s.tasks i .idle }

/-- No call is in progress. -/
def State.Quiet (s : State) : Prop := ∀ i, s.tasks i = .idle ∨ ∃ r, s.tasks i = .finished r

end Mycelium.Model.IngestWorker
