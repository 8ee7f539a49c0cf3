import Mathlib.Data.List.Sort
import Mycelium.Lib.Dict

/-!
# Chat sessions, turns and transcripts

The chat tables and the statements on them; a function here is one transaction. Ids and
times are numbers. The contents of messages are kept unsealed. A message also carries the
turn that caused it, which the table does not: it is only read to count.

A claim sets a turn to `running`, which the unique index on running turns can refuse.

SOURCE: crates/mycelium-store/src/chat.rs,
crates/mycelium-store/migrations/0008_chat_sessions.sql and 0009_chat_waiting.sql
-/

set_option autoImplicit false

namespace Mycelium.Model.ChatStore

inductive ChatRole where
  | user
  | tool
  | assistant
  | error
  deriving DecidableEq, Repr

inductive ChatTurnStatus where
  | running
  | done
  | failed
  | interrupted
  | abandoned
  | waitingBackend
  deriving DecidableEq, Repr

inductive ChatError where
  | db
  | notFound
  | conflict
  deriving DecidableEq, Repr

/-! ## Tables -/

structure SessionRow where
  userId : ℕ
  updatedAt : ℕ
  deriving DecidableEq, Repr

structure TurnRow where
  sessionId : ℕ
  userSeq : ℕ
  status : ChatTurnStatus := .running
  attempts : ℕ := 0
  createdAt : ℕ
  updatedAt : ℕ
  parkState : ChatTurnStatus := .interrupted
  lastError : Option String := none
  deriving DecidableEq, Repr

structure MessageRow where
  sessionId : ℕ
  seq : ℕ
  role : ChatRole
  content : String
  createdAt : ℕ
  turn : ℕ
  deriving DecidableEq, Repr

structure ChatDb where
  sessions : Dict ℕ SessionRow
  turns : Dict ℕ TurnRow
  messages : List MessageRow

/-- `SELECT 1 FROM chat_sessions WHERE id = ? AND user_id = ?`. -/
def ChatDb.owned (db : ChatDb) (user session : ℕ) : Bool :=
  match db.sessions.get? session with
  | some row => row.userId = user
  | none => false

/-- The partial index `uq_chat_turns_running` has an entry for the session. -/
def ChatDb.runningIn (db : ChatDb) (session : ℕ) : Bool :=
  db.turns.entries.any fun e => e.2.sessionId = session && e.2.status = .running

/-- `MAX(seq) + 1`. -/
def ChatDb.nextSeq (db : ChatDb) (session : ℕ) : ℕ :=
  ((db.messages.filter fun m => m.sessionId = session).map MessageRow.seq).foldl max 0 + 1

def ChatDb.touch (db : ChatDb) (session now : ℕ) : ChatDb :=
  match db.sessions.get? session with
  | some row => { db with sessions := db.sessions.insert session { row with updatedAt := now } }
  | none => db

/-! ## Submitting -/

/-- A new message replaces the unanswered ask of its session. -/
def abandon (session now : ℕ) (row : TurnRow) : TurnRow :=
  if row.sessionId = session ∧ (row.status = .interrupted ∨ row.status = .waitingBackend) then
    { row with status := .abandoned, updatedAt := now }
  else row

/-- SOURCE: chat.rs:479-576 -/
def ChatDb.createTurn (db : ChatDb) (user session turn : ℕ) (message : String) (now : ℕ) :
    Except ChatError (ChatDb × TurnRow) :=
  if db.owned user session = false then .error .notFound
  else if db.runningIn session || (db.turns.get? turn).isSome then .error .conflict
  else
    let seq := db.nextSeq session
    let row : TurnRow := { sessionId := session, userSeq := seq, createdAt := now, updatedAt := now }
    let message : MessageRow :=
      { sessionId := session, seq, role := .user, content := message, createdAt := now, turn }
    .ok ({ db.touch session now with
           turns := (db.turns.mapValues (abandon session now)).insert turn row
           messages := db.messages ++ [message] }, row)

/-- A row an agent produced. SOURCE: chat.rs:578-627 -/
def ChatDb.appendMessage (db : ChatDb) (user session : ℕ) (role : ChatRole) (content : String)
    (now turn : ℕ) : Except ChatError (ChatDb × ℕ) :=
  if db.owned user session = false then .error .notFound
  else
    let seq := db.nextSeq session
    let message : MessageRow := { sessionId := session, seq, role, content, createdAt := now, turn }
    .ok ({ db.touch session now with messages := db.messages ++ [message] }, seq)

/-! ## Claims -/

/-- A conditional update to `running`: whether a row changed. -/
def ChatDb.claim (db : ChatDb) (user session turn : ℕ) (ready : TurnRow → Bool)
    (set : TurnRow → TurnRow) : Except ChatError (ChatDb × Bool) :=
  match db.turns.get? turn with
  | none => .ok (db, false)
  | some row =>
    if row.sessionId = session && ready row && db.owned user session then
      if db.runningIn session then .error .db
      else .ok ({ db with turns := db.turns.insert turn (set row) }, true)
    else .ok (db, false)

/-- The crash claim: spends the one attempt. SOURCE: chat.rs:629-658 -/
def ChatDb.claimResumable (db : ChatDb) (user session turn now : ℕ) :
    Except ChatError (ChatDb × Bool) :=
  db.claim user session turn (fun row => row.status = .interrupted && row.attempts = 0)
    fun row => { row with
      status := .running, attempts := row.attempts + 1, parkState := .interrupted
      updatedAt := now }

/-- The weather claim: leaves the attempts alone. SOURCE: chat.rs:752-783 -/
def ChatDb.claimWaiting (db : ChatDb) (user session turn now : ℕ) :
    Except ChatError (ChatDb × Bool) :=
  db.claim user session turn (fun row => row.status = .waitingBackend)
    fun row => { row with
      status := .running, parkState := .waitingBackend, updatedAt := now }

/-! ## Ends of a run -/

/-- A conditional update of a running turn; a turn that is not running is left alone, one
that is not the user's is not found. -/
def ChatDb.endRun (db : ChatDb) (user turn : ℕ) (set : TurnRow → TurnRow) :
    Except ChatError ChatDb :=
  match db.turns.get? turn with
  | none => .error .notFound
  | some row =>
    if db.owned user row.sessionId then
      if row.status = .running then .ok { db with turns := db.turns.insert turn (set row) }
      else .ok db
    else .error .notFound

/-- SOURCE: chat.rs:660-702 -/
def ChatDb.finalizeTurn (db : ChatDb) (user turn : ℕ) (status : ChatTurnStatus) (now : ℕ) :
    Except ChatError ChatDb :=
  db.endRun user turn fun row => { row with status, updatedAt := now }

/-- SOURCE: chat.rs:704-750 -/
def ChatDb.parkWaiting (db : ChatDb) (user turn : ℕ) (lastError : Option String) (now : ℕ) :
    Except ChatError ChatDb :=
  db.endRun user turn fun row =>
    { row with status := .waitingBackend, lastError, updatedAt := now }

/-- A dead process cannot finalize: its running turns go where they came from.
SOURCE: chat.rs:785-801 -/
def ChatDb.bootSweep (db : ChatDb) (now : ℕ) : ChatDb :=
  { db with turns := db.turns.mapValues fun row =>
      if row.status = .running then { row with status := row.parkState, updatedAt := now }
      else row }

/-! ## What the resume worker lists -/

/-- A listed turn with the owner of its session. -/
structure Listed where
  user : ℕ
  turn : ℕ
  row : TurnRow
  deriving DecidableEq, Repr

def Listed.older (a b : Listed) : Prop := a.row.createdAt ≤ b.row.createdAt

instance : DecidableRel Listed.older := fun a b =>
  inferInstanceAs (Decidable (a.row.createdAt ≤ b.row.createdAt))

/-- `ORDER BY created_at`. -/
def ChatDb.listTurns (db : ChatDb) (p : TurnRow → Bool) : List Listed :=
  (db.turns.entries.filterMap fun e =>
    match db.sessions.get? e.2.sessionId with
    | some session => if p e.2 then some ⟨session.userId, e.1, e.2⟩ else none
    | none => none).insertionSort Listed.older

/-- SOURCE: chat.rs:803-829 -/
def ChatDb.resumableTurns (db : ChatDb) : List Listed :=
  db.listTurns fun row => row.status = .interrupted && row.attempts = 0

def ChatDb.waitingTurns (db : ChatDb) : List Listed :=
  db.listTurns fun row => row.status = .waitingBackend

end Mycelium.Model.ChatStore
