import Mathlib.Data.List.Sort
import Mycelium.Model.ChatStore

/-!
# Chat sessions over their whole life

The statements on the chat tables that open, read and delete a session, and the system of
all chat store operations. Every operation is one transaction, except `delete_session`:
its busy check and its `DELETE` are two statements with no transaction around them, so
that a delete is a call that stands between the two.

Two fields of the state are ghosts, which no operation reads: the claims every turn was
given since it was created, and for a delete past its check the turns of the session that
were set running since.

SOURCE: crates/mycelium-store/src/chat.rs,
crates/mycelium-store/migrations/0008_chat_sessions.sql and 0009_chat_waiting.sql
-/

set_option autoImplicit false

namespace Mycelium.Model.ChatStore

/-! ## Transactions -/

/-- The statements of a transaction run on a copy: the copy is committed, or dropped at
the first statement that fails. -/
def ChatDb.transaction {α : Type} (db : ChatDb) (tx : ChatDb → Except ChatError (ChatDb × α)) :
    ChatDb × Except ChatError α :=
  match tx db with
  | .ok (db', a) => (db', .ok a)
  | .error e => (db, .error e)

/-- The primary key of `chat_messages` is the session and the number. -/
def ChatDb.insertMessage (db : ChatDb) (m : MessageRow) : Except ChatError ChatDb :=
  if db.messages.any fun m' => m'.sessionId = m.sessionId && m'.seq = m.seq then .error .db
  else .ok { db with messages := db.messages ++ [m] }

/-- A second running turn and a used id are refused alike. -/
def ChatDb.insertTurn (db : ChatDb) (turn : ℕ) (row : TurnRow) : Except ChatError ChatDb :=
  if (row.status = .running && db.runningIn row.sessionId) || (db.turns.get? turn).isSome then
    .error .conflict
  else .ok { db with turns := db.turns.insert turn row }

/-- The statements of `create_turn` in their order. SOURCE: chat.rs:486-575 -/
def createTurnStatements (user session turn : ℕ) (message : String) (now : ℕ) (db : ChatDb) :
    Except ChatError (ChatDb × TurnRow) := do
  if db.owned user session = false then throw .notFound
  let db := { db with turns := db.turns.mapValues (abandon session now) }
  let seq := db.nextSeq session
  let db ← db.insertMessage
    { sessionId := session, seq, role := .user, content := message, createdAt := now, turn }
  let db := db.touch session now
  let row : TurnRow := { sessionId := session, userSeq := seq, createdAt := now, updatedAt := now }
  let db ← db.insertTurn turn row
  return (db, row)

/-! ## Sessions -/

def maxSessionsPerUser : ℕ := 100

/-- `ON DELETE CASCADE` takes the turns and messages of a session with it. -/
def ChatDb.dropSession (db : ChatDb) (session : ℕ) : ChatDb where
  sessions := db.sessions.erase session
  turns := db.turns.retain fun row => row.sessionId ≠ session
  messages := db.messages.filter fun m => m.sessionId ≠ session

/-- A turn that still owes an answer keeps its session from being pruned. -/
def owesAnswer (row : TurnRow) : Bool :=
  row.status = .running || (row.status = .interrupted && row.attempts = 0) ||
    row.status = .waitingBackend

/-- The user's sessions without such a turn, oldest first. -/
def ChatDb.prunable (db : ChatDb) (user : ℕ) : List ℕ :=
  ((db.sessions.entries.filter fun e => e.2.userId = user &&
      !(db.turns.entries.any fun t => t.2.sessionId = e.1 && owesAnswer t.2)).insertionSort
    fun a b => a.2.updatedAt ≤ b.2.updatedAt).map Sigma.fst

/-- SOURCE: chat.rs:264-328 -/
def ChatDb.createSession (user session now : ℕ) (db : ChatDb) : Except ChatError (ChatDb × ℕ) :=
  let count := (db.sessions.entries.filter fun e => e.2.userId = user).length
  let pruned :=
    if maxSessionsPerUser ≤ count then
      ((db.prunable user).take (count + 1 - maxSessionsPerUser)).foldl ChatDb.dropSession db
    else db
  if (pruned.sessions.get? session).isSome then .error .db
  else
    .ok ({ pruned with sessions := pruned.sessions.insert session ⟨user, now⟩ }, session)

/-- A row as it is replayed. -/
structure ChatMessageRow where
  seq : ℕ
  role : ChatRole
  content : String
  deriving DecidableEq, Repr

/-- The transcript after a number, without the rows that do not open: `openHex` is the
envelope of a row under the user's key. SOURCE: chat.rs:442-477 -/
def ChatDb.messagesAfter (db : ChatDb) (openHex : MessageRow → Option String) (user session : ℕ)
    (afterSeq : ℤ) : Except ChatError (List ChatMessageRow) :=
  if db.owned user session = false then .error .notFound
  else
    let rows := (db.messages.filter fun m => m.sessionId = session && afterSeq < m.seq).insertionSort
      fun a b => a.seq ≤ b.seq
    .ok (rows.filterMap fun m => (openHex m).map fun content => ⟨m.seq, m.role, content⟩)

end Mycelium.Model.ChatStore

namespace Mycelium.Model.ChatSessions

open Mycelium.Model.ChatStore

/-! ## The system -/

inductive Claim where
  | resumable
  | waiting
  deriving DecidableEq, Repr

/-- Where a call of `delete_session` stands; `started` are the turns of its session that
were set running since its check. -/
inductive DeletePc where
  | idle
  | checked (user session : ℕ) (started : List ℕ)
  | finished (result : Except ChatError Unit)

structure State where
  db : ChatDb
  deletes : ℕ → DeletePc
  claims : ℕ → List Claim

def State.init : State where
  db := ⟨∅, ∅, []⟩
  deletes := fun _ => .idle
  claims := fun _ => []

def State.setDelete (s : State) (i : ℕ) (pc : DeletePc) : State :=
  { s with deletes := fun j => if j = i then pc else s.deletes j }

def DeletePc.noteStarted (session turn : ℕ) : DeletePc → DeletePc
  | .checked user session' started =>
    if session' = session then .checked user session' (turn :: started)
    else .checked user session' started
  | pc => pc

/-- A turn was set running: by its creation when there is no claim. -/
def State.noteRunning (s : State) (session turn : ℕ) (claims : List Claim) : State :=
  { s with
    deletes := fun i => (s.deletes i).noteStarted session turn
    claims := fun t => if t = turn then claims else s.claims t }

inductive Action where
  | createSession (user session now : ℕ)
  | createTurn (user session turn : ℕ) (message : String) (now : ℕ)
  | appendMessage (user session : ℕ) (role : ChatRole) (content : String) (now turn : ℕ)
  | finalizeTurn (user turn : ℕ) (status : ChatTurnStatus) (now : ℕ)
  | parkWaiting (user turn : ℕ) (lastError : Option String) (now : ℕ)
  | claimResumable (user session turn now : ℕ)
  | claimWaiting (user session turn now : ℕ)
  | deleteCheck (i user session : ℕ)
  | deleteRows (i : ℕ)
  | bootSweep (now : ℕ)
  | crash

/-- A claim that changed a row set its turn running. -/
def State.claimed (s : State) (session turn : ℕ) (claim : Claim) :
    Except ChatError (ChatDb × Bool) → State
  | .ok (db, true) => { s with db }.noteRunning session turn (claim :: s.claims turn)
  | .ok (_, false) => s
  | .error _ => s

def State.committed (s : State) : Except ChatError ChatDb → State
  | .ok db => { s with db }
  | .error _ => s

/-- One operation. An operation that fails leaves the tables as they were. -/
def step (s : State) : Action → Option State
  | .createSession user session now =>
    some { s with db := (s.db.transaction (ChatDb.createSession user session now)).1 }
  | .createTurn user session turn message now =>
    match s.db.transaction (createTurnStatements user session turn message now) with
    | (db, .ok _) => some ({ s with db }.noteRunning session turn [])
    | (db, .error _) => some { s with db }
  | .appendMessage user session role content now turn =>
    some (s.committed ((s.db.appendMessage user session role content now turn).map Prod.fst))
  | .finalizeTurn user turn status now => some (s.committed (s.db.finalizeTurn user turn status now))
  | .parkWaiting user turn lastError now =>
    some (s.committed (s.db.parkWaiting user turn lastError now))
  | .claimResumable user session turn now =>
    some (s.claimed session turn .resumable (s.db.claimResumable user session turn now))
  | .claimWaiting user session turn now =>
    some (s.claimed session turn .waiting (s.db.claimWaiting user session turn now))
  -- the running turns are counted in a session of the user only
  | .deleteCheck i user session =>
    match s.deletes i with
    | .checked _ _ _ => none
    | _ =>
      if s.db.owned user session && s.db.runningIn session then
        some (s.setDelete i (.finished (.error .conflict)))
      else some (s.setDelete i (.checked user session []))
  | .deleteRows i =>
    match s.deletes i with
    | .checked user session _ =>
      if s.db.owned user session then
        some ({ s with db := s.db.dropSession session }.setDelete i (.finished (.ok ())))
      else some (s.setDelete i (.finished (.error .notFound)))
    | _ => none
  | .bootSweep now => some { s with db := s.db.bootSweep now }
  | .crash => some { s with deletes := fun _ => .idle }

end Mycelium.Model.ChatSessions
