import Mycelium.Lib.Overlap
import Mycelium.Model.ChatRunner
import Mycelium.Model.ChatSessions

/-!
# The live streams of one chat turn

One turn, its runner and any number of viewers. `spawn_chat_run` registers the turn's
broadcast channel and detaches the runner; the runner persists each event as a transcript
row and then broadcasts it; at its end it removes the registry entry, which closes the
channel. A viewer's stream looks up the running turn (a reattach) or has it from the submit
that created it, subscribes, takes a snapshot of the transcript after its cursor, replays
the agent rows of it and tails the channel until a terminal event, the end of the channel,
or a lag.

The runner is the one of `Model.ChatRunner`, with the broadcast as a step of its own
between two store calls. Its future is not dropped: the guard never runs. The viewer's page
drops an event whose `seq` it has seen (`clientRows`).

SOURCE: crates/mycelium-web/src/chat_api.rs, crates/mycelium-web/src/chat_runner.rs,
crates/mycelium-web/src/assets.rs (the page's script)
-/

set_option autoImplicit false

namespace Mycelium.Model.ChatStream

open Mycelium.Model.ChatStore Mycelium.Model.ChatRunner

/-! ## Events -/

/-- SOURCE: chat_runner.rs:126-158 -/
inductive ChatSseKind where
  | session (id : ℕ)
  | queued (position : ℕ)
  | admitted
  | tool (name detail : String)
  | done (reply : String)
  | assistant (reply : String)
  | error (error : String)
  deriving DecidableEq, Repr

/-- SOURCE: chat_runner.rs:119-123 -/
structure ChatSseEvent where
  kind : ChatSseKind
  seq : ℕ
  deriving DecidableEq, Repr

/-- Is the event of a transcript row? The others carry no number of a row and the page
handles them by type, ahead of the numbers. -/
def ChatSseEvent.isRow (ev : ChatSseEvent) : Bool :=
  match ev.kind with
  | .session _ | .queued _ | .admitted => false
  | .tool _ _ | .done _ | .assistant _ | .error _ => true

/-- The live events that end a stream. SOURCE: chat_api.rs:449-452 -/
def ChatSseEvent.terminal (ev : ChatSseEvent) : Bool :=
  match ev.kind with
  | .done _ | .error _ => true
  | _ => false

/-- The live form of an agent event. SOURCE: chat_runner.rs:695-718 -/
def liveKind : AgentEvent → ChatSseKind
  | .tool name detail => .tool name detail
  | .done reply => .done reply
  | .failed message => .error message

/-- The replayed form of a row: a reply says `assistant`, and user rows never replay.
SOURCE: chat_api.rs:420-442 -/
def replayEvent (parse : String → String × String) (row : ChatMessageRow) : Option ChatSseEvent :=
  match row.role with
  | .user => none
  | .tool => some ⟨.tool (parse row.content).1 (parse row.content).2, row.seq⟩
  | .assistant => some ⟨.assistant row.content, row.seq⟩
  | .error => some ⟨.error row.content, row.seq⟩

/-- What the page keeps of a stream: each row once. SOURCE: assets.rs:1298-1300 -/
def clientRows (seen : List ChatSseEvent) : List ChatSseEvent :=
  Overlap.firstBy ChatSseEvent.seq [] (seen.filter (·.isRow))

/-! ## Streams -/

/-- SOURCE: chat_runner.rs:64 -/
def chatChannelCapacity : ℕ := 256

/-- Why a stream ended. -/
inductive StreamEnd where
  | replayed
  | terminal
  | closed
  | lagged
  deriving DecidableEq, Repr

/-- Where a viewer's stream stands. -/
inductive StreamPc where
  | idle
  | looked (cursor : ℤ) (turn? : Option ℕ)
  | subscribed (cursor : ℤ) (live : Bool)
  | replaying (cursor : ℤ) (todo : List ChatSseEvent) (live : Bool)
  | tailing (cursor : ℤ)
  | ended (cursor : ℤ) (why : StreamEnd)
  | refused
  deriving DecidableEq, Repr

/-- A viewer's stream: what its receiver holds, and what the page was sent. -/
structure Stream where
  pc : StreamPc := .idle
  queue : List ChatSseEvent := []
  lagged : Bool := false
  seen : List ChatSseEvent := []
  deriving DecidableEq, Repr

/-- Does the stream hold a receiver of the turn's channel? -/
def Stream.attached (st : Stream) : Bool :=
  match st.pc with
  | .subscribed _ live => live
  | .replaying _ _ live => live
  | .tailing _ => true
  | _ => false

/-- A broadcast reaches the receiver; past the capacity the oldest event is overwritten
and the receiver has lagged. -/
def Stream.receive (st : Stream) (ev : ChatSseEvent) : Stream :=
  if st.attached then
    if st.queue.length < chatChannelCapacity then { st with queue := st.queue ++ [ev] }
    else { st with queue := st.queue.tail ++ [ev], lagged := true }
  else st

/-! ## The system -/

/-- What the model takes from outside: the runner's formats, the reading of a stored tool
row, and the opening of a sealed row. -/
structure Env where
  fmt : Format
  parse : String → String × String
  openRow : MessageRow → Option String

/-- The tables, the turn's runner and its registry entry, the event that is persisted and
not yet broadcast, and the viewers. -/
structure State where
  db : ChatDb
  run : Run
  registered : Bool
  left : Bool
  outbox : Option ChatSseEvent
  streams : ℕ → Stream

/-- The turn is running in the tables and its runner is about to be spawned. -/
def State.begin (db : ChatDb) (run : Run) : State where
  db := db
  run := run
  registered := false
  left := false
  outbox := none
  streams _ := {}

def State.setStream (s : State) (i : ℕ) (st : Stream) : State :=
  { s with streams := Function.update s.streams i st }

/-- The single place that sends. SOURCE: chat_runner.rs:251-255 -/
def State.sendBroadcast (s : State) (ev : ChatSseEvent) : State :=
  if s.registered then { s with streams := fun i => (s.streams i).receive ev } else s

/-- The session's running turn. SOURCE: chat.rs:856-873 -/
def runningTurn (db : ChatDb) (user session : ℕ) : Option ℕ :=
  if db.owned user session then
    (db.turns.entries.find? fun e => e.2.sessionId = session && e.2.status = .running).map Sigma.fst
  else none

/-- The event of a row, once the row is there: nothing is broadcast for a row that was not
persisted. SOURCE: chat_runner.rs:719-731 -/
def persisted (db : ChatDb) (r : Run) (ch : Choice) (role : ChatRole) (content : String)
    (kind : ChatSseKind) : Option ChatSseEvent :=
  if ch.storeOk then
    match db.appendMessage r.user r.session role content ch.now r.turn with
    | .ok (_, seq) => some ⟨kind, seq⟩
    | .error _ => none
  else none

/-- The event the next step of the runner persists. -/
def emitted (fmt : Format) (db : ChatDb) (r : Run) (ch : Choice) : Option ChatSseEvent :=
  match r.pc with
  | .persist (event :: _) _ _ _ =>
    persisted db r ch (rowOf fmt.json event).1 (rowOf fmt.json event).2 (liveKind event)
  | .finish _ (some message) => persisted db r ch .error message (.error message)
  | _ => none

/-- What the environment does next. -/
inductive Action where
  | spawn
  | run (ch : Choice)
  /-- The gate reports a queue position, or the admission after one. -/
  | announce (position : Option ℕ)
  | submitted (i : ℕ) (draft : Bool)
  | reattach (i : ℕ) (after : Option ℤ) (storeOk : Bool)
  | stream (i : ℕ) (storeOk : Bool)

/-- The next step of the runner: the broadcast of what it has persisted, else its next
store call. SOURCE: chat_runner.rs:316-628, 684-783 -/
def runnerStep (env : Env) (s : State) (ch : Choice) : Option State :=
  match s.outbox with
  | some ev => some { s.sendBroadcast ev with outbox := none }
  | none =>
    match s.run.pc with
    | .spawn | .guardFinalize | .guardAppend => none
    | .leave => if s.left then none else some { s with registered := false, left := true }
    | _ =>
      let (db, pc) := runStep env.fmt s.db s.run ch
      some { s with db, run := { s.run with pc }, outbox := emitted env.fmt s.db s.run ch }

/-- `i64::MAX`: an absent cursor replays nothing. SOURCE: chat_api.rs:209-210 -/
def liveOnly : ℤ := 2 ^ 63 - 1

/-- The next step of a stream. SOURCE: chat_api.rs:397-479 -/
def streamStep (env : Env) (s : State) (st : Stream) (storeOk : Bool) : Option Stream :=
  match st.pc with
  | .idle | .ended _ _ | .refused => none
  | .looked cursor turn? =>
    let live := decide (turn? = some s.run.turn) && s.registered
    some { st with pc := .subscribed cursor live }
  | .subscribed cursor live =>
    match if storeOk then s.db.messagesAfter env.openRow s.run.user s.run.session cursor
      else .error .db with
    | .ok rows => some { st with pc := .replaying cursor (rows.filterMap (replayEvent env.parse)) live }
    | .error _ => some { st with pc := .refused }
  | .replaying cursor (ev :: todo) live =>
    some { st with pc := .replaying cursor todo live, seen := st.seen ++ [ev] }
  | .replaying cursor [] live =>
    some { st with pc := if live then .tailing cursor else .ended cursor .replayed }
  | .tailing cursor =>
    if st.lagged then some { st with pc := .ended cursor .lagged }
    else
      match st.queue with
      | ev :: queue =>
        some { st with
          queue
          seen := st.seen ++ [ev]
          pc := if ev.terminal then .ended cursor .terminal else .tailing cursor }
      | [] => if s.registered then none else some { st with pc := .ended cursor .closed }

/-- The cursor of the submitting client: the row of its own message. SOURCE: chat_api.rs:304 -/
def submitCursor (s : State) : ℤ :=
  match s.db.turns.get? s.run.turn with
  | some row => row.userSeq
  | none => 0

def step (env : Env) (s : State) : Action → Option State
  | .spawn =>
    -- the entry exists before the task
    if s.run.pc matches .spawn then
      some { s with run := { s.run with pc := .history }, registered := true }
    else none
  | .run ch => runnerStep env s ch
  | .announce position =>
    if s.run.pc matches .admission then
      let kind := match position with
        | some position => .queued position
        | none => .admitted
      some (s.sendBroadcast ⟨kind, 0⟩)
    else none
  | .submitted i draft =>
    -- the handler streams after it has spawned the run
    if (s.streams i).pc = .idle ∧ ¬ (s.run.pc matches .spawn) then
      let first := if draft then [⟨.session s.run.session, 0⟩] else []
      some (s.setStream i { pc := .looked (submitCursor s) (some s.run.turn), seen := first })
    else none
  | .reattach i after storeOk =>
    if (s.streams i).pc = .idle then
      if storeOk then
        let turn? := runningTurn s.db s.run.user s.run.session
        some (s.setStream i { pc := .looked (after.getD liveOnly) turn? })
      else some (s.setStream i { pc := .refused })
    else none
  | .stream i storeOk =>
    (streamStep env s (s.streams i) storeOk).map fun st => s.setStream i st

end Mycelium.Model.ChatStream
