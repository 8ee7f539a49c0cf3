import Mycelium.Model.ChatStore

/-!
# Chat runs and the resume worker

A run of a turn takes one store call at a time; `Pc` is where it stands and `runStep` its
next step, from one store call to the next. Runs are started by a submit and by the resume
worker, which lists the turns that are owed an answer and claims them one by one. The
runner of a run can be dropped at any await (a panic, the teardown of the runtime); its
guard then ends the run. The process can die between any two steps; the next one sweeps
the running turns before its worker starts.

What a step takes from outside is its `Choice`: whether the store call succeeds, the clock,
the health of the backend, the answer of the gate and what the agent did.

SOURCE: crates/mycelium-web/src/chat_runner.rs, crates/mycelium-web/src/chat_resume.rs,
crates/mycelium-web/src/chat_api.rs
-/

set_option autoImplicit false

namespace Mycelium.Model.ChatRunner

open Mycelium.Model.ChatStore

/-! ## The agent -/

inductive BackendState where
  | disabled
  | green
  | yellow
  | red
  deriving DecidableEq, Repr

/-- SOURCE: crates/mycelium-librarian/src/llm.rs:245-271 -/
inductive LlmError where
  | request (message : String)
  | emptyResponse
  | status (code : ℕ) (body : String)
  deriving DecidableEq, Repr

def LlmError.isBackendDown : LlmError → Bool
  | .request _ => true
  | .status code _ => 500 ≤ code || code = 401 || code = 403
  | .emptyResponse => false

def LlmError.toString : LlmError → String
  | .request message => "LLM request failed: " ++ message
  | .emptyResponse => "LLM response missing content"
  | .status code body => "LLM endpoint returned status " ++ ToString.toString code ++ ": " ++ body

/-- SOURCE: crates/mycelium-librarian/src/agent.rs:543-552 -/
inductive AgentError where
  | store (message : String)
  | llm (e : LlmError)
  | stepCapExceeded
  | badToolArgs (name reason : String)
  deriving DecidableEq, Repr

def AgentError.toString : AgentError → String
  | .store message => "store error: " ++ message
  | .llm e => "LLM error: " ++ e.toString
  | .stepCapExceeded => "agent step cap exceeded"
  | .badToolArgs name reason => "tool " ++ name ++ " returned invalid arguments: " ++ reason

inductive AgentEvent where
  | tool (name detail : String)
  | done (reply : String)
  | failed (message : String)
  deriving DecidableEq, Repr

/-- A run of the agent: the tool calls it announced and its result. -/
structure AgentRun where
  tools : List (String × String)
  result : Except AgentError String

/-- What the agent sends before it returns: an answer and the step cap have an event of
their own, the other errors have none. SOURCE: agent.rs:707-788 -/
def AgentRun.events (a : AgentRun) : List AgentEvent :=
  a.tools.map (fun (name, detail) => .tool name detail) ++
    match a.result with
    | .ok reply => [.done reply]
    | .error .stepCapExceeded => [.failed AgentError.stepCapExceeded.toString]
    | .error _ => []

/-! ## A run -/

inductive GateError where
  | closed
  | timeout
  deriving DecidableEq, Repr

/-- What a step takes from outside. -/
structure Choice where
  storeOk : Bool := true
  now : ℕ := 0
  health : BackendState := .green
  admission : Except GateError Unit := .ok ()
  agent : AgentRun := ⟨[], .ok ""⟩

/-- Where a run stands: the store call or the wait that comes next. -/
inductive Pc where
  | spawn
  | history
  | admission
  | persist (pending : List AgentEvent) (doneSeen failedSeen : Bool)
      (result : Except AgentError String)
  | finish (status : ChatTurnStatus) (errorRow : Option String)
  | park (why : String)
  | guardFinalize
  | guardAppend
  | leave

structure Run where
  user : ℕ
  session : ℕ
  turn : ℕ
  resumed : Bool
  pc : Pc

def llmUnavailable : String :=
  "the librarian is unavailable (no LLM backend reachable) — configure one in the admin portal"

def chatCapacityMsg : String := "LLM at capacity — turn not started (queue full)"

def unreadableTranscript : String := "the librarian could not read the session transcript"

def stoppedUnexpectedly : String := "the librarian stopped unexpectedly"

/-- The detail of an error; `short` stands for its cut at 512 bytes. SOURCE: chat_runner.rs:90-96 -/
def llmFailureDetail (short : String → String) (e : LlmError) (backend : BackendState) : String :=
  if backend = .disabled then llmUnavailable else short e.toString

/-- Backend-down is weather, unless no backend is configured. SOURCE: chat_runner.rs:578 -/
def parks (e : LlmError) (backend : BackendState) : Bool := e.isBackendDown && backend ≠ .disabled

/-- The status of a run that did not run to its end. -/
def brokenStatus (resumed : Bool) : ChatTurnStatus := if resumed then .interrupted else .failed

/-- What follows the last event of the agent. SOURCE: chat_runner.rs:540-628 -/
def afterAgent (short : String → String) (resumed doneSeen failedSeen : Bool)
    (backend : BackendState) : Except AgentError String → Pc
  | .ok reply =>
    if doneSeen then .finish .done none
    else .persist [.done reply] doneSeen failedSeen (.ok reply)
  | .error (.llm e) =>
    if parks e backend then .park (short e.toString)
    else .finish (brokenStatus resumed) (some (llmFailureDetail short e backend))
  | .error e => .finish .failed (if failedSeen then none else some e.toString)

/-- The row of an event; a tool event is stored as JSON, with `json` for its text.
SOURCE: chat_runner.rs:682-718 -/
def rowOf (json : String → String → String) : AgentEvent → ChatRole × String
  | .tool name detail => (.tool, json name detail)
  | .done reply => (.assistant, reply)
  | .failed message => (.error, message)

def sawDone (seen : Bool) : AgentEvent → Bool
  | .done _ => true
  | _ => seen

def sawFailed (seen : Bool) : AgentEvent → Bool
  | .failed _ => true
  | _ => seen

/-- A failed store call is logged and changes nothing. -/
def append (db : ChatDb) (r : Run) (ch : Choice) (role : ChatRole) (content : String) : ChatDb :=
  if ch.storeOk then
    match db.appendMessage r.user r.session role content ch.now r.turn with
    | .ok (db', _) => db'
    | .error _ => db
  else db

def finalize (db : ChatDb) (r : Run) (ch : Choice) (status : ChatTurnStatus) : ChatDb :=
  if ch.storeOk then
    match db.finalizeTurn r.user r.turn status ch.now with
    | .ok db' => db'
    | .error _ => db
  else db

def parkTurn (db : ChatDb) (r : Run) (ch : Choice) (why : String) : ChatDb :=
  if ch.storeOk then
    match db.parkWaiting r.user r.turn (some why) ch.now with
    | .ok db' => db'
    | .error _ => db
  else db

/-- The formats the runner takes from outside. -/
structure Format where
  short : String → String
  json : String → String → String

/-- The next step of a run; `leave` and `spawn` are steps of the system.
SOURCE: chat_runner.rs:316-628, 720-783 (park, finish), 868-905 (guard) -/
def runStep (fmt : Format) (db : ChatDb) (r : Run) (ch : Choice) : ChatDb × Pc :=
  match r.pc with
  | .spawn => (db, .history)
  | .history =>
    if ch.storeOk then (db, .admission)
    else (db, .finish .failed (some unreadableTranscript))
  | .admission =>
    if ch.health = .red then (db, .park (fmt.short "backend unhealthy at admission"))
    else
      match ch.admission with
      | .ok () => (db, .persist ch.agent.events false false ch.agent.result)
      -- the shutdown closes the gate: the turn is left resumable, without a row
      | .error .closed => (db, .finish .interrupted none)
      | .error .timeout => (db, .finish .failed (some chatCapacityMsg))
  | .persist (event :: pending) doneSeen failedSeen result =>
    let (role, content) := rowOf fmt.json event
    (append db r ch role content,
      .persist pending (sawDone doneSeen event) (sawFailed failedSeen event) result)
  | .persist [] doneSeen failedSeen result =>
    (db, afterAgent fmt.short r.resumed doneSeen failedSeen ch.health result)
  | .finish status (some message) => (append db r ch .error message, .finish status none)
  | .finish status none => (finalize db r ch status, .leave)
  | .park why => (parkTurn db r ch why, .leave)
  | .guardFinalize => (finalize db r ch (brokenStatus r.resumed), .guardAppend)
  | .guardAppend => (append db r ch .error stoppedUnexpectedly, .leave)
  | .leave => (db, .leave)

/-! ## The system -/

/-- The tables, the registry of live runs, the runs and what the pass of the resume
worker still has to go through. -/
structure State where
  db : ChatDb
  registry : List ℕ
  runs : ℕ → Option Run
  supply : List Listed

def State.init (sessions : Dict ℕ SessionRow) : State where
  db := ⟨sessions, ∅, []⟩
  registry := []
  runs := fun _ => none
  supply := []

def State.setRun (s : State) (i : ℕ) (r : Option Run) : State :=
  { s with runs := fun j => if j = i then r else s.runs j }

inductive Action where
  | submit (i user session turn : ℕ) (message : String) (now : ℕ)
  | pass (health : BackendState)
  | claim (i : ℕ) (ready storeOk : Bool) (now : ℕ)
  | step (i : ℕ) (ch : Choice)
  | abort (i : ℕ)
  | crash (sweepOk : Bool) (now : ℕ)

def Listed.byUser (a b : Listed) : Prop := a.user ≤ b.user

instance : DecidableRel Listed.byUser := fun a b => inferInstanceAs (Decidable (a.user ≤ b.user))

/-- Both supplies by age, then grouped by user. SOURCE: chat_resume.rs:152-182 -/
def supplyOf (db : ChatDb) : List Listed :=
  ((db.resumableTurns ++ db.waitingTurns).insertionSort Listed.older).insertionSort Listed.byUser

/-- The claim by the status the turn was listed with. SOURCE: chat_resume.rs:225-243 -/
def claimListed (db : ChatDb) (l : Listed) (now : ℕ) : Except ChatError (ChatDb × Bool) :=
  if l.row.status = .waitingBackend then db.claimWaiting l.user l.row.sessionId l.turn now
  else db.claimResumable l.user l.row.sessionId l.turn now

/-- The next turn of the pass; one that a gate holds back is skipped, an error ends the
pass. -/
def State.claimNext (s : State) (i : ℕ) (l : Listed) (rest : List Listed)
    (ready storeOk : Bool) (now : ℕ) : State :=
  if ready = false then { s with supply := rest }
  else if storeOk = false then { s with supply := [] }
  else
    match claimListed s.db l now with
    | .error _ => { s with supply := [] }
    | .ok (_, false) => { s with supply := rest }
    | .ok (db, true) =>
      { s with db, supply := rest }.setRun i
        (some ⟨l.user, l.row.sessionId, l.turn, true, .spawn⟩)

/-- A dropped runner. Its guard ends the run while the registry has the turn; the guard
itself is not interrupted. SOURCE: chat_runner.rs:868-905 -/
def State.dropRun (s : State) (i : ℕ) (r : Run) : Option State :=
  match r.pc with
  | .spawn => some (s.setRun i none)
  | .guardFinalize | .guardAppend => none
  | _ =>
    if r.turn ∈ s.registry then some (s.setRun i (some { r with pc := .guardFinalize }))
    else some (s.setRun i none)

def step (fmt : Format) (s : State) : Action → Option State
  | .submit i user session turn message now =>
    match s.runs i with
    | some _ => none
    | none =>
      match s.db.createTurn user session turn message now with
      | .error _ => some s
      | .ok (db, _) => some ({ s with db }.setRun i (some ⟨user, session, turn, false, .spawn⟩))
  | .pass health =>
    -- a known outage and a missing configuration stand the whole pass down
    if health = .red ∨ health = .disabled then some s
    else some { s with supply := supplyOf s.db }
  | .claim i ready storeOk now =>
    match s.runs i, s.supply with
    | none, l :: rest => some (s.claimNext i l rest ready storeOk now)
    | _, _ => none
  | .step i ch =>
    match s.runs i with
    | none => none
    | some r =>
      match r.pc with
      | .spawn =>
        some ({ s with registry := r.turn :: s.registry.erase r.turn }.setRun i
          (some { r with pc := .history }))
      | .leave => some ({ s with registry := s.registry.erase r.turn }.setRun i none)
      | _ =>
        let (db, pc) := runStep fmt s.db r ch
        some ({ s with db }.setRun i (some { r with pc }))
  | .abort i =>
    match s.runs i with
    | none => none
    | some r => s.dropRun i r
  | .crash sweepOk now =>
    some { db := if sweepOk then s.db.bootSweep now else s.db
           registry := []
           runs := fun _ => none
           supply := [] }

end Mycelium.Model.ChatRunner
