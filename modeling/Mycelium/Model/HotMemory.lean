import Mycelium.Model.Concepts

/-!
# Hot memory

The working set of recently written concepts and recent answers of each scope, in memory and
shared by all calls of the process. A call that records takes the set of its scope out of the
map, changes it and puts it back, each under a lock of its own; a lookup takes the set and works
on it across its reads and its question to the model.

Times are readings of the monotonic clock in nanoseconds. `log` is a ghost: what has been
recorded in a scope and what has been taken out of its set since, oldest first.

SOURCE: crates/mycelium-librarian/src/hot_memory.rs
-/

set_option autoImplicit false

namespace Mycelium.Model.HotMemory

open Mycelium.Model.Text Mycelium.Model.Concepts

def maxConcepts : ℕ := 10

def maxQas : ℕ := 10

def ttl : ℕ := 3600 * 10 ^ 9

def maxExcerptChars : ℕ := 1500

/-! ## The set of a scope -/

/-- SOURCE: hot_memory.rs:34-39 -/
structure HotQa where
  question : String
  answer : String
  time : ℕ
  deriving DecidableEq, Repr

/-- The paths with the times they were touched, oldest first. SOURCE: hot_memory.rs:41-46 -/
structure HotScopeState where
  concepts : List (String × ℕ) := []
  qas : List HotQa := []
  deriving DecidableEq, Repr

/-- A recording call and its arguments. -/
inductive Record where
  | write (path : String)
  | delete (path : String)
  | query (question answer : String)
  deriving DecidableEq

/-- What happens to a scope's set. -/
inductive Event where
  | wrote (path : String) (time : ℕ)
  | evicted (path : String)
  | deleted (path : String)
  | unreadable (path : String)
  | asked (qa : HotQa)
  | qaEvicted (qa : HotQa)
  | purged
  deriving DecidableEq

/-- The concept moves to the end of the set, whose first entries give way; the answers are
purged. SOURCE: hot_memory.rs:67-76 -/
def recordHotWrite (st : HotScopeState) (path : String) (now : ℕ) : HotScopeState × List Event :=
  let concepts := st.concepts.filter (fun e => e.1 ≠ path) ++ [(path, now)]
  let excess := concepts.length - maxConcepts
  ({ concepts := concepts.drop excess, qas := [] },
    .wrote path now :: ((concepts.take excess).map fun e => .evicted e.1) ++ [.purged])

/-- SOURCE: hot_memory.rs:80-85 -/
def recordHotDelete (st : HotScopeState) (path : String) : HotScopeState × List Event :=
  ({ concepts := st.concepts.filter fun e => e.1 ≠ path, qas := [] }, [.deleted path, .purged])

/-- SOURCE: hot_memory.rs:88-99 -/
def recordHotQuery (st : HotScopeState) (question answer : String) (now : ℕ) :
    HotScopeState × List Event :=
  let qa : HotQa := { question, answer, time := now }
  let qas := st.qas ++ [qa]
  let excess := qas.length - maxQas
  ({ st with qas := qas.drop excess }, .asked qa :: (qas.take excess).map .qaEvicted)

def Record.apply (r : Record) (st : HotScopeState) (now : ℕ) : HotScopeState × List Event :=
  match r with
  | .write path => recordHotWrite st path now
  | .delete path => recordHotDelete st path
  | .query question answer => recordHotQuery st question answer now

/-! ## The texts of a lookup -/

/-- What a lookup shows of a concept. SOURCE: hot_memory.rs:132-144 -/
def conceptSection (c : Concept) : String :=
  let title := c.frontmatter.title.getD ""
  let desc := c.frontmatter.description.getD ""
  let header :=
    if title = "" then "CONCEPT " ++ c.sourcePath
    else if desc = "" then "CONCEPT " ++ c.sourcePath ++ " — " ++ title
    else "CONCEPT " ++ c.sourcePath ++ " — " ++ title ++ " (" ++ desc ++ ")"
  header ++ "\n" ++ String.ofList (c.body.toList.take maxExcerptChars)

def qaSection (qa : HotQa) : String :=
  "PREVIOUS Q&A\nQ: " ++ qa.question ++ "\nA: " ++ qa.answer

def lookupPrompt (sections : List String) (question : String) : String :=
  "RECENT MEMORY:\n\n" ++ join "\n\n---\n\n" sections ++ "\n\nQUESTION: " ++ question

/-- The answer in the model's reply. The ASCII capitals are enough, no other letter's capital
completes the word. SOURCE: hot_memory.rs:176-181 -/
def answerOf (reply : String) : Option String :=
  let text := trim reply.toList
  if text.isEmpty || "UNKNOWN".toList.isPrefixOf (text.map Char.toUpper) then none
  else some (String.ofList text)

/-! ## Calls -/

/-- What a step takes from outside: the concepts that read well and the reply of the model, when
the call to it succeeds. -/
structure Choice where
  read : String → Option Concept := fun _ => none
  reply : Option String := none

/-- Where a call stands. -/
inductive Task where
  | idle
  | holding (scope : String) (r : Record) (held : HotScopeState)
  | stamped (scope : String) (r : Record) (held : HotScopeState) (now : ℕ)
  | reading (scope question : String) (todo : List (String × ℕ)) (qas : List HotQa)
      (sections : List String)
  | dropping (scope question path : String) (todo : List (String × ℕ)) (qas : List HotQa)
      (sections : List String)
  | dropped (scope question path : String) (held : HotScopeState) (todo : List (String × ℕ))
      (qas : List HotQa) (sections : List String)
  | pairs (question : String) (qas : List HotQa) (sections : List String)
  | asking (prompt : String)
  | finished (answer : Option String)
  deriving DecidableEq

structure State where
  now : ℕ
  hot : String → Option HotScopeState
  tasks : ℕ → Task
  log : String → List Event

def State.init : State where
  now := 0
  hot := fun _ => none
  tasks := fun _ => .idle
  log := fun _ => []

inductive Action where
  | tick (d : ℕ)
  | record (i : ℕ) (scope : String) (r : Record)
  | lookup (i : ℕ) (scope question : String)
  | step (i : ℕ) (ch : Choice)
  | abandon (i : ℕ)

def State.setTask (s : State) (i : ℕ) (task : Task) : State :=
  { s with tasks := fun j => if j = i then task else s.tasks j }

/-- The set that `state_for` gives. SOURCE: hot_memory.rs:50-56 -/
def State.stateFor (s : State) (scope : String) : HotScopeState := (s.hot scope).getD {}

/-- `state_for` takes the set out of the map. -/
def State.take (s : State) (scope : String) : State :=
  { s with hot := fun k => if k = scope then none else s.hot k }

/-- SOURCE: hot_memory.rs:58-63 -/
def State.put (s : State) (scope : String) (st : HotScopeState) (events : List Event) : State :=
  { s with
    hot := fun k => if k = scope then some st else s.hot k
    log := fun k => if k = scope then s.log k ++ events else s.log k }

/-- The next step of a call. A path that is not readable any more leaves the set that is in the
map then, which the lookup has taken out. SOURCE: hot_memory.rs:116-181 -/
def taskStep (s : State) (ch : Choice) : Task → State × Task
  | .idle => (s, .idle)
  | .holding scope r held => (s, .stamped scope r held s.now)
  | .stamped scope r held now =>
    (s.put scope (r.apply held now).1 (r.apply held now).2, .finished none)
  | .reading _ question [] qas sections => (s, .pairs question qas sections)
  | .reading scope question ((path, touched) :: todo) qas sections =>
    if ttl < s.now - touched then (s, .reading scope question todo qas sections)
    else
      match ch.read path with
      | some c => (s, .reading scope question todo qas (sections ++ [conceptSection c]))
      | none => (s, .dropping scope question path todo qas sections)
  | .dropping scope question path todo qas sections =>
    (s.take scope, .dropped scope question path (s.stateFor scope) todo qas sections)
  | .dropped scope question path held todo qas sections =>
    (s.put scope { held with concepts := held.concepts.filter fun e => e.1 ≠ path }
      [.unreadable path], .reading scope question todo qas sections)
  | .pairs question [] sections =>
    if sections = [] then (s, .finished none) else (s, .asking (lookupPrompt sections question))
  | .pairs question (qa :: qas) sections =>
    if ttl < s.now - qa.time then (s, .pairs question qas sections)
    else (s, .pairs question qas (sections ++ [qaSection qa]))
  | .asking _ => (s, .finished (ch.reply.bind answerOf))
  | .finished answer => (s, .finished answer)

/-- One step of the process. A lookup may be abandoned where it waits. -/
def step (s : State) : Action → Option State
  | .tick d => some { s with now := s.now + d }
  | .record i scope r =>
    match s.tasks i with
    | .idle | .finished _ =>
      some ((s.take scope).setTask i (.holding scope r (s.stateFor scope)))
    | _ => none
  | .lookup i scope question =>
    match s.tasks i with
    | .idle | .finished _ =>
      let st := s.stateFor scope
      some ((s.take scope).setTask i (.reading scope question st.concepts st.qas []))
    | _ => none
  | .step i ch =>
    let r := taskStep s ch (s.tasks i)
    some (r.1.setTask i r.2)
  | .abandon i =>
    match s.tasks i with
    | .reading .. | .asking _ => some (s.setTask i .idle)
    | _ => none

end Mycelium.Model.HotMemory
