import Mathlib.Data.List.Sort
import Mathlib.Data.Prod.Lex
import Mathlib.Data.String.Basic

/-!
# The traces of agent runs

One row for each agent run, in the scope of its user. Saving a trace is two statements, an
insertion and a deletion of what is beyond the newest ones; other calls run between the two, and
a call that is dropped there never takes the second. The columns nothing reads back are written
as the source writes them; how a trace is written as text and read from it is a parameter.

SOURCE: crates/mycelium-librarian/src/trace.rs, crates/mycelium-store/migrations/0005_perf.sql
-/

set_option autoImplicit false

namespace Mycelium.Model.Traces

inductive TraceOutcome where
  | success
  | inPart
  | failed
  deriving DecidableEq, Repr

inductive TraceKind where
  | query
  | mutation
  | chat
  deriving DecidableEq, Repr

structure TraceStep where
  seq : ℕ
  tool : String
  summary : String
  paths : List String
  write : Bool
  deriving DecidableEq, Repr

/-- SOURCE: trace.rs:45-59 -/
structure AgentTrace where
  id : String
  kind : TraceKind
  input : String
  startedAt : String
  durationMs : ℕ
  steps : List TraceStep
  answer : String
  notationLine : String
  outcome : TraceOutcome
  deriving DecidableEq, Repr

/-- A row of `agent_traces`; the identifier is its primary key.
SOURCE: 0005_perf.sql:27-38 -/
structure TraceRow where
  id : String
  scope : String
  kind : String
  input : String
  answer : String
  notationLine : String
  outcome : String
  durationMs : ℤ
  createdAt : String
  body : String
  deriving DecidableEq, Repr

def TraceKind.column : TraceKind → String
  | .query => "query"
  | .mutation => "mutation"
  | .chat => "chat"

def TraceOutcome.column : TraceOutcome → String
  | .success => "success"
  | .inPart => "partial"
  | .failed => "failed"

/-- The row of a trace; the duration is cut to 64 bits with a sign.
SOURCE: trace.rs:124-156 -/
def AgentTrace.row (trace : AgentTrace) (scopeId body : String) : TraceRow where
  id := trace.id
  scope := scopeId
  kind := trace.kind.column
  input := trace.input
  answer := trace.answer
  notationLine := trace.notationLine
  outcome := trace.outcome.column
  durationMs := (trace.durationMs : ℤ).bmod (2 ^ 64)
  createdAt := trace.startedAt
  body := body

/-- The order of both queries, `created_at DESC, id DESC`, over the two columns. -/
def Newer (a b : String × String) : Prop := toLex b ≤ toLex a

instance : DecidableRel Newer := fun a b => inferInstanceAs (Decidable (toLex b ≤ toLex a))

/-- The columns of the order. -/
def TraceRow.key (row : TraceRow) : String × String := (row.createdAt, row.id)

def maxTraces : ℕ := 50

/-- The rows of a scope, newest first. -/
def newest (rows : List TraceRow) (scopeId : String) : List TraceRow :=
  (rows.filter fun row => row.scope = scopeId).insertionSort fun a b => Newer a.key b.key

/-- The deletion of the second statement. SOURCE: trace.rs:161-171 -/
def pruned (rows : List TraceRow) (scopeId : String) : List TraceRow :=
  rows.filter fun row =>
    ¬ (row.scope = scopeId ∧ row.id ∉ ((newest rows scopeId).take maxTraces).map TraceRow.id)

/-- A row whose body no longer reads as a trace takes one of the `limit` places and is left out
of the answer. SOURCE: trace.rs:174-190 -/
def listTraces (decode : String → Option AgentTrace) (rows : List TraceRow) (scopeId : String)
    (limit : ℕ) : List AgentTrace :=
  ((newest rows scopeId).take limit).filterMap fun row => decode row.body

/-- The table, and the scopes of the calls that are between their two statements. -/
structure State where
  rows : List TraceRow := []
  saving : List String := []
  deriving DecidableEq, Repr

inductive Action where
  /-- The first statement of a call; `fails` when the database refuses it. -/
  | insert (scopeId : String) (trace : AgentTrace) (fails : Bool)
  /-- The second one. -/
  | prune (scopeId : String) (fails : Bool)
  /-- The call is dropped between the two. -/
  | leave (scopeId : String)
  deriving DecidableEq, Repr

/-- The body of a trace the database takes: it can be written as text, its identifier is free
and the statement goes through. -/
def insertedBody (encode : AgentTrace → Option String) (s : State) (trace : AgentTrace)
    (fails : Bool) : Option String :=
  if fails || s.rows.any (fun row => row.id = trace.id) then none else encode trace

/-- SOURCE: trace.rs:123-172 -/
def step (encode : AgentTrace → Option String) (s : State) : Action → Option State
  | .insert scopeId trace fails =>
    match insertedBody encode s trace fails with
    | none => some s
    | some body =>
      some { rows := trace.row scopeId body :: s.rows, saving := scopeId :: s.saving }
  | .prune scopeId fails =>
    if scopeId ∈ s.saving then
      some { rows := if fails then s.rows else pruned s.rows scopeId
             saving := s.saving.erase scopeId }
    else none
  | .leave scopeId =>
    if scopeId ∈ s.saving then some { s with saving := s.saving.erase scopeId } else none

end Mycelium.Model.Traces
