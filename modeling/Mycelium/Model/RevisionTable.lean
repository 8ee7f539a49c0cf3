import Mathlib.Logic.Function.Basic
import Mycelium.Model.Revisions

/-!
# The revision table of all scopes

`concept_revisions` holds the chains of every scope; a chain is the rows of one scope and
one path token. `record` and `prune` are the two operations that write it, each one
transaction under SQLite's write lock. Both read the process-wide retention, which
`set_revision_retention` changes between calls.

Tokens are keyed hashes of the path (`Keys.token`); the table never compares paths, so no
assumption on them is needed. Where the token of a scope tells its paths apart, the part of
the table that belongs to the scope is the log of `Mycelium.Model.Revisions`
(`scopeLog_record`).

`issued` is a ghost: every number handed out, newest first.

SOURCE: crates/mycelium-store/src/revisions.rs, migrations/0010_lifecycle.sql
-/

set_option autoImplicit false

namespace Mycelium.Model.RevisionTable

open Mycelium.Model.Revisions

/-- SOURCE: 0010_lifecycle.sql:31-43 -/
structure Row where
  scopeId : String
  pathToken : String
  rev : Revision
  deriving DecidableEq, Repr

/-- The column `op`. SOURCE: revisions.rs:33-41 -/
def opText : RevisionOp → String
  | .create => "create"
  | .update => "update"
  | .delete => "delete"
  | .restore => "restore"
  | .merge => "merge"
  | .consolidate => "consolidate"
  | .migration => "migration"

def revisionOps : List RevisionOp :=
  [.create, .update, .delete, .restore, .merge, .consolidate, .migration]

/-- The operation of a text, when it is one of the vocabulary. -/
def revisionOp? (op : String) : Option RevisionOp := revisionOps.find? fun o => opText o = op

structure State where
  rows : List Row
  retention : ℕ
  issued : List (String × String × ℕ)

/-- An empty table and the default setting. -/
def State.empty : State where
  rows := []
  retention := defaultRevisionRetention
  issued := []

/-- Is the row one of the chain? -/
def Row.inChain (scope token : String) (r : Row) : Bool :=
  r.scopeId = scope && r.pathToken = token

def chain (rows : List Row) (scope token : String) : List Row :=
  rows.filter (Row.inChain scope token)

/-- The stored numbers of a chain, in the order of their insertion. -/
def numbers (rows : List Row) (scope token : String) : List ℕ :=
  (chain rows scope token).map fun r => r.rev.revisionNo

/-- `COALESCE(MAX(revision_no), 0)` -/
def maxNo (rows : List Row) (scope token : String) : ℕ := (numbers rows scope token).foldl max 0

/-- `DELETE … WHERE scope_id = ? AND path_token = ? AND revision_no <= ?`, when the cutoff is
positive. SOURCE: revisions.rs:763-777, 917-929 -/
def pruneRows (rows : List Row) (scope token : String) (newest retention : ℕ) : List Row :=
  let cutoff := retentionCutoff newest retention
  if 0 < cutoff then
    rows.filter fun r => !(r.inChain scope token && (r.rev.revisionNo : ℤ) ≤ cutoff)
  else rows

/-- What a record call passes. -/
structure RecordArgs where
  path : String
  op : String
  source : String
  summary : String
  payload : String

/-- The row a record inserts. SOURCE: revisions.rs:738-760 -/
def newRow (scope tok : String) (no : ℕ) (args : RecordArgs) (op : RevisionOp) (now : String) :
    Row where
  scopeId := scope
  pathToken := tok
  rev := { path := args.path, revisionNo := no, op := op, source := args.source,
           summary := args.summary, payload := args.payload, createdAt := now }

/-- The transaction: the table after it and the number of the row. SOURCE: revisions.rs:706-781 -/
def recordOnce (token : String → String → String) (s : State) (scope : String) (args : RecordArgs)
    (op : RevisionOp) (now : String) : State × ℕ :=
  let tok := token scope args.path
  let no := maxNo s.rows scope tok + 1
  let row := newRow scope tok no args op now
  ({ s with
      rows := pruneRows (s.rows ++ [row]) scope tok no (clampRetention s.retention)
      issued := (scope, tok, no) :: s.issued }, no)

/-- SOURCE: revisions.rs:670-704 -/
def record (token : String → String → String) (s : State) (scope : String) (args : RecordArgs)
    (now : String) : Except RevisionsError (State × ℕ) :=
  match revisionOp? args.op with
  | none => .error (.invalidOp args.op)
  | some op => .ok (recordOnce token s scope args op now)

/-- The table after a prune and how many rows it deleted. SOURCE: revisions.rs:905-932 -/
def prune (s : State) (scope pathToken : String) : State × ℕ :=
  let rows := pruneRows s.rows scope pathToken (maxNo s.rows scope pathToken)
    (clampRetention s.retention)
  ({ s with rows := rows }, s.rows.length - rows.length)

inductive Action where
  | setRetention (retention : ℕ)
  | record (scope : String) (args : RecordArgs) (now : String)
  | prune (scope pathToken : String)

/-- One call. A refused record changes nothing. SOURCE: revisions.rs:69-71 (`setRetention`) -/
def step (token : String → String → String) (s : State) : Action → Option State
  | .setRetention retention => some { s with retention := clampRetention retention }
  | .record scope args now =>
    match record token s scope args now with
    | .ok r => some r.1
    | .error _ => some s
  | .prune scope pathToken => some (prune s scope pathToken).1

/-! ## The log of a scope -/

/-- The rows of a scope, as the log of `Mycelium.Model.Revisions`. -/
def scopeLog (rows : List Row) (scope : String) : Log :=
  (rows.filter fun r => r.scopeId = scope).map Row.rev

/-- The rows of the table carry the token of their path. -/
def Tokened (token : String → String → String) (rows : List Row) : Prop :=
  ∀ r ∈ rows, r.pathToken = token r.scopeId r.rev.path

/-- INTERNAL: a chain of the table is the chain of its path in the scope's log. -/
theorem map_rev_chain {token : String → String → String} {scope : String}
    (hinj : Function.Injective (token scope)) {rows : List Row} (htok : Tokened token rows)
    (path : String) :
    (chain rows scope (token scope path)).map Row.rev =
      (scopeLog rows scope).filter fun r => r.path = path := by
  unfold chain scopeLog
  rw [List.filter_map, List.filter_filter]
  congr 1
  apply List.filter_congr
  intro r hr
  by_cases hscope : r.scopeId = scope
  · have hiff : r.pathToken = token scope path ↔ r.rev.path = path := by
      rw [htok r hr, hscope]
      exact ⟨fun h => hinj h, fun h => by rw [h]⟩
    simp [Row.inChain, hscope, hiff]
  · simp [Row.inChain, hscope]

/-- INTERNAL: so both give the same newest number. -/
theorem maxNo_eq_latestNo {token : String → String → String} {scope : String}
    (hinj : Function.Injective (token scope)) {rows : List Row} (htok : Tokened token rows)
    (path : String) :
    maxNo rows scope (token scope path) = latestNo (scopeLog rows scope) path := by
  unfold maxNo latestNo numbers
  rw [← map_rev_chain hinj htok path, List.map_map]
  rfl

/-- INTERNAL: and the same prune. -/
theorem scopeLog_pruneRows {token : String → String → String} {scope : String}
    (hinj : Function.Injective (token scope)) {rows : List Row} (htok : Tokened token rows)
    (path : String) (newest retention : ℕ) :
    scopeLog (pruneRows rows scope (token scope path) newest retention) scope =
      pruneChain (scopeLog rows scope) path newest retention := by
  unfold pruneRows pruneChain
  simp only
  split
  · unfold scopeLog
    rw [List.filter_map, List.filter_filter, List.filter_filter]
    congr 1
    apply List.filter_congr
    intro r hr
    by_cases hscope : r.scopeId = scope
    · have hiff : r.pathToken = token scope path ↔ r.rev.path = path := by
        rw [htok r hr, hscope]
        exact ⟨fun h => hinj h, fun h => by rw [h]⟩
      simp [Row.inChain, hscope, hiff]
    · simp [hscope]
  · rfl

/-- A record on the table is the record on the scope's log. -/
theorem scopeLog_record {token : String → String → String} {scope : String}
    (hinj : Function.Injective (token scope)) {s : State} (htok : Tokened token s.rows)
    (args : RecordArgs) (op : RevisionOp) (now : String) :
    scopeLog (recordOnce token s scope args op now).1.rows scope =
      Revisions.recordOnce (scopeLog s.rows scope)
        { path := args.path, op := op, source := args.source, summary := args.summary,
          payload := args.payload } s.retention now := by
  have hno := maxNo_eq_latestNo hinj htok args.path
  simp only [recordOnce, newRow, Revisions.recordOnce, Draft.row]
  rw [scopeLog_pruneRows hinj, hno]
  · simp [scopeLog]
  · intro r hr
    rcases List.mem_append.mp hr with hr | hr
    · exact htok r hr
    · rw [List.mem_singleton.mp hr]

end Mycelium.Model.RevisionTable
