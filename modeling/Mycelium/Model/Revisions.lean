import Mathlib.Data.Int.Basic
import Mathlib.Data.List.Basic
import Mathlib.Order.Lattice
import Mycelium.Lib.FoldMax

/-!
# The revision log of a scope

`concept_revisions` is a write-ahead undo log: every operation that changes a concept
records a full snapshot first. The table below is the part of it that belongs to one
scope; its rows are told apart by their path, the code's path token being a keyed hash of
it, and its payloads are the decrypted ones.

SOURCE: crates/mycelium-store/src/revisions.rs
-/

set_option autoImplicit false

namespace Mycelium.Model.Revisions

/-- The bounded vocabulary of revision operations. SOURCE: revisions.rs:34-42 -/
inductive RevisionOp where
  | create
  | update
  | delete
  | restore
  | merge
  | consolidate
  | migration
  deriving DecidableEq, Repr

inductive RevisionsError where
  | invalidOp (message : String)
  | notFound (path : String) (n : ℕ)
  deriving DecidableEq, Repr

/-- A row of the log. SOURCE: revisions.rs:741-748 -/
structure Revision where
  path : String
  revisionNo : ℕ
  op : RevisionOp
  source : String
  summary : String
  payload : String
  createdAt : String
  deriving DecidableEq, Repr

/-- The rows of one scope, oldest first. -/
abbrev Log := List Revision

def defaultRevisionRetention : ℕ := 200

/-- SOURCE: revisions.rs:62-64 -/
def clampRetention (v : ℕ) : ℕ := max 25 (min v 2000)

/-- Rows past retention sit at or below this number. SOURCE: revisions.rs:607-609 -/
def retentionCutoff (newest retention : ℕ) : ℤ := newest - retention

/-- The deterministic summary of an operation. SOURCE: revisions.rs:346-361 -/
def opSummary (op : RevisionOp) (n : Option ℕ) : Except RevisionsError String :=
  match op with
  | .create => .ok "concept created"
  | .update => .ok "concept updated"
  | .delete => .ok "concept deleted"
  | .restore =>
    match n with
    | some k => .ok ("restored to revision " ++ toString k)
    | none => .error (.invalidOp "restore requires the target revision number")
  | .merge => .ok "dream merge"
  | .consolidate => .ok "consolidated body history"
  | .migration => .ok "deprecated tag migrated to status: retired"

/-- `COALESCE(MAX(revision_no), 0)` over the chain of a path. -/
def latestNo (log : Log) (path : String) : ℕ :=
  ((log.filter fun r => r.path = path).map Revision.revisionNo).foldl max 0

/-- The retention prune of a chain whose newest row is `newest`: the cutoff only deletes
when it is positive. SOURCE: revisions.rs:765-777 -/
def pruneChain (log : Log) (path : String) (newest retention : ℕ) : Log :=
  let cutoff := retentionCutoff newest retention
  if 0 < cutoff then log.filter fun r => !(r.path = path && (r.revisionNo : ℤ) ≤ cutoff)
  else log

/-- What a record call passes: everything of the row but its number. -/
structure Draft where
  path : String
  op : RevisionOp
  source : String
  summary : String
  payload : String

/-- The row a draft becomes: it takes the number after the newest one of its chain. -/
def Draft.row (d : Draft) (log : Log) (now : String) : Revision where
  path := d.path
  revisionNo := latestNo log d.path + 1
  op := d.op
  source := d.source
  summary := d.summary
  payload := d.payload
  createdAt := now

/-- The record transaction: the row takes the next number of its chain and the chain is
pruned to the retention in force. The write lock is held from the read of the maximum to
the commit, so the transaction is one step. SOURCE: revisions.rs:706-781 -/
def recordOnce (log : Log) (d : Draft) (retention : ℕ) (now : String) : Log :=
  let row := d.row log now
  pruneChain (log ++ [row]) d.path row.revisionNo (clampRetention retention)

/-- One revision's snapshot. SOURCE: revisions.rs:834-853 -/
def get (log : Log) (path : String) (no : ℕ) : Except RevisionsError String :=
  match log.find? fun r => r.path = path ∧ r.revisionNo = no with
  | some r => .ok r.payload
  | none => .error (.notFound path no)

/-! ## What a record keeps -/

theorem clampRetention_pos (v : ℕ) : 0 < clampRetention v := by
  unfold clampRetention
  omega

/-- INTERNAL: pruning only takes rows of the chain that are older than its newest
`retention` ones. -/
theorem mem_pruneChain {log : Log} {r : Revision} (hr : r ∈ log) (path : String)
    (newest retention : ℕ) :
    r ∈ pruneChain log path newest retention ∨
      (r.path = path ∧ r.revisionNo + retention ≤ newest) := by
  unfold pruneChain retentionCutoff
  simp only
  split
  · by_cases hout : r.path = path ∧ (r.revisionNo : ℤ) ≤ (newest : ℤ) - retention
    · right
      refine ⟨hout.1, ?_⟩
      have := hout.2
      omega
    · left
      refine List.mem_filter.mpr ⟨hr, ?_⟩
      by_cases hp : r.path = path
      · have hno : ¬ (r.revisionNo : ℤ) ≤ (newest : ℤ) - retention := fun h => hout ⟨hp, h⟩
        simp [hp, hno]
      · simp [hp]
  · exact Or.inl hr

/-- INTERNAL: a row of the log survives a record, or the record makes it fall out of the
retention of its chain. -/
theorem mem_recordOnce_of_mem {log : Log} {r : Revision} (hr : r ∈ log) (d : Draft)
    (retention : ℕ) (now : String) :
    r ∈ recordOnce log d retention now ∨
      (r.path = d.path ∧
        r.revisionNo + clampRetention retention ≤ (d.row log now).revisionNo) :=
  mem_pruneChain (List.mem_append_left _ hr) _ _ _

/-- INTERNAL: the recorded row is in the log: the retention is positive. -/
theorem row_mem_recordOnce (log : Log) (d : Draft) (retention : ℕ) (now : String) :
    d.row log now ∈ recordOnce log d retention now := by
  have hmem : d.row log now ∈ log ++ [d.row log now] := by simp
  rcases mem_pruneChain hmem d.path (d.row log now).revisionNo (clampRetention retention) with
    h | ⟨-, h⟩
  · exact h
  · have hpos := clampRetention_pos retention
    omega

theorem le_latestNo {log : Log} {r : Revision} (hr : r ∈ log) :
    r.revisionNo ≤ latestNo log r.path := by
  apply FoldMax.le_foldl_max
  left
  rw [List.mem_map]
  exact ⟨r, List.mem_filter.mpr ⟨hr, decide_eq_true rfl⟩, rfl⟩

/-- INTERNAL: a record adds its row and no other. -/
theorem mem_of_mem_recordOnce {log : Log} {d : Draft} {retention : ℕ} {now : String}
    {r : Revision} (hr : r ∈ recordOnce log d retention now) : r ∈ log ∨ r = d.row log now := by
  have hin : r ∈ log ++ [d.row log now] := by
    unfold recordOnce pruneChain at hr
    simp only at hr
    split at hr
    · exact List.mem_of_mem_filter hr
    · exact hr
  rcases List.mem_append.mp hin with h | h
  · exact .inl h
  · exact .inr (List.mem_singleton.mp h)

/-- INTERNAL: the recorded row is the newest of its chain. -/
theorem latestNo_recordOnce (log : Log) (d : Draft) (retention : ℕ) (now : String) :
    latestNo (recordOnce log d retention now) d.path = latestNo log d.path + 1 := by
  apply FoldMax.foldl_max_eq (Nat.zero_le _)
  · intro n hn
    simp only [List.mem_map, List.mem_filter, decide_eq_true_eq] at hn
    obtain ⟨r, ⟨hr, hpath⟩, rfl⟩ := hn
    rcases mem_of_mem_recordOnce hr with hr | rfl
    · have hle := le_latestNo hr
      rw [hpath] at hle
      omega
    · exact le_refl _
  · left
    rw [List.mem_map]
    refine ⟨d.row log now, ?_, rfl⟩
    exact List.mem_filter.mpr ⟨row_mem_recordOnce log d retention now, decide_eq_true rfl⟩

/-- The newest row of a chain is the one just recorded. -/
theorem get_recordOnce (log : Log) (d : Draft) (retention : ℕ) (now : String) :
    get (recordOnce log d retention now) d.path (latestNo log d.path + 1) = .ok d.payload := by
  unfold get
  cases hfind : (recordOnce log d retention now).find? fun r =>
      r.path = d.path ∧ r.revisionNo = latestNo log d.path + 1 with
  | none =>
    have hno := List.find?_eq_none.mp hfind _ (row_mem_recordOnce log d retention now)
    exact absurd (decide_eq_true ⟨rfl, rfl⟩) hno
  | some r =>
    have hr : r.path = d.path ∧ r.revisionNo = latestNo log d.path + 1 := by
      simpa using List.find?_some hfind
    rcases mem_of_mem_recordOnce (List.mem_of_find?_eq_some hfind) with hold | rfl
    · have hle := le_latestNo hold
      rw [hr.1, hr.2] at hle
      omega
    · rfl

end Mycelium.Model.Revisions
