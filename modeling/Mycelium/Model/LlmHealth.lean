import Mathlib.Algebra.GroupWithZero.Nat

/-!
# The backend health machine

What the server reports about the language model backend, and about the embeddings backend:
one machine in two instances. Its notes come from every completion and from the periodic probe;
each takes the machine's lock, so whatever tasks run at once the machine sees one sequence of
notes. Clocks are seconds.

SOURCE: crates/mycelium-librarian/src/llm_health.rs, crates/mycelium-librarian/src/llm.rs,
crates/mycelium-web/src/server.rs
-/

set_option autoImplicit false

namespace Mycelium.Model.LlmHealth

def modelSuccessStaleSecs : ℕ := 600

def redFailureThreshold : ℕ := 3

/-- The counter of failures is 32 bits wide and saturates. -/
def u32Max : ℕ := 2 ^ 32 - 1

inductive BackendState where
  | disabled
  | green
  | yellow
  | red
  deriving DecidableEq, Repr

/-- SOURCE: llm_health.rs:132-140 -/
structure Inner where
  configured : Bool := true
  consecutiveFailures : ℕ := 0
  downSince : Option ℕ := none
  lastObservation : Option ℕ := none
  checkedAt : Option ℕ := none
  deriving DecidableEq, Repr

structure HealthSnapshot where
  state : BackendState
  downSince : Option ℕ
  lastObservation : Option ℕ
  consecutiveFailures : ℕ
  checkedAt : Option ℕ
  deriving DecidableEq, Repr

/-- SOURCE: llm_health.rs:156-165 -/
def Inner.baseState (inner : Inner) : BackendState :=
  if !inner.configured then .disabled
  else if inner.consecutiveFailures = 0 then .green
  else if inner.consecutiveFailures < redFailureThreshold then .yellow
  else .red

/-- No success at all is older than any bound. SOURCE: llm_health.rs:179-184 -/
def isStale (now : ℕ) : Option ℕ → Bool
  | none => true
  | some ts => modelSuccessStaleSecs < now - ts

/-- SOURCE: llm_health.rs:170-190 -/
def Inner.effectiveState (inner : Inner) (now : ℕ) (lastModelSuccess : Option ℕ) (busy : Bool) :
    BackendState :=
  let base := inner.baseState
  if base = .green && busy && isStale now lastModelSuccess then .yellow else base

/-- SOURCE: llm_health.rs:264-279 -/
def Inner.snapshotAt (inner : Inner) (now : ℕ) (lastModelSuccess : Option ℕ) (busy : Bool) :
    HealthSnapshot where
  state := inner.effectiveState now lastModelSuccess busy
  downSince := inner.downSince
  lastObservation := inner.lastObservation
  consecutiveFailures := inner.consecutiveFailures
  checkedAt := inner.checkedAt

/-- The embeddings instance is never busy. SOURCE: llm_health.rs:393-406 -/
def embeddingSnapshot (inner : Inner) (now : ℕ) (embLastSuccess : Option ℕ) : HealthSnapshot :=
  inner.snapshotAt now embLastSuccess false

/-- SOURCE: llm_health.rs:291-300 -/
def Inner.noteOkAt (inner : Inner) (now : ℕ) : Inner :=
  if !inner.configured then inner
  else { inner with
    consecutiveFailures := 0, downSince := none, lastObservation := some now,
    checkedAt := some now }

/-- SOURCE: llm_health.rs:313-323 -/
def Inner.noteFailureAt (inner : Inner) (now : ℕ) : Inner :=
  if !inner.configured then inner
  else { inner with
    downSince := if inner.consecutiveFailures = 0 then some now else inner.downSince
    consecutiveFailures := min (inner.consecutiveFailures + 1) u32Max
    checkedAt := some now }

def Inner.setDisabled (inner : Inner) : Inner := { inner with configured := false }

/-- SOURCE: llm_health.rs:336-342 -/
def Inner.noteConfigured (inner : Inner) : Inner :=
  if inner.configured then inner else {}

/-! ## What feeds the machine -/

/-- A call of one of the four methods that change the machine. -/
inductive Note where
  | ok (now : ℕ)
  | failure (now : ℕ)
  | disabled
  | configured
  deriving DecidableEq, Repr

def Inner.note (inner : Inner) : Note → Inner
  | .ok now => inner.noteOkAt now
  | .failure now => inner.noteFailureAt now
  | .disabled => inner.setDisabled
  | .configured => inner.noteConfigured

/-- What became of a request to the backend: it failed on the way, it was answered with a
status, or the answer to it was empty. -/
inductive LlmError where
  | request
  | status (code : ℕ)
  | emptyResponse
  deriving DecidableEq, Repr

/-- SOURCE: llm.rs:264-270 -/
def LlmError.isBackendDown : LlmError → Bool
  | .request => true
  | .status code => 500 ≤ code || code = 401 || code = 403
  | .emptyResponse => false

/-- The note of one completion, if it makes one. SOURCE: llm.rs:280-303 -/
def completionNotes (outcome : Except LlmError Unit) (now : ℕ) : List Note :=
  match outcome with
  | .ok () => [.ok now]
  | .error e => if e.isBackendDown then [.failure now] else []

/-- Any answer is healthy but one of a server in trouble or of refused credentials.
SOURCE: llm_health.rs:423-446 -/
def probeOnce : Option ℕ → Bool
  | none => false
  | some code => !(500 ≤ code || code = 401 || code = 403)

/-- What one tick of the probe finds in the stored row. -/
inductive RowRead where
  | unreadable
  | absent
  | undecryptable
  | present
  deriving DecidableEq, Repr

/-- The notes of one tick of the probe, in order. SOURCE: server.rs:348-377 -/
def probeTickNotes (row : RowRead) (response : Option ℕ) (now : ℕ) : List Note :=
  match row with
  | .unreadable => []
  | .absent => [.disabled]
  | .undecryptable => [.configured]
  | .present => [.configured, if probeOnce response then .ok now else .failure now]

/-! ## Error texts -/

/-- Bytes. -/
def detailCap : ℕ := 512

/-- The characters that lie within the first `room` bytes. -/
def takeBytes : ℕ → List Char → List Char
  | _, [] => []
  | room, c :: cs => if c.utf8Size ≤ room then c :: takeBytes (room - c.utf8Size) cs else []

/-- A text bounded for a stored row. SOURCE: llm_health.rs:456-466 -/
def shortDetail (text : String) : String :=
  if text.utf8ByteSize ≤ detailCap then text
  else String.ofList (takeBytes detailCap text.toList) ++ "… [truncated]"

end Mycelium.Model.LlmHealth
