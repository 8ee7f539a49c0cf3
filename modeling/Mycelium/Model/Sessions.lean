import Mathlib.Data.String.Basic
import Mycelium.Model.Timestamps

/-!
# The session table

The `sessions` table with its columns as texts, and the session manager over it. A lookup
reads the expiry and compares instants, the maintenance compares texts. From outside come
the hash of a session id and the reader of RFC 3339 texts. User ids are numbers.

SOURCE: crates/mycelium-auth/src/session.rs
-/

set_option autoImplicit false

namespace Mycelium.Model.Sessions

open Mycelium.Model.Timestamps

inductive SessionError where
  | db
  | notFound
  deriving DecidableEq, Repr

/-- A row; `id` is the hash of the session id. -/
structure SessionRow where
  id : String
  userId : ℕ
  csrfToken : String
  createdAt : String
  expiresAt : String
  deriving DecidableEq, Repr

/-- A live session; `id` is the id itself. SOURCE: session.rs:19-26 -/
structure SessionRecord where
  id : ℕ
  userId : ℕ
  csrfToken : String
  expiresAt : Instant
  deriving DecidableEq, Repr

abbrev Table : Type := List SessionRow

/-- What the session manager calls. -/
structure Crates where
  hashSessionId : ℕ → String
  parseFromRfc3339 : String → Option Instant

section Manager

variable (X : Crates)

def lookup (t : Table) (sessionId : ℕ) : Option SessionRow :=
  t.find? fun r => r.id = X.hashSessionId sessionId

/-- `id` and `csrf` are the random ids drawn; none when the expiry is outside the years 0000 to
9999. The primary key refuses a hash that is there. SOURCE: session.rs:58-82 -/
def createWithTtl (t : Table) (userId : ℕ) (ttl : Duration) (id : ℕ) (csrf : String)
    (now : Instant) : Option (Except SessionError SessionRecord × Table) :=
  (now.plus ttl).map fun expires =>
    let csrfToken := "myc2-csrf-" ++ csrf
    if (lookup X t id).isSome then (.error .db, t)
    else
      (.ok { id, userId, csrfToken, expiresAt := expires },
        t ++ [{ id := X.hashSessionId id, userId, csrfToken, createdAt := now.toRfc3339
                expiresAt := expires.toRfc3339 }])

/-- Logout. SOURCE: session.rs:115-121 -/
def delete (t : Table) (sessionId : ℕ) : Table :=
  t.filter fun r => r.id ≠ X.hashSessionId sessionId

/-- `deletes` is whether the deletion of an expired row goes through: its error is dropped.
SOURCE: session.rs:85-112 -/
def get (t : Table) (sessionId : ℕ) (now : Instant) (deletes : Bool) :
    Except SessionError SessionRecord × Table :=
  match lookup X t sessionId with
  | none => (.error .notFound, t)
  | some r =>
    match X.parseFromRfc3339 r.expiresAt with
    | none => (.error .notFound, t)
    | some expires =>
      if expires < now then (.error .notFound, if deletes then delete X t sessionId else t)
      else (.ok { id := sessionId, userId := r.userId, csrfToken := r.csrfToken
                  expiresAt := expires }, t)

/-- SOURCE: session.rs:124-130 -/
def deleteAllForUser (t : Table) (userId : ℕ) : Table := t.filter fun r => r.userId ≠ userId

/-- The rows affected, and the rows left. SOURCE: session.rs:133-140 -/
def purgeExpired (t : Table) (now : Instant) : ℕ × Table :=
  ((t.filter fun r => r.expiresAt < now.toRfc3339).length,
    t.filter fun r => ¬ r.expiresAt < now.toRfc3339)

/-! ## Runs -/

inductive Call where
  | create (userId : ℕ) (ttl : Duration) (id : ℕ) (csrf : String) (now : Instant)
  | get (sessionId : ℕ) (now : Instant) (deletes : Bool)
  | delete (sessionId : ℕ)
  | deleteAllForUser (userId : ℕ)
  | purgeExpired (now : Instant)

def step (t : Table) : Call → Option Table
  | .create userId ttl id csrf now => (createWithTtl X t userId ttl id csrf now).map Prod.snd
  | .get sessionId now deletes => some (get X t sessionId now deletes).2
  | .delete sessionId => some (delete X t sessionId)
  | .deleteAllForUser userId => some (deleteAllForUser t userId)
  | .purgeExpired now => some (purgeExpired t now).2

end Manager

end Mycelium.Model.Sessions
