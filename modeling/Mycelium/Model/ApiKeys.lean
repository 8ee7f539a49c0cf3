import Mathlib.Data.List.Sort
import Mycelium.Lib.Hex
import Mycelium.Model.RequestGate

/-!
# API keys

The table of keys and who comes with one. A token is shown once and stored by its hash; a key
is revoked by a mark that stays, and goes with its user. Each statement of a call is a step of
its own, so the calls of any number of clients interleave. Ids are numbers, and the instants of
the table are the values its texts read as; hash and clock are parameters.

SOURCE: crates/mycelium-auth/src/api_key.rs, crates/mycelium-auth/src/users.rs,
crates/mycelium-mcp/src/auth.rs, crates/mycelium-web/src/api.rs
-/

set_option autoImplicit false

namespace Mycelium.Model.ApiKeys

open Mycelium.Model.Text Mycelium.Model.Timestamps
open Mycelium.Model.RequestGate (Role SessionUser)

inductive ApiKeyError where
  | db
  | notFound
  deriving DecidableEq, Repr

/-- The hash is unique, and so is the id. SOURCE: 0001_init.sql:32-40 -/
structure ApiKeyRow where
  id : ℕ
  userId : ℕ
  keyHash : String
  label : String
  createdAt : Instant
  lastUsedAt : Option Instant := none
  revokedAt : Option Instant := none
  deriving DecidableEq, Repr

/-- SOURCE: api_key.rs:17-25 -/
structure ApiKeyRecord where
  id : ℕ
  userId : ℕ
  label : String
  createdAt : Instant
  lastUsedAt : Option Instant
  revokedAt : Option Instant
  deriving DecidableEq, Repr

structure State where
  users : List SessionUser := []
  keys : List ApiKeyRow := []
  deriving DecidableEq, Repr

def State.getById (s : State) (userId : ℕ) : Option SessionUser :=
  s.users.find? fun user => user.userId = userId

def ApiKeyRow.record (row : ApiKeyRow) : ApiKeyRecord where
  id := row.id
  userId := row.userId
  label := row.label
  createdAt := row.createdAt
  lastUsedAt := row.lastUsedAt
  revokedAt := row.revokedAt

/-- `COALESCE(revoked_at, ?)`: the first mark stays. SOURCE: api_key.rs:120-129 -/
def ApiKeyRow.revoke (row : ApiKeyRow) (now : Instant) : ApiKeyRow :=
  { row with revokedAt := row.revokedAt <|> some now }

/-- The token of 16 random bytes. -/
def tokenOf (random : List UInt8) : String := "myc2-" ++ String.ofList (Hex.encode random)

section Manager

variable (hashToken : String → String)

/-- The row of a new key, if the database takes it. SOURCE: api_key.rs:53-77 -/
def mint (s : State) (userId : ℕ) (label : String) (random : List UInt8) (id : ℕ)
    (now : Instant) : Option ApiKeyRow :=
  let keyHash := hashToken (tokenOf random)
  if (s.getById userId).isNone || s.keys.any (fun row => row.id = id || row.keyHash = keyHash) then
    none
  else some { id, userId, keyHash, label, createdAt := now }

/-- SOURCE: api_key.rs:79-118 -/
def verify (s : State) (token : String) : Except ApiKeyError ApiKeyRecord :=
  match s.keys.find? fun row => row.keyHash = hashToken token with
  | none => .error .notFound
  | some row => if row.revokedAt.isSome then .error .notFound else .ok row.record

/-- SOURCE: api_key.rs:131-166 -/
def listForUser (s : State) (userId : ℕ) : List ApiKeyRecord :=
  ((s.keys.filter fun row => row.userId = userId).insertionSort
    fun a b => a.createdAt ≤ b.createdAt).map ApiKeyRow.record

/-! ## Who comes with a key -/

/-- SOURCE: auth.rs:14-24 -/
structure McpUser where
  userId : ℕ
  username : String
  role : Role
  source : String
  deriving DecidableEq, Repr

/-- SOURCE: auth.rs:28-30 -/
def apiKeySource (label : String) : String := "mcp:" ++ label

/-- SOURCE: auth.rs:61-79 -/
def resolveUser (s : State) (authorization : Option String) : Option McpUser := do
  let auth ← authorization
  let token ← stripPrefix auth "Bearer "
  if token = [] then none
  else
    let record ← (verify hashToken s (String.ofList token)).toOption
    let user ← s.getById record.userId
    return { userId := user.userId, username := user.username, role := user.role
             source := apiKeySource record.label }

/-! ## Statements -/

inductive Action where
  | createUser (user : SessionUser)
  /-- The keys of the user go with it. -/
  | deleteUser (userId : ℕ)
  | mint (userId : ℕ) (label : String) (random : List UInt8) (id : ℕ) (now : Instant)
  /-- The second statement of `verify`, whose failure is dropped. -/
  | touch (id : ℕ) (now : Instant)
  /-- `keys_revoke` of a user. -/
  | revoke (userId id : ℕ) (now : Instant)
  deriving DecidableEq, Repr

/-- Only a key of the user. The check is a statement of its own; no key ever changes its owner.
SOURCE: api.rs:2752-2762 -/
def mayRevoke (s : State) (userId id : ℕ) : Bool :=
  (listForUser s userId).any fun record => record.id = id

/-- SOURCE: api_key.rs:53-129, users.rs:365-377 -/
def step (s : State) : Action → Option State
  | .createUser user =>
    if (s.getById user.userId).isSome then some s else some { s with users := user :: s.users }
  | .deleteUser userId =>
    some { users := s.users.filter fun user => user.userId ≠ userId
           keys := s.keys.filter fun row => row.userId ≠ userId }
  | .mint userId label random id now =>
    match mint hashToken s userId label random id now with
    | none => some s
    | some row => some { s with keys := row :: s.keys }
  | .touch id now =>
    some { s with
      keys := s.keys.map fun row =>
        if row.id = id then { row with lastUsedAt := some now } else row }
  | .revoke userId id now =>
    if mayRevoke s userId id then
      some { s with keys := s.keys.map fun row => if row.id = id then row.revoke now else row }
    else some s

end Manager

end Mycelium.Model.ApiKeys
