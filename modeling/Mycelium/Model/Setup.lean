import Mycelium.Model.Accounts
import Mycelium.Model.RequestGate

/-!
# The first account

The setup page makes the first admin account while there is none. A submission counts the
accounts, checks its form and hashes the password, and only then inserts; the submissions of any
number of clients interleave. Hashing and sealing go through, and of an account only what is
unique and the role is kept.

SOURCE: crates/mycelium-web/src/api.rs, crates/mycelium-auth/src/users.rs
-/

set_option autoImplicit false

namespace Mycelium.Model.Setup

open Mycelium.Model.Text
open Mycelium.Model.Accounts (noCase minPasswordLen)
open Mycelium.Model.RequestGate (Role)

/-- SOURCE: api.rs:1370-1374 -/
structure SetupForm where
  username : String
  password : String
  passwordConfirm : Option String := none
  deriving DecidableEq, Repr

structure Account where
  username : String
  email : String
  role : Role
  deriving DecidableEq, Repr

inductive SetupResponse where
  /-- To the login page. -/
  | redirect
  | page (error : String)
  | created (username : String)
  deriving DecidableEq, Repr

inductive Pc where
  | idle
  /-- Past the count and the checks, at the insert. -/
  | inserting (username : String)
  | done (response : SetupResponse)
  deriving DecidableEq, Repr

structure State where
  users : List Account := []
  tasks : ℕ → Pc := fun _ => .idle

def State.setTask (s : State) (i : ℕ) (pc : Pc) : State :=
  { s with tasks := fun j => if j = i then pc else s.tasks j }

/-- Both are unique, whatever the case of their letters. SOURCE: users.rs:117-140 -/
def insertUser (users : List Account) (account : Account) : Option (List Account) :=
  if users.any fun other =>
      noCase other.username = noCase account.username || noCase other.email = noCase account.email
  then none
  else some (users ++ [account])

def tooShort (minLen : ℕ) : String :=
  "password must be at least " ++ toString minLen ++ " characters"

/-- What a form is refused for; `minLen` is the minimum an admin set.
SOURCE: api.rs:1398-1412, users.rs:110, password.rs:12-32 -/
def refusal (form : SetupForm) (minLen : ℕ) : Option String :=
  if trim form.username.toList = [] then some "Username must not be empty"
  else if form.passwordConfirm.any fun confirm => confirm ≠ form.password then
    some "Passwords do not match"
  else if form.password.length < minLen then some (tooShort minLen)
  else if form.password.length < minPasswordLen then some ("password policy: " ++ tooShort minPasswordLen)
  else none

inductive Action where
  /-- `readable` is whether the count could be read. -/
  | submit (i : ℕ) (form : SetupForm) (minLen : ℕ) (readable : Bool)
  | insert (i : ℕ)
  /-- An account that an admin creates. -/
  | createUser (account : Account)
  | abort (i : ℕ)
  deriving DecidableEq, Repr

def initialAdmin (username : String) : Account where
  username := username
  email := username ++ "@localhost.local"
  role := .admin

/-- SOURCE: api.rs:1390-1452, api.rs:3337-3366 -/
def step (s : State) : Action → Option State
  | .submit i form minLen readable =>
    match s.tasks i with
    | .idle =>
      if s.users ≠ [] ∨ readable = false then some (s.setTask i (.done .redirect))
      else
        match refusal form minLen with
        | some error => some (s.setTask i (.done (.page error)))
        | none => some (s.setTask i (.inserting (String.ofList (trim form.username.toList))))
    | _ => none
  | .insert i =>
    match s.tasks i with
    | .inserting username =>
      match insertUser s.users (initialAdmin username) with
      | none => some (s.setTask i (.done .redirect))
      | some users => some ({ s with users }.setTask i (.done (.created username)))
    | _ => none
  | .createUser account =>
    if s.users.any fun user => user.role = .admin then
      some { s with users := (insertUser s.users account).getD s.users }
    else none
  | .abort i => some (s.setTask i .idle)

end Mycelium.Model.Setup
