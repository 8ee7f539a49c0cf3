import Mathlib.Data.List.Sort
import Mycelium.Model.Timestamps

/-!
# Passkey ceremonies

A ceremony is started for a user, its state kept in `webauthn_challenges`, and finished once by
what the browser answers. A call is a task that takes one statement at a time, so the calls of
any number of clients interleave. `consume_challenge` reads and deletes in one deferred
transaction: the delete is refused as soon as another connection has written since the read
(`version` counts the writes). The relying-party crate is a parameter; the blobs are the values
that were written into them. Ids of users and of challenges are numbers.

SOURCE: crates/mycelium-auth/src/webauthn.rs
-/

set_option autoImplicit false

namespace Mycelium.Model.Passkeys

open Mycelium.Model.Timestamps

inductive WebAuthnError where
  | db
  | webAuthn
  | notFound
  | challengeNotFound
  | duplicate
  deriving DecidableEq, Repr

structure AuthenticationResult where
  needsUpdate : Bool
  counter : ℕ
  deriving DecidableEq, Repr

/-- What the manager calls. `seed` is the randomness of a challenge; ids are in base64. -/
structure Webauthn where
  Passkey : Type
  PasskeyRegistration : Type
  PasskeyAuthentication : Type
  RegisterPublicKeyCredential : Type
  PublicKeyCredential : Type
  startPasskeyRegistration : ℕ → String → String → ℕ → Option PasskeyRegistration
  finishPasskeyRegistration : RegisterPublicKeyCredential → PasskeyRegistration → Option Passkey
  startPasskeyAuthentication : List Passkey → ℕ → Option PasskeyAuthentication
  finishPasskeyAuthentication :
    PublicKeyCredential → PasskeyAuthentication → Option AuthenticationResult
  credId : Passkey → String
  rawId : PublicKeyCredential → String

variable (X : Webauthn)

inductive Purpose where
  | register
  | login
  deriving DecidableEq, Repr

/-- What the blob of a challenge was written from. -/
inductive Ceremony where
  | registration (state : X.PasskeyRegistration)
  | authentication (state : X.PasskeyAuthentication)

/-- SOURCE: 0002_auth.sql:21-28 -/
structure ChallengeRow where
  id : ℕ
  userId : ℕ
  challenge : Ceremony X
  purpose : Purpose
  createdAt : String
  expiresAt : String

/-- SOURCE: 0002_auth.sql:10-17 -/
structure CredentialRow where
  id : String
  userId : ℕ
  publicKey : X.Passkey
  counter : ℕ
  createdAt : String

/-- A browser's answer, and who sent it. -/
inductive Answer where
  | enrollment (userId : ℕ) (reg : X.RegisterPublicKeyCredential)
  | auth (userId : ℕ) (auth : X.PublicKeyCredential)

/-- What is left of a call once its challenge is gone: one statement, or none. -/
inductive Verified where
  | enrolled (userId : ℕ) (passkey : X.Passkey)
  | authenticated (credId : String) (result : AuthenticationResult)

/-- Where a call stands: the statement that comes next. -/
inductive Pc where
  | idle
  | insertRegistration (userId : ℕ) (username displayName : String) (now : Instant)
  | insertLogin (userId : ℕ) (passkeys : List X.Passkey)
  | deleteChallenge (answer : Answer X) (snapshot : ℕ) (row : ChallengeRow X)
  | persist (verified : Verified X)
  | done (result : Except WebAuthnError Unit)

structure State where
  users : List ℕ := []
  challenges : List (ChallengeRow X) := []
  credentials : List (CredentialRow X) := []
  version : ℕ := 0
  tasks : ℕ → Pc X := fun _ => .idle

variable {X}

def Answer.userId : Answer X → ℕ
  | .enrollment userId _ => userId
  | .auth userId _ => userId

def Answer.purpose : Answer X → Purpose
  | .enrollment _ _ => .register
  | .auth _ _ => .login

def State.setTask (s : State X) (i : ℕ) (pc : Pc X) : State X :=
  { s with tasks := fun j => if j = i then pc else s.tasks j }

/-- `webauthn_challenges` after a statement; one that changes no row writes nothing. -/
def State.setChallenges (s : State X) (rows : List (ChallengeRow X)) : State X :=
  { s with
    challenges := rows
    version := if rows.length = s.challenges.length then s.version else s.version + 1 }

/-- Five minutes. -/
def ceremonyTtl : Duration := 300 * 10 ^ 9

/-! ## Statements -/

/-- SOURCE: webauthn.rs:107-113 -/
def purgeExpired (s : State X) (userId : ℕ) (now : Instant) : State X :=
  s.setChallenges (s.challenges.filter fun row =>
    ¬ (row.userId = userId ∧ row.expiresAt < now.toRfc3339))

/-- The newest of the challenges that have not expired. SOURCE: webauthn.rs:235-246 -/
def selectChallenge (s : State X) (userId : ℕ) (purpose : Purpose) (now : Instant) :
    Option (ChallengeRow X) :=
  ((s.challenges.filter fun row =>
    row.userId = userId ∧ row.purpose = purpose ∧ now.toRfc3339 < row.expiresAt).insertionSort
      fun a b => b.createdAt ≤ a.createdAt).head?

/-- The user has to exist and the id to be free. -/
def insertChallenge (s : State X) (row : ChallengeRow X) : Option (State X) :=
  if row.userId ∈ s.users ∧ ∀ other ∈ s.challenges, other.id ≠ row.id then
    some (s.setChallenges (s.challenges ++ [row]))
  else none

/-- SOURCE: webauthn.rs:258-269 -/
def loadPasskeys (s : State X) (userId : ℕ) : List X.Passkey :=
  (s.credentials.filter fun row => row.userId = userId).map CredentialRow.publicKey

/-- SOURCE: webauthn.rs:151-168 -/
def insertCredential (s : State X) (userId : ℕ) (passkey : X.Passkey) (now : Instant) :
    Except WebAuthnError (State X) :=
  if s.credentials.any fun row => row.id = X.credId passkey then .error .duplicate
  else if userId ∈ s.users then
    .ok { s with
      credentials := s.credentials ++ [{ id := X.credId passkey, userId, publicKey := passkey
                                         counter := 0, createdAt := now.toRfc3339 }]
      version := s.version + 1 }
  else .error .db

/-- SOURCE: webauthn.rs:212-222 -/
def updateCounter (s : State X) (credId : String) (counter : ℕ) : State X :=
  { s with
    credentials := s.credentials.map fun row =>
      if row.id = credId then { row with counter } else row
    version := if s.credentials.any fun row => row.id = credId then s.version + 1 else s.version }

/-- SOURCE: webauthn.rs:305-319 -/
def removeCredential (s : State X) (userId : ℕ) (credentialId : String) : State X :=
  let rows := s.credentials.filter fun row => ¬ (row.userId = userId ∧ row.id = credentialId)
  { s with
    credentials := rows
    version := if rows.length = s.credentials.length then s.version else s.version + 1 }

/-! ## Calls -/

/-- What a step takes from outside: the clock, a fresh id and randomness. -/
structure Choice where
  now : Instant
  id : ℕ
  seed : ℕ
  deriving DecidableEq, Repr

/-- The challenge that a starting call stores. SOURCE: webauthn.rs:114-130, webauthn.rs:180-194 -/
def newChallenge (c : Choice) : Pc X → Option (Except WebAuthnError (ChallengeRow X))
  | .insertRegistration userId username displayName now =>
    match X.startPasskeyRegistration userId username displayName c.seed with
    | none => some (.error .webAuthn)
    | some state => (c.now.plus ceremonyTtl).map fun expires =>
      .ok { id := c.id, userId, challenge := .registration state, purpose := .register
            createdAt := now.toRfc3339, expiresAt := expires.toRfc3339 }
  | .insertLogin userId passkeys =>
    match X.startPasskeyAuthentication passkeys c.seed with
    | none => some (.error .webAuthn)
    | some state => (c.now.plus ceremonyTtl).map fun expires =>
      .ok { id := c.id, userId, challenge := .authentication state, purpose := .login
            createdAt := c.now.toRfc3339, expiresAt := expires.toRfc3339 }
  | _ => none

/-- The answer against the state that was kept. SOURCE: webauthn.rs:146-148, webauthn.rs:209-211 -/
def verify (answer : Answer X) (row : ChallengeRow X) : Except WebAuthnError (Verified X) :=
  match answer, row.challenge with
  | .enrollment userId reg, .registration state =>
    match X.finishPasskeyRegistration reg state with
    | none => .error .webAuthn
    | some passkey => .ok (.enrolled userId passkey)
  | .auth _ auth, .authentication state =>
    match X.finishPasskeyAuthentication auth state with
    | none => .error .webAuthn
    | some result => .ok (.authenticated (X.rawId auth) result)
  | _, _ => .error .challengeNotFound

inductive Action (X : Webauthn) where
  | createUser (userId : ℕ)
  | deleteUser (userId : ℕ)
  /-- Any write to another table. -/
  | otherWrite
  | startEnrollment (i userId : ℕ) (username displayName : String) (now : Instant)
  | startAuth (i userId : ℕ)
  | finish (i : ℕ) (answer : Answer X) (now : Instant)
  | step (i : ℕ) (c : Choice)
  | removeCredential (userId : ℕ) (credentialId : String)
  | abort (i : ℕ)

/-- The rest of a starting call. `none` where the clock is out of range. -/
def State.storeChallenge (s : State X) (i : ℕ) (c : Choice) (pc : Pc X) : Option (State X) :=
  match newChallenge c pc with
  | none => none
  | some (.error e) => some (s.setTask i (.done (.error e)))
  | some (.ok row) =>
    match insertChallenge s row with
    | none => some (s.setTask i (.done (.error .db)))
    | some s => some (s.setTask i (.done (.ok ())))

/-- The next statement of a call, with what it computes up to the one after. -/
def State.stepTask (s : State X) (i : ℕ) (c : Choice) : Option (State X) :=
  match s.tasks i with
  | .deleteChallenge answer snapshot row =>
    if s.version = snapshot then
      let s := s.setChallenges (s.challenges.filter fun other => other.id ≠ row.id)
      match verify answer row with
      | .error e => some (s.setTask i (.done (.error e)))
      | .ok verified => some (s.setTask i (.persist verified))
    else some (s.setTask i (.done (.error .db)))
  | .persist (.enrolled userId passkey) =>
    match insertCredential s userId passkey c.now with
    | .error e => some (s.setTask i (.done (.error e)))
    | .ok s => some (s.setTask i (.done (.ok ())))
  | .persist (.authenticated credId result) =>
    let s := if result.needsUpdate then updateCounter s credId result.counter else s
    some (s.setTask i (.done (.ok ())))
  | pc => s.storeChallenge i c pc

/-- SOURCE: webauthn.rs:101-319 -/
def step (s : State X) : Action X → Option (State X)
  | .createUser userId => some { s with users := userId :: s.users, version := s.version + 1 }
  | .deleteUser userId =>
    some { s with
      users := s.users.filter fun u => u ≠ userId
      challenges := s.challenges.filter fun row => row.userId ≠ userId
      credentials := s.credentials.filter fun row => row.userId ≠ userId
      version := s.version + 1 }
  | .otherWrite => some { s with version := s.version + 1 }
  | .startEnrollment i userId username displayName now =>
    match s.tasks i with
    | .idle =>
      some ((purgeExpired s userId now).setTask i
        (.insertRegistration userId username displayName now))
    | _ => none
  | .startAuth i userId =>
    match s.tasks i with
    | .idle =>
      let passkeys := loadPasskeys s userId
      some (s.setTask i
        (if passkeys.isEmpty then .done (.error .notFound) else .insertLogin userId passkeys))
    | _ => none
  | .finish i answer now =>
    match s.tasks i with
    | .idle =>
      some (s.setTask i (match selectChallenge s answer.userId answer.purpose now with
        | none => .done (.error .challengeNotFound)
        | some row => .deleteChallenge answer s.version row))
    | _ => none
  | .step i c => s.stepTask i c
  | .removeCredential userId credentialId => some (removeCredential s userId credentialId)
  | .abort i => some (s.setTask i .idle)

end Mycelium.Model.Passkeys
