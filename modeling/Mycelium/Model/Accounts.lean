import Mycelium.Model.Sealing
import Mycelium.Model.Throttle

/-!
# Accounts, sessions and login

The user and session tables and the login service over them. Ids are numbers; a user row
has the columns the modelled functions read or write. Besides the crates of
`Primitives`, a login takes from outside the decryption of a stored TOTP secret and the
check of a code.

Three things are kept that the code does not: `LoginOutcome.verified`, whether the stored
password hash was reached; `UserRecord.passwordVersion`, how often the password was
changed; `SessionRow.passwordVersion`, the version the login of the session verified.

SOURCE: crates/mycelium-auth/src/login.rs, users.rs, session.rs, totp.rs
-/

set_option autoImplicit false

namespace Mycelium.Model.Accounts

open Mycelium.Model.Text Mycelium.Model.Sealing Mycelium.Model.Throttle

/-! ## Users -/

inductive UsersError where
  | db
  | duplicate
  | notFound
  | invalidCredentials
  | tooShort (min : ℕ)
  | invalidHash
  | hashFailed
  | crypto (e : CryptoError)
  | corruptSeal
  deriving DecidableEq, Repr

/-- SOURCE: users.rs:45-57 -/
structure UserRecord where
  id : ℕ
  username : String
  passwordHash : Option String
  sealedMasterKey : String
  mustChangePassword : Bool := false
  totpSecret : Option String := none
  passwordVersion : ℕ := 0
  deriving DecidableEq, Repr

/-- SQLite's `NOCASE` folds the 26 letters of ASCII only. -/
def noCase (s : String) : List Char :=
  s.toList.map fun c => if 'A' ≤ c ∧ c ≤ 'Z' then Char.ofNat (c.toNat + 32) else c

/-- SOURCE: users.rs:160-188 -/
def getByUsername (users : Dict ℕ UserRecord) (username : String) : Except UsersError UserRecord :=
  match users.entries.find? fun e => noCase e.2.username = noCase username with
  | some e => .ok e.2
  | none => .error .notFound

def getById (users : Dict ℕ UserRecord) (id : ℕ) : Except UsersError UserRecord :=
  match users.get? id with
  | some record => .ok record
  | none => .error .notFound

structure AuthenticatedUser where
  record : UserRecord
  masterKey : Key

/-- The password against the stored hash of a record. -/
def verifyStored (P : Primitives) (record : UserRecord) (password : String) :
    Except UsersError Unit :=
  match record.passwordHash with
  | none => .error .invalidCredentials
  | some storedHash =>
    match P.verifyPassword password storedHash with
    | none => .error .invalidHash
    | some false => .error .invalidCredentials
    | some true => .ok ()

/-- The stored seal of a record, parsed. -/
def storedSeal (P : Primitives) (record : UserRecord) : Except UsersError SealedMasterKey :=
  match P.fromJson record.sealedMasterKey with
  | some sealed => .ok sealed
  | none => .error .corruptSeal

/-- SOURCE: users.rs:190-206 -/
def authenticateLocal (P : Primitives) (users : Dict ℕ UserRecord) (username password : String) :
    Except UsersError AuthenticatedUser := do
  let record ← getByUsername users username
  verifyStored P record password
  let sealed ← storedSeal P record
  match unsealWithPassword P sealed password with
  | .ok masterKey => return { record, masterKey }
  | .error e => .error (.crypto e)

def minPasswordLen : ℕ := 20

def checkPasswordPolicyMin (password : String) (minLen : ℕ) : Except UsersError Unit :=
  if password.length < minLen then .error (.tooShort minLen) else .ok ()

def hashNew (P : Primitives) (salt : Bytes) (password : String) : Except UsersError String :=
  match P.hashPassword salt password with
  | some hash => .ok hash
  | none => .error .hashFailed

theorem hashNew_eq_ok {P : Primitives} {salt : Bytes} {password hash : String}
    (h : hashNew P salt password = .ok hash) : P.hashPassword salt password = some hash := by
  unfold hashNew at h
  split at h
  · rename_i hash' hhash
    cases h
    exact hhash
  · cases h

/-- A new account: its password, recovery key and master key, and the randomness of the
seals. -/
structure NewUser where
  id : ℕ
  username : String
  password : String
  recoveryKey : String
  masterKey : Key
  hashSalt : Bytes
  salt : Bytes
  nonce : Bytes
  nonce' : Bytes

/-- SOURCE: users.rs:101-159 -/
def createLocal (P : Primitives) (users : Dict ℕ UserRecord) (u : NewUser) :
    Except UsersError (Dict ℕ UserRecord) := do
  checkPasswordPolicyMin u.password minPasswordLen
  let hash ← hashNew P u.hashSalt u.password
  match sealMasterKey P u.masterKey u.password u.recoveryKey u.salt u.nonce u.nonce' with
  | .error e => .error (.crypto e)
  | .ok sealed =>
    if (users.get? u.id).isSome ||
        users.entries.any (fun e => noCase e.2.username = noCase u.username) then
      .error .duplicate
    else
      return users.insert u.id
        { id := u.id, username := u.username, passwordHash := some hash
          sealedMasterKey := P.toJson sealed }

/-- What a creation that succeeds has passed and what it wrote. -/
theorem createLocal_eq_ok {P : Primitives} {users users' : Dict ℕ UserRecord} {u : NewUser}
    (h : createLocal P users u = .ok users') :
    ∃ hash sealed, P.hashPassword u.hashSalt u.password = some hash ∧
      sealMasterKey P u.masterKey u.password u.recoveryKey u.salt u.nonce u.nonce' = .ok sealed ∧
      users.get? u.id = none ∧
      users' = users.insert u.id
        { id := u.id, username := u.username, passwordHash := some hash
          sealedMasterKey := P.toJson sealed } := by
  unfold createLocal at h
  obtain ⟨-, -, h⟩ := bind_eq_ok.mp h
  obtain ⟨hash, hhash, h⟩ := bind_eq_ok.mp h
  have hhash := hashNew_eq_ok hhash
  split at h
  · cases h
  · rename_i sealed hseal
    split at h
    · cases h
    · rename_i hfree
      cases h
      refine ⟨hash, sealed, hhash, hseal, ?_, rfl⟩
      cases hid : users.get? u.id with
      | none => rfl
      | some record => simp [hid] at hfree

/-- The arguments of a password change and the randomness it draws. -/
structure Change where
  user : ℕ
  oldPassword : String
  newPassword : String
  minLen : ℕ := minPasswordLen
  hashSalt : Bytes
  salt : Bytes
  nonce : Bytes

/-- From the record it read to the hash and the seal it writes. SOURCE: users.rs:231-243 -/
def prepareChange (P : Primitives) (record : UserRecord) (c : Change) :
    Except UsersError (String × String) := do
  verifyStored P record c.oldPassword
  let sealed ← storedSeal P record
  match changePassword P sealed c.oldPassword c.newPassword c.salt c.nonce with
  | .error e => .error (.crypto e)
  | .ok resealed =>
    let newHash ← hashNew P c.hashSalt c.newPassword
    return (newHash, P.toJson resealed)

theorem prepareChange_eq_ok {P : Primitives} {record : UserRecord} {c : Change}
    {newHash resealed : String} (h : prepareChange P record c = .ok (newHash, resealed)) :
    ∃ sealed written, P.fromJson record.sealedMasterKey = some sealed ∧
      changePassword P sealed c.oldPassword c.newPassword c.salt c.nonce = .ok written ∧
      P.hashPassword c.hashSalt c.newPassword = some newHash ∧ resealed = P.toJson written := by
  unfold prepareChange at h
  obtain ⟨-, -, h⟩ := bind_eq_ok.mp h
  obtain ⟨sealed, hseal, h⟩ := bind_eq_ok.mp h
  have hjson : P.fromJson record.sealedMasterKey = some sealed := by
    unfold storedSeal at hseal
    split at hseal
    · rename_i sealed' hjson
      cases hseal
      exact hjson
    · cases hseal
  split at h
  · cases h
  · rename_i written hchange
    obtain ⟨hash, hhash, h⟩ := bind_eq_ok.mp h
    cases h
    exact ⟨sealed, written, hjson, hchange, hashNew_eq_ok hhash, rfl⟩

/-- The update of a password change: it asks for the row by id only.
SOURCE: users.rs:244-254 -/
def writePassword (users : Dict ℕ UserRecord) (user : ℕ) (newHash resealed : String) :
    Dict ℕ UserRecord :=
  match users.get? user with
  | none => users
  | some record => users.insert user
      { record with
        passwordHash := some newHash, sealedMasterKey := resealed, mustChangePassword := false
        passwordVersion := record.passwordVersion + 1 }

theorem get?_writePassword (users : Dict ℕ UserRecord) (user v : ℕ) (newHash resealed : String) :
    (writePassword users user newHash resealed).get? v =
      if v = user then (users.get? user).map fun record =>
        { record with
          passwordHash := some newHash, sealedMasterKey := resealed, mustChangePassword := false
          passwordVersion := record.passwordVersion + 1 }
      else users.get? v := by
  unfold writePassword
  cases huser : users.get? user with
  | none =>
    by_cases hv : v = user
    · rw [if_pos hv, hv]
      exact huser
    · rw [if_neg hv]
  | some record => exact Dict.get?_insert users user v _

/-- The compare-and-swap of a rotation: whether the row was written. SOURCE: users.rs:274-292 -/
def updateSealed (P : Primitives) (users : Dict ℕ UserRecord) (user : ℕ) (preRead : String)
    (sealed : SealedMasterKey) : Dict ℕ UserRecord × Bool :=
  match users.get? user with
  | none => (users, false)
  | some record =>
    if record.sealedMasterKey = preRead then
      (users.insert user { record with sealedMasterKey := P.toJson sealed }, true)
    else (users, false)

/-! ## Sessions -/

/-- SOURCE: session.rs:20-27 -/
structure SessionRow where
  id : ℕ
  userId : ℕ
  createdAt : ℕ
  expiresAt : ℕ
  passwordVersion : ℕ
  deriving DecidableEq, Repr

/-- SOURCE: session.rs:58-85 -/
def createWithTtl (sessions : List SessionRow) (id : ℕ) (record : UserRecord) (now ttl : ℕ) :
    List SessionRow :=
  sessions ++ [{ id, userId := record.id, createdAt := now, expiresAt := now + ttl
                 passwordVersion := record.passwordVersion }]

/-- An expired session is as good as absent. SOURCE: session.rs:98 -/
def SessionRow.isLive (row : SessionRow) (now : ℕ) : Bool := !(decide (row.expiresAt < now))

/-- Logout. -/
def deleteSession (sessions : List SessionRow) (id : ℕ) : List SessionRow :=
  sessions.filter fun row => row.id ≠ id

/-- SOURCE: session.rs:124-130 -/
def deleteAllForUser (sessions : List SessionRow) (userId : ℕ) : List SessionRow :=
  sessions.filter fun row => row.userId ≠ userId

/-- A lookup deletes the session it finds expired. SOURCE: session.rs:86-113 -/
def getSession (sessions : List SessionRow) (id now : ℕ) : List SessionRow × Option SessionRow :=
  match sessions.find? fun row => row.id = id with
  | none => (sessions, none)
  | some row => if row.isLive now then (sessions, some row) else (deleteSession sessions id, none)

/-- SOURCE: session.rs:133-140 -/
def purgeExpired (sessions : List SessionRow) (now : ℕ) : List SessionRow :=
  sessions.filter fun row => row.isLive now

/-! ## Login -/

inductive TotpError where
  | corruptSecret
  deriving DecidableEq, Repr

inductive LoginError where
  | throttled (retryAfterSecs : ℕ)
  | invalidCredentials
  | users (e : UsersError)
  | totp (e : TotpError)
  deriving DecidableEq, Repr

/-- What a login needs besides `Primitives`: opening an `enc1:` row under the service key,
and the check of a code for a secret at a time, absent when the secret is not base32. -/
structure TotpCrate where
  openSecret : String → Option String
  check : String → ℕ → String → Option Bool

/-- A code is right when it is the secret. -/
def plainTotp : TotpCrate where
  openSecret _ := none
  check secret _ code := some (code = secret)

/-- SOURCE: login.rs:52-61 -/
structure LoginOptions where
  sessionTtl : Option ℕ := none
  loginMaxFailures : Option ℕ := none
  loginLockout : Option ℕ := none
  deriving DecidableEq, Repr

/-- The arguments of a login, with what it takes from outside: the instants of the
throttle check and of the record of a failure, the time of day, and the id of the session
it may create. -/
structure Attempt where
  username : String
  password : String
  totpCode : Option String := none
  options : LoginOptions := {}
  now : ℕ
  endedAt : ℕ := now
  time : ℕ := 0
  sessionId : ℕ := 0
  deriving DecidableEq, Repr

structure LoginService where
  users : Dict ℕ UserRecord
  sessions : List SessionRow := []
  throttle : AuthThrottle := {}
  hasServiceKey : Bool := true

/-- The usable secret behind a stored value. SOURCE: totp.rs:32-48 -/
def storedSecret (T : TotpCrate) (hasServiceKey : Bool) (stored : String) :
    Except TotpError (Option String) :=
  if startsWith stored "enc1:" then
    if hasServiceKey = false then .ok none
    else
      match T.openSecret stored with
      | some secret => .ok (some secret)
      | none => .error .corruptSecret
  else .ok (some stored)

/-- How the second factor ends: it passes, or the login fails with or without a failure
recorded. -/
inductive SecondFactor where
  | passed
  | wrongCode
  | refused (e : LoginError)
  deriving DecidableEq, Repr

/-- SOURCE: login.rs:140-157 -/
def checkTotp (T : TotpCrate) (hasServiceKey : Bool) (record : UserRecord) (a : Attempt) :
    SecondFactor :=
  match record.totpSecret with
  | none => .passed
  | some stored =>
    match storedSecret T hasServiceKey stored with
    | .error e => .refused (.totp e)
    | .ok none => .refused .invalidCredentials
    | .ok (some secret) =>
      match a.totpCode with
      | none => .refused .invalidCredentials
      | some code =>
        match T.check secret a.time code with
        | none => .refused (.totp .corruptSecret)
        | some true => .passed
        | some false => .wrongCode

/-- Twelve hours. -/
def defaultTtl : ℕ := 12 * 3600 * second

/-- The limits of the options, when both are given. -/
def applyLimits (t : AuthThrottle) (o : LoginOptions) : AuthThrottle :=
  match o.loginMaxFailures, o.loginLockout with
  | some maxFailures, some lockout => t.setLimits maxFailures lockout
  | _, _ => t

structure LoginOutcome where
  service : LoginService
  result : Except LoginError AuthenticatedUser
  verified : Bool

/-- The failure of an attempt whose username is the key. -/
def LoginService.fail (s : LoginService) (a : Attempt) : LoginService :=
  { s with throttle := (s.throttle.recordFailure a.username a.endedAt).1 }

/-- Success: the throttle is reset and a fresh session minted. -/
def LoginService.succeed (s : LoginService) (a : Attempt) (auth : AuthenticatedUser) :
    LoginService :=
  { s with
    throttle := s.throttle.recordSuccess a.username
    sessions := createWithTtl s.sessions a.sessionId auth.record a.time
      (a.options.sessionTtl.getD defaultTtl) }

/-- SOURCE: login.rs:104-170 -/
def LoginService.loginWithOptions (P : Primitives) (T : TotpCrate) (service : LoginService)
    (a : Attempt) : LoginOutcome :=
  let s := { service with throttle := applyLimits service.throttle a.options }
  match s.throttle.check a.username a.now with
  | .deny retryAfter => ⟨s, .error (.throttled (max (retryAfter / second) 1)), false⟩
  | .allow =>
    match authenticateLocal P s.users a.username a.password with
    | .error .invalidCredentials => ⟨s.fail a, .error .invalidCredentials, true⟩
    | .error .notFound => ⟨s.fail a, .error .invalidCredentials, true⟩
    | .error e => ⟨s, .error (.users e), true⟩
    | .ok auth =>
      match checkTotp T s.hasServiceKey auth.record a with
      | .refused e => ⟨s, .error e, true⟩
      | .wrongCode => ⟨s.fail a, .error .invalidCredentials, true⟩
      | .passed => ⟨s.succeed a auth, .ok auth, true⟩

end Mycelium.Model.Accounts
