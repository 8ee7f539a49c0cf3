import Mycelium.Model.Accounts

/-!
# Logins, password changes and recovery-key rotations, step by step

Each call is a task that takes one step at a time, from one table access to the next; the
system interleaves the steps of any number of them. A task may be dropped between two
steps (`abort`).

The state also keeps what only the statements read: the master key each account was
created with, the recovery key of its last rotation that reported success, and the
accounts whose password change has deleted the sessions, with the version of the password
it verified. The deletion is the last step of a password change: it then returns.

SOURCE: crates/mycelium-auth/src/login.rs:104-196, crates/mycelium-auth/src/users.rs:223-292,
crates/mycelium-web/src/api.rs:3061-3190
-/

set_option autoImplicit false

namespace Mycelium.Model.AccountTasks

open Mycelium.Model.Sealing Mycelium.Model.Accounts

/-- The arguments of a rotation and the recovery key it generates. -/
structure Rotation where
  user : ℕ
  password : String
  newKey : String
  nonce : Bytes

/-- How a rotation ends; the new key is shown once. -/
inductive RotationResult where
  | internalError
  | wrongPassword
  | lost
  | rotated (newKey : String)
  deriving DecidableEq, Repr

/-- Where a task stands: the table access that comes next. -/
inductive Pc where
  | idle
  | loginGate (a : Attempt)
  | loginAuth (a : Attempt)
  | loginTotp (a : Attempt) (auth : AuthenticatedUser)
  | loginCreate (a : Attempt) (auth : AuthenticatedUser)
  | loginDone (result : Except LoginError ℕ)
  | changeRead (c : Change)
  | changeWrite (c : Change) (record : UserRecord) (newHash resealed : String)
  | changeEvict (c : Change) (version : ℕ)
  | changeDone (result : Except UsersError Unit)
  | rotateRead (r : Rotation)
  | rotateWrite (r : Rotation) (preRead : String) (rotated : SealedMasterKey)
  | rotateDone (result : RotationResult)

structure State where
  service : LoginService
  tasks : ℕ → Pc
  masters : ℕ → Option Key
  rotated : ℕ → Option String
  evicted : List (ℕ × ℕ)

def State.init : State where
  service := { users := ∅ }
  tasks := fun _ => .idle
  masters := fun _ => none
  rotated := fun _ => none
  evicted := []

def State.setTask (s : State) (i : ℕ) (pc : Pc) : State :=
  { s with tasks := fun j => if j = i then pc else s.tasks j }

/-- From the record it read to the seal it writes. SOURCE: api.rs:3068-3116 -/
def prepareRotation (P : Primitives) (record : UserRecord) (r : Rotation) :
    Except RotationResult SealedMasterKey :=
  match P.fromJson record.sealedMasterKey with
  | none => .error .internalError
  | some sealed =>
    match unsealWithPassword P sealed r.password with
    | .error _ => .error .wrongPassword
    | .ok _ =>
      match rotateRecoveryKey P sealed r.password r.newKey r.nonce with
      | .error _ => .error .internalError
      | .ok rotated => .ok rotated

theorem prepareRotation_eq_ok {P : Primitives} {record : UserRecord} {r : Rotation}
    {rotated : SealedMasterKey} (h : prepareRotation P record r = .ok rotated) :
    ∃ sealed, P.fromJson record.sealedMasterKey = some sealed ∧
      rotateRecoveryKey P sealed r.password r.newKey r.nonce = .ok rotated := by
  unfold prepareRotation at h
  split at h
  · cases h
  · rename_i sealed hjson
    split at h
    · cases h
    · split at h
      · cases h
      · rename_i hrotate
        cases h
        exact ⟨sealed, hjson, hrotate⟩

inductive Action where
  | create (u : NewUser)
  | login (i : ℕ) (a : Attempt)
  | change (i : ℕ) (c : Change)
  | rotate (i : ℕ) (r : Rotation)
  | step (i : ℕ)
  | abort (i : ℕ)
  | logout (session : ℕ)
  | visit (session now : ℕ)
  | purge (now : ℕ)

/-- The steps of a login. SOURCE: login.rs:104-170 -/
def loginStep (P : Primitives) (T : TotpCrate) (s : LoginService) : Pc → LoginService × Pc
  | .loginGate a =>
    let s := { s with throttle := applyLimits s.throttle a.options }
    match s.throttle.check a.username a.now with
    | .deny retryAfter =>
      (s, .loginDone (.error (.throttled (max (retryAfter / Throttle.second) 1))))
    | .allow => (s, .loginAuth a)
  | .loginAuth a =>
    match authenticateLocal P s.users a.username a.password with
    | .error .invalidCredentials => (s.fail a, .loginDone (.error .invalidCredentials))
    | .error .notFound => (s.fail a, .loginDone (.error .invalidCredentials))
    | .error e => (s, .loginDone (.error (.users e)))
    | .ok auth => (s, .loginTotp a auth)
  | .loginTotp a auth =>
    match checkTotp T s.hasServiceKey auth.record a with
    | .refused e => (s, .loginDone (.error e))
    | .wrongCode => (s.fail a, .loginDone (.error .invalidCredentials))
    | .passed => (s, .loginCreate a auth)
  | .loginCreate a auth => (s.succeed a auth, .loginDone (.ok a.sessionId))
  | pc => (s, pc)

/-- One step of a task. -/
def State.stepTask (P : Primitives) (T : TotpCrate) (s : State) (i : ℕ) : State :=
  match s.tasks i with
  | .changeRead c =>
    match getById s.service.users c.user with
    | .error e => s.setTask i (.changeDone (.error e))
    | .ok record =>
      match prepareChange P record c with
      | .error e => s.setTask i (.changeDone (.error e))
      | .ok (newHash, resealed) => s.setTask i (.changeWrite c record newHash resealed)
  | .changeWrite c record newHash resealed =>
    { s with service := { s.service with
        users := writePassword s.service.users c.user newHash resealed } }.setTask i
      (.changeEvict c record.passwordVersion)
  | .changeEvict c version =>
    { s with
      service := { s.service with sessions := deleteAllForUser s.service.sessions c.user }
      evicted := (c.user, version) :: s.evicted }.setTask i (.changeDone (.ok ()))
  | .rotateRead r =>
    match getById s.service.users r.user with
    | .error _ => s.setTask i (.rotateDone .internalError)
    | .ok record =>
      match prepareRotation P record r with
      | .error e => s.setTask i (.rotateDone e)
      | .ok rotated => s.setTask i (.rotateWrite r record.sealedMasterKey rotated)
  | .rotateWrite r preRead rotated =>
    match updateSealed P s.service.users r.user preRead rotated with
    | (_, false) => s.setTask i (.rotateDone .lost)
    | (users, true) =>
      { s with
        service := { s.service with users }
        rotated := fun u => if u = r.user then some r.newKey else s.rotated u }.setTask i
        (.rotateDone (.rotated r.newKey))
  | pc =>
    let (service, pc) := loginStep P T s.service pc
    { s with service }.setTask i pc

/-- A task starts when its slot has none under way. -/
@[simp] def Pc.isFree : Pc → Bool
  | .idle | .loginDone _ | .changeDone _ | .rotateDone _ => true
  | _ => false

def State.start (s : State) (i : ℕ) (pc : Pc) : Option State :=
  if (s.tasks i).isFree then some (s.setTask i pc) else none

def State.withSessions (s : State) (sessions : List SessionRow) : State :=
  { s with service := { s.service with sessions } }

@[simp] def step (P : Primitives) (T : TotpCrate) (s : State) : Action → Option State
  | .create u =>
    match createLocal P s.service.users u with
    | .error _ => some s
    | .ok users => some { s with
        service := { s.service with users }
        masters := fun v => if v = u.id then some u.masterKey else s.masters v }
  | .login i a => s.start i (.loginGate a)
  | .change i c =>
    -- the policy is checked before the first read
    match checkPasswordPolicyMin c.newPassword c.minLen with
    | .error e => s.start i (.changeDone (.error e))
    | .ok () => s.start i (.changeRead c)
  | .rotate i r => s.start i (.rotateRead r)
  | .step i => if (s.tasks i).isFree then none else some (s.stepTask P T i)
  | .abort i => some (s.setTask i .idle)
  | .logout session => some (s.withSessions (deleteSession s.service.sessions session))
  | .visit session now => some (s.withSessions (getSession s.service.sessions session now).1)
  | .purge now => some (s.withSessions (purgeExpired s.service.sessions now))

/-! ## What a step can do -/

/-- The tasks that carry something they read over to a write. -/
def Pc.carries : Pc → Bool
  | .changeWrite .. | .changeEvict .. | .rotateWrite .. => true
  | _ => false

/-- Accounts stay as they are, no session is added, and no task comes to carry anything. -/
structure Quiet (s s' : State) : Prop where
  users : s'.service.users = s.service.users
  sessions : ∀ row ∈ s'.service.sessions, row ∈ s.service.sessions
  masters : s'.masters = s.masters
  rotated : s'.rotated = s.rotated
  evicted : s'.evicted = s.evicted
  tasks : ∀ j, s'.tasks j = s.tasks j ∨ (s'.tasks j).carries = false

/-- The steps that are not quiet, each with the guards it passed. -/
inductive Effect (P : Primitives) (s : State) : Action → State → Prop where
  | quiet {a : Action} {s' : State} (h : Quiet s s') : Effect P s a s'
  | created {u : NewUser} {users : Dict ℕ UserRecord}
      (h : createLocal P s.service.users u = .ok users) :
      Effect P s (.create u) { s with
        service := { s.service with users }
        masters := fun v => if v = u.id then some u.masterKey else s.masters v }
  | loggedIn {i : ℕ} {a : Attempt} {auth : AuthenticatedUser}
      (ht : s.tasks i = .loginCreate a auth) :
      Effect P s (.step i)
        ({ s with service := s.service.succeed a auth }.setTask i (.loginDone (.ok a.sessionId)))
  | changeRead {i : ℕ} {c : Change} {record : UserRecord} {newHash resealed : String}
      (ht : s.tasks i = .changeRead c) (hread : s.service.users.get? c.user = some record)
      (hprep : prepareChange P record c = .ok (newHash, resealed)) :
      Effect P s (.step i) (s.setTask i (.changeWrite c record newHash resealed))
  | changed {i : ℕ} {c : Change} {record : UserRecord} {newHash resealed : String}
      (ht : s.tasks i = .changeWrite c record newHash resealed) :
      Effect P s (.step i) ({ s with service := { s.service with
        users := writePassword s.service.users c.user newHash resealed } }.setTask i
        (.changeEvict c record.passwordVersion))
  | evicted {i : ℕ} {c : Change} {version : ℕ} (ht : s.tasks i = .changeEvict c version) :
      Effect P s (.step i) ({ s with
        service := { s.service with sessions := deleteAllForUser s.service.sessions c.user }
        evicted := (c.user, version) :: s.evicted }.setTask i (.changeDone (.ok ())))
  | rotateRead {i : ℕ} {r : Rotation} {record : UserRecord} {rotated : SealedMasterKey}
      (ht : s.tasks i = .rotateRead r) (hread : s.service.users.get? r.user = some record)
      (hprep : prepareRotation P record r = .ok rotated) :
      Effect P s (.step i) (s.setTask i (.rotateWrite r record.sealedMasterKey rotated))
  | rotated {i : ℕ} {r : Rotation} {record : UserRecord} {rotated : SealedMasterKey}
      (ht : s.tasks i = .rotateWrite r record.sealedMasterKey rotated)
      (hread : s.service.users.get? r.user = some record) :
      Effect P s (.step i) ({ s with
        service := { s.service with
          users := s.service.users.insert r.user { record with sealedMasterKey := P.toJson rotated } }
        rotated := fun u => if u = r.user then some r.newKey else s.rotated u }.setTask i
        (.rotateDone (.rotated r.newKey)))

variable {P : Primitives} {T : TotpCrate} {s s' : State} {a : Action}

@[simp] theorem setTask_service (i : ℕ) (pc : Pc) : (s.setTask i pc).service = s.service := rfl

@[simp] theorem setTask_rotated (i : ℕ) (pc : Pc) : (s.setTask i pc).rotated = s.rotated := rfl

theorem setTask_tasks (i j : ℕ) (pc : Pc) :
    (s.setTask i pc).tasks j = if j = i then pc else s.tasks j := rfl

/-- INTERNAL: a new place for one task, and a login service with the same accounts and no
further session. -/
theorem quiet_setTask {service : LoginService} (i : ℕ) {pc : Pc} (hpc : pc.carries = false)
    (husers : service.users = s.service.users)
    (hsessions : ∀ row ∈ service.sessions, row ∈ s.service.sessions) :
    Quiet s ({ s with service }.setTask i pc) where
  users := husers
  sessions := hsessions
  masters := rfl
  rotated := rfl
  evicted := rfl
  tasks j := by
    rw [setTask_tasks]
    by_cases hj : j = i
    · rw [if_pos hj]
      exact .inr hpc
    · rw [if_neg hj]
      exact .inl rfl

theorem quiet_start {i : ℕ} {pc : Pc} (hpc : pc.carries = false) (h : s.start i pc = some s') :
    Quiet s s' := by
  simp only [State.start, Option.ite_none_right_eq_some, Option.some.injEq] at h
  rw [← h.2]
  exact quiet_setTask i hpc rfl fun _ hrow => hrow

theorem quiet_withSessions {sessions : List SessionRow}
    (h : ∀ row ∈ sessions, row ∈ s.service.sessions) : Quiet s (s.withSessions sessions) where
  users := rfl
  sessions := h
  masters := rfl
  rotated := rfl
  evicted := rfl
  tasks _ := .inl rfl

/-- INTERNAL: up to the insert of its session, a login changes the throttle only. -/
theorem loginStep_quiet (service : LoginService) (pc : Pc)
    (hpc : ∀ a auth, pc ≠ .loginCreate a auth) (hcarries : pc.carries = false) :
    (loginStep P T service pc).1.users = service.users ∧
      (loginStep P T service pc).1.sessions = service.sessions ∧
      (loginStep P T service pc).2.carries = false := by
  cases pc with
  | loginGate a =>
    simp only [loginStep]
    split
    · exact ⟨rfl, rfl, rfl⟩
    · exact ⟨rfl, rfl, rfl⟩
  | loginAuth a =>
    simp only [loginStep]
    split
    · exact ⟨rfl, rfl, rfl⟩
    · exact ⟨rfl, rfl, rfl⟩
    · exact ⟨rfl, rfl, rfl⟩
    · exact ⟨rfl, rfl, rfl⟩
  | loginTotp a auth =>
    simp only [loginStep]
    split
    · exact ⟨rfl, rfl, rfl⟩
    · exact ⟨rfl, rfl, rfl⟩
    · exact ⟨rfl, rfl, rfl⟩
  | loginCreate a auth => exact absurd rfl (hpc a auth)
  | _ => exact ⟨rfl, rfl, hcarries⟩

theorem getSession_subset (sessions : List SessionRow) (id now : ℕ) :
    ∀ row ∈ (getSession sessions id now).1, row ∈ sessions := by
  intro row hrow
  unfold getSession at hrow
  split at hrow
  · exact hrow
  · split at hrow
    · exact hrow
    · exact List.mem_of_mem_filter hrow

theorem stepTask_effect (i : ℕ) : Effect P s (.step i) (s.stepTask P T i) := by
  have hquiet : ∀ {pc : Pc}, pc.carries = false → Effect P s (.step i) (s.setTask i pc) :=
    fun hpc => .quiet (quiet_setTask i hpc rfl fun _ hrow => hrow)
  unfold State.stepTask
  cases ht : s.tasks i with
  | changeRead c =>
    simp only [getById]
    cases hread : s.service.users.get? c.user with
    | none => exact hquiet rfl
    | some record =>
      simp only
      cases hprep : prepareChange P record c with
      | error e => exact hquiet rfl
      | ok out => exact .changeRead ht hread hprep
  | changeWrite c record newHash resealed => exact .changed ht
  | changeEvict c version => exact .evicted ht
  | rotateRead r =>
    simp only [getById]
    cases hread : s.service.users.get? r.user with
    | none => exact hquiet rfl
    | some record =>
      simp only
      cases hprep : prepareRotation P record r with
      | error e => cases e <;> exact hquiet rfl
      | ok rotated => exact .rotateRead ht hread hprep
  | rotateWrite r preRead rotated =>
    simp only [updateSealed]
    cases hread : s.service.users.get? r.user with
    | none => exact hquiet rfl
    | some record =>
      by_cases hcas : record.sealedMasterKey = preRead
      · subst hcas
        simp only [↓reduceIte]
        exact .rotated ht hread
      · simp only [hcas, ↓reduceIte]
        exact hquiet rfl
  | loginCreate a auth => exact .loggedIn ht
  | _ =>
    obtain ⟨husers, hsessions, hpc⟩ :=
      loginStep_quiet (P := P) (T := T) s.service (s.tasks i) (by simp [ht]) (by simp [ht, Pc.carries])
    rw [ht] at husers hsessions hpc
    exact .quiet (quiet_setTask i hpc husers fun row hrow => hsessions ▸ hrow)

/-- Every step is quiet or has one of the effects. -/
theorem effect_of_step (h : step P T s a = some s') : Effect P s a s' := by
  cases a with
  | create u =>
    simp only [step] at h
    split at h
    · cases h
      exact .quiet (quiet_withSessions (s := s) fun _ hrow => hrow)
    · rename_i users hcreate
      cases h
      exact .created hcreate
  | login i a => exact .quiet (quiet_start rfl h)
  | change i c =>
    simp only [step] at h
    split at h
    · exact .quiet (quiet_start rfl h)
    · exact .quiet (quiet_start rfl h)
  | rotate i r => exact .quiet (quiet_start rfl h)
  | step i =>
    simp only [step, Option.ite_none_left_eq_some, Option.some.injEq] at h
    rw [← h.2]
    exact stepTask_effect i
  | abort i =>
    cases h
    exact .quiet (quiet_setTask i rfl rfl fun _ hrow => hrow)
  | logout session =>
    cases h
    exact .quiet (quiet_withSessions fun _ hrow => List.mem_of_mem_filter hrow)
  | visit session now =>
    cases h
    exact .quiet (quiet_withSessions (getSession_subset _ _ _))
  | purge now =>
    cases h
    exact .quiet (quiet_withSessions fun _ hrow => List.mem_of_mem_filter hrow)

/-! ## Steps that go through -/

section Forward

variable {i : ℕ} {c : Change} {r : Rotation}

theorem step_create {u : NewUser} {users : Dict ℕ UserRecord}
    (h : createLocal P s.service.users u = .ok users) :
    step P T s (.create u) = some { s with
      service := { s.service with users }
      masters := fun v => if v = u.id then some u.masterKey else s.masters v } := by
  simp only [step, h]

theorem step_change (hfree : (s.tasks i).isFree = true)
    (hpolicy : c.minLen ≤ c.newPassword.length) :
    step P T s (.change i c) = some (s.setTask i (.changeRead c)) := by
  have hlong : ¬ c.newPassword.length < c.minLen := by omega
  simp only [step, checkPasswordPolicyMin, hlong, ↓reduceIte, State.start, hfree]

theorem step_rotate (hfree : (s.tasks i).isFree = true) :
    step P T s (.rotate i r) = some (s.setTask i (.rotateRead r)) := by
  simp only [step, State.start, hfree, ↓reduceIte]

theorem step_changeRead (record : UserRecord) {newHash resealed : String} (ht : s.tasks i = .changeRead c)
    (hread : s.service.users.get? c.user = some record)
    (hprep : prepareChange P record c = .ok (newHash, resealed)) :
    step P T s (.step i) = some (s.setTask i (.changeWrite c record newHash resealed)) := by
  simp [step, ht, Pc.isFree, State.stepTask, getById, hread, hprep]

theorem step_changeWrite {record : UserRecord} {newHash resealed : String}
    (ht : s.tasks i = .changeWrite c record newHash resealed) :
    step P T s (.step i) = some ({ s with service := { s.service with
      users := writePassword s.service.users c.user newHash resealed } }.setTask i
      (.changeEvict c record.passwordVersion)) := by
  simp [step, ht, Pc.isFree, State.stepTask]

theorem step_rotateRead (record : UserRecord) {rotated : SealedMasterKey} (ht : s.tasks i = .rotateRead r)
    (hread : s.service.users.get? r.user = some record)
    (hprep : prepareRotation P record r = .ok rotated) :
    step P T s (.step i) = some (s.setTask i (.rotateWrite r record.sealedMasterKey rotated)) := by
  simp [step, ht, Pc.isFree, State.stepTask, getById, hread, hprep]

theorem step_rotateWrite (record : UserRecord) {rotated : SealedMasterKey}
    (ht : s.tasks i = .rotateWrite r record.sealedMasterKey rotated)
    (hread : s.service.users.get? r.user = some record) :
    step P T s (.step i) = some ({ s with
      service := { s.service with
        users := s.service.users.insert r.user { record with sealedMasterKey := P.toJson rotated } }
      rotated := fun u => if u = r.user then some r.newKey else s.rotated u }.setTask i
      (.rotateDone (.rotated r.newKey))) := by
  simp [step, ht, Pc.isFree, State.stepTask, updateSealed, hread]

theorem step_changeEvict {version : ℕ} (ht : s.tasks i = .changeEvict c version) :
    step P T s (.step i) = some ({ s with
      service := { s.service with sessions := deleteAllForUser s.service.sessions c.user }
      evicted := (c.user, version) :: s.evicted }.setTask i (.changeDone (.ok ()))) := by
  simp [step, ht, Pc.isFree, State.stepTask]

theorem step_login {a : Attempt} (hfree : (s.tasks i).isFree = true) :
    step P T s (.login i a) = some (s.setTask i (.loginGate a)) := by
  simp only [step, State.start, hfree, ↓reduceIte]

theorem step_loginGate {a : Attempt} (ht : s.tasks i = .loginGate a)
    (hallow : (applyLimits s.service.throttle a.options).check a.username a.now = .allow) :
    step P T s (.step i) = some ({ s with
      service := { s.service with throttle := applyLimits s.service.throttle a.options } }.setTask i
      (.loginAuth a)) := by
  simp [step, ht, Pc.isFree, State.stepTask, loginStep, hallow]

theorem step_loginAuth {a : Attempt} {auth : AuthenticatedUser} (ht : s.tasks i = .loginAuth a)
    (hauth : authenticateLocal P s.service.users a.username a.password = .ok auth) :
    step P T s (.step i) = some (s.setTask i (.loginTotp a auth)) := by
  simp [step, ht, Pc.isFree, State.stepTask, loginStep, hauth]

theorem step_loginTotp {a : Attempt} {auth : AuthenticatedUser} (ht : s.tasks i = .loginTotp a auth)
    (hpassed : checkTotp T s.service.hasServiceKey auth.record a = .passed) :
    step P T s (.step i) = some (s.setTask i (.loginCreate a auth)) := by
  simp [step, ht, Pc.isFree, State.stepTask, loginStep, hpassed]

theorem step_loginCreate {a : Attempt} {auth : AuthenticatedUser}
    (ht : s.tasks i = .loginCreate a auth) :
    step P T s (.step i) =
      some ({ s with service := s.service.succeed a auth }.setTask i
        (.loginDone (.ok a.sessionId))) := by
  simp [step, ht, Pc.isFree, State.stepTask, loginStep]

end Forward

end Mycelium.Model.AccountTasks
