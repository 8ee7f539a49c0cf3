import Mycelium.Analysis.AccountKeys

/-!
# The sessions a password change leaves

A password change updates the row and then deletes the sessions of the account; a login
reads the row and inserts its session some steps later. A login that is between the two
when the sessions are deleted inserts a session for the password that was changed.

`old_sessions_gone_iff` says that this is the only way: along a run no such session is ever
live exactly when every login inserts its session in time (`insertsInTime`), while the
account still has the password it verified, or at least before a change of that password
has deleted the sessions. The versions of a password only grow, and a change that has
deleted the sessions has left the version it verified behind (`Versions`).

SOURCE: crates/mycelium-auth/src/login.rs:130-196, crates/mycelium-auth/src/session.rs:58-130
-/

set_option autoImplicit false

namespace Mycelium.Analysis.SessionEviction

open StepSystem Mycelium.Model.Text Mycelium.Model.Sealing Mycelium.Model.Accounts
open Mycelium.Model.AccountTasks Mycelium.Analysis.AccountKeys

variable {P : Primitives} {T : TotpCrate} {s s' : State} {a : Action}

/-- No session is live whose login verified a password that a change has since replaced,
once the change has returned. -/
def OldSessionsGone (s : State) : Prop :=
  ∀ e ∈ s.evicted, ∀ row ∈ s.service.sessions, ∀ now, row.isLive now = true →
    row.userId = e.1 → row.passwordVersion ≠ e.2

/-- A login inserts its session while the account has the password it verified, or before
a change of that password has deleted the sessions. -/
def insertsInTime (s : State) : Action → Bool
  | .step i =>
    match s.tasks i with
    | .loginCreate _ auth =>
      decide ((s.service.users.get? auth.record.id).map UserRecord.passwordVersion =
        some auth.record.passwordVersion) ||
      decide ((auth.record.id, auth.record.passwordVersion) ∉ s.evicted)
    | _ => true
  | _ => true

/-! ## Versions only grow -/

/-- The account has a version, and it is past a bound. -/
def VersionAfter (users : Dict ℕ UserRecord) (u bound : ℕ) : Prop :=
  ∃ record, users.get? u = some record ∧ bound < record.passwordVersion

/-- Every account stays, with its version or a later one. -/
def Grows (users users' : Dict ℕ UserRecord) : Prop :=
  ∀ u record, users.get? u = some record →
    ∃ record', users'.get? u = some record' ∧ record.passwordVersion ≤ record'.passwordVersion

theorem Grows.refl (users : Dict ℕ UserRecord) : Grows users users :=
  fun _ record h => ⟨record, h, Nat.le_refl _⟩

theorem VersionAfter.mono {users users' : Dict ℕ UserRecord} {u bound : ℕ}
    (hgrows : Grows users users') (h : VersionAfter users u bound) :
    VersionAfter users' u bound := by
  obtain ⟨record, hrecord, hlt⟩ := h
  obtain ⟨record', hrecord', hle⟩ := hgrows u record hrecord
  exact ⟨record', hrecord', by omega⟩

theorem grows_writePassword (users : Dict ℕ UserRecord) (user : ℕ) (newHash resealed : String) :
    Grows users (writePassword users user newHash resealed) := by
  intro v record hrecord
  rw [get?_writePassword]
  by_cases hv : v = user
  · subst hv
    rw [if_pos rfl, hrecord]
    exact ⟨_, rfl, Nat.le_succ _⟩
  · rw [if_neg hv]
    exact ⟨record, hrecord, Nat.le_refl _⟩

/-- The write of a change leaves the version it found behind. -/
theorem versionAfter_writePassword {users : Dict ℕ UserRecord} {user bound : ℕ}
    {stored : UserRecord} (hstored : users.get? user = some stored)
    (hle : bound ≤ stored.passwordVersion) (newHash resealed : String) :
    VersionAfter (writePassword users user newHash resealed) user bound := by
  have hlt : bound < stored.passwordVersion + 1 := by omega
  refine ⟨{ stored with
    passwordHash := some newHash, sealedMasterKey := resealed, mustChangePassword := false
    passwordVersion := stored.passwordVersion + 1 }, ?_, hlt⟩
  rw [get?_writePassword, if_pos rfl, hstored]
  rfl

theorem grows_effect (he : Effect P s a s') : Grows s.service.users s'.service.users := by
  cases he with
  | quiet hq =>
    rw [hq.users]
    exact .refl _
  | @created u users hcreate =>
    obtain ⟨hash, sealed, -, -, hfree, rfl⟩ := createLocal_eq_ok hcreate
    intro v record hrecord
    have hne : v ≠ u.id := by
      rintro rfl
      rw [hfree] at hrecord
      cases hrecord
    refine ⟨record, ?_, Nat.le_refl _⟩
    simp only [Dict.get?_insert, hne, ↓reduceIte]
    exact hrecord
  | loggedIn ht => exact .refl _
  | changeRead ht hread hprep => exact .refl _
  | changed ht => exact grows_writePassword _ _ _ _
  | evicted ht => exact .refl _
  | rotateRead ht hread hprep => exact .refl _
  | @rotated i r record rotated ht hread =>
    intro v record' hrecord'
    simp only [setTask_service, Dict.get?_insert]
    by_cases hv : v = r.user
    · subst hv
      rw [hread, Option.some.injEq] at hrecord'
      subst hrecord'
      exact ⟨_, if_pos rfl, Nat.le_refl _⟩
    · rw [if_neg hv]
      exact ⟨record', hrecord', Nat.le_refl _⟩

/-- The version a change read is the account's or an earlier one; once the change has
written, it is an earlier one. -/
def CarriesVersion (users : Dict ℕ UserRecord) : Pc → Prop
  | .changeWrite c record _ _ => ∃ stored, users.get? c.user = some stored ∧
      record.passwordVersion ≤ stored.passwordVersion
  | .changeEvict c version => VersionAfter users c.user version
  | _ => True

structure Versions (s : State) : Prop where
  evicted : ∀ e ∈ s.evicted, VersionAfter s.service.users e.1 e.2
  tasks : ∀ i, CarriesVersion s.service.users (s.tasks i)

theorem carriesVersion_mono {users users' : Dict ℕ UserRecord} (hgrows : Grows users users')
    {pc : Pc} (h : CarriesVersion users pc) : CarriesVersion users' pc := by
  cases pc with
  | changeWrite c record newHash resealed =>
    obtain ⟨stored, hstored, hle⟩ := h
    obtain ⟨stored', hstored', hle'⟩ := hgrows c.user stored hstored
    exact ⟨stored', hstored', by omega⟩
  | changeEvict c version => exact VersionAfter.mono hgrows h
  | _ => trivial

theorem carriesVersion_of_not_carries {users : Dict ℕ UserRecord} {pc : Pc}
    (h : pc.carries = false) : CarriesVersion users pc := by
  cases pc with
  | changeWrite c record newHash resealed => cases h
  | changeEvict c version => cases h
  | _ => trivial

/-- INTERNAL: what the tasks but one carry is kept, and the one has new facts. -/
theorem carriesVersion_update (h : Versions s) {users : Dict ℕ UserRecord}
    (hgrows : Grows s.service.users users) {i : ℕ} {pc : Pc} (hpc : CarriesVersion users pc)
    (j : ℕ) : CarriesVersion users (if j = i then pc else s.tasks j) := by
  by_cases hj : j = i
  · rw [if_pos hj]
    exact hpc
  · rw [if_neg hj]
    exact carriesVersion_mono hgrows (h.tasks j)

theorem versions_step (h : Versions s) (he : Effect P s a s') : Versions s' := by
  have hgrows := grows_effect he
  have hkept : ∀ e ∈ s.evicted, VersionAfter s'.service.users e.1 e.2 :=
    fun e hmem => VersionAfter.mono hgrows (h.evicted e hmem)
  cases he with
  | quiet hq =>
    refine ⟨by rw [hq.evicted]; exact hkept, ?_⟩
    intro j
    obtain heq | hpc := hq.tasks j
    · rw [heq]
      exact carriesVersion_mono hgrows (h.tasks j)
    · exact carriesVersion_of_not_carries hpc
  | created hcreate => exact ⟨hkept, fun j => carriesVersion_mono hgrows (h.tasks j)⟩
  | loggedIn ht =>
    refine ⟨hkept, carriesVersion_update h hgrows ?_⟩
    trivial
  | @changeRead i c record newHash resealed ht hread hprep =>
    refine ⟨hkept, carriesVersion_update h hgrows ?_⟩
    exact ⟨record, hread, Nat.le_refl _⟩
  | @changed i c record newHash resealed ht =>
    refine ⟨hkept, carriesVersion_update h hgrows ?_⟩
    have hcarried := h.tasks i
    simp only [ht, CarriesVersion] at hcarried
    obtain ⟨stored, hstored, hle⟩ := hcarried
    exact versionAfter_writePassword hstored hle newHash resealed
  | @evicted i c version ht =>
    refine ⟨?_, carriesVersion_update h hgrows ?_⟩
    · intro e hmem
      obtain rfl | hmem := List.mem_cons.mp hmem
      · have hcarried := h.tasks i
        rw [ht] at hcarried
        exact hcarried
      · exact hkept e hmem
    · trivial
  | rotateRead ht hread hprep =>
    refine ⟨hkept, carriesVersion_update h hgrows ?_⟩
    trivial
  | rotated ht hread =>
    refine ⟨hkept, carriesVersion_update h hgrows ?_⟩
    trivial

/-! ## Sessions -/

/-- An insert that is in time is of a version no returned change has left behind. -/
theorem not_evicted_of_insertsInTime (h : Versions s) {i : ℕ} {attempt : Attempt}
    {auth : AuthenticatedUser} (ht : s.tasks i = .loginCreate attempt auth)
    (hok : insertsInTime s (.step i) = true) :
    (auth.record.id, auth.record.passwordVersion) ∉ s.evicted := by
  simp only [insertsInTime, ht, Bool.or_eq_true, decide_eq_true_eq] at hok
  obtain hcurrent | hnot := hok
  · intro hmem
    obtain ⟨record, hrecord, hlt⟩ := h.evicted _ hmem
    rw [hrecord, Option.map_some, Option.some.injEq] at hcurrent
    omega
  · exact hnot

theorem oldSessionsGone_step (h : Versions s) (hgone : OldSessionsGone s)
    (hok : insertsInTime s a = true) (he : Effect P s a s') : OldSessionsGone s' := by
  cases he with
  | quiet hq =>
    intro e hmem row hrow
    rw [hq.evicted] at hmem
    exact hgone e hmem row (hq.sessions row hrow)
  | created hcreate => exact hgone
  | @loggedIn i attempt auth ht =>
    have hnot := not_evicted_of_insertsInTime h ht hok
    intro e hmem row hrow now hlive huser hversion
    simp only [setTask_service, LoginService.succeed, createWithTtl, List.mem_append,
      List.mem_singleton] at hrow
    obtain hrow | rfl := hrow
    · exact hgone e hmem row hrow now hlive huser hversion
    · have heq : e = (auth.record.id, auth.record.passwordVersion) := Prod.ext huser.symm hversion.symm
      rw [heq] at hmem
      exact hnot hmem
  | changeRead ht hread hprep => exact hgone
  | changed ht => exact hgone
  | @evicted i c version ht =>
    intro e hmem row hrow now hlive huser
    simp only [setTask_service, deleteAllForUser, List.mem_filter, decide_eq_true_eq] at hrow
    obtain rfl | hmem := List.mem_cons.mp hmem
    · exact absurd huser hrow.2
    · exact hgone e hmem row hrow.1 now hlive huser
  | rotateRead ht hread hprep => exact hgone
  | rotated ht hread => exact hgone

/-- A late insert goes through, and its session is live. -/
theorem not_oldSessionsGone_of_late (P : Primitives) (T : TotpCrate) (s : State) (a : Action)
    (hlate : ¬ insertsInTime s a = true) :
    ∃ s', step P T s a = some s' ∧ ¬ OldSessionsGone s' := by
  cases a with
  | step i =>
    cases ht : s.tasks i with
    | loginCreate attempt auth =>
      simp only [insertsInTime, ht, Bool.or_eq_true, decide_eq_true_eq, not_or, not_not] at hlate
      refine ⟨_, step_loginCreate ht, ?_⟩
      let row : SessionRow :=
        { id := attempt.sessionId, userId := auth.record.id, createdAt := attempt.time
          expiresAt := attempt.time + attempt.options.sessionTtl.getD defaultTtl
          passwordVersion := auth.record.passwordVersion }
      have hrow : row ∈ (s.service.succeed attempt auth).sessions := by
        simp [row, LoginService.succeed, createWithTtl]
      -- it is live when it is created
      have hlive : row.isLive attempt.time = true := by
        simp [row, SessionRow.isLive]
      intro hgone
      exact hgone _ hlate.2 row hrow attempt.time hlive rfl rfl
    | _ => simp [insertsInTime, ht] at hlate
  | _ => simp [insertsInTime] at hlate

/-- Along every run of logins, password changes and rotations in any order, no session of
a replaced password is ever live exactly when every login inserts its session in time. -/
theorem old_sessions_gone_iff (P : Primitives) (T : TotpCrate) (as : List Action) :
    (∀ n s, exec (step P T) State.init (as.take n) = some s → OldSessionsGone s) ↔
      Meets (step P T) (fun s a => insertsInTime s a = true) State.init as := by
  constructor
  · exact meets_of_forall_take OldSessionsGone (not_oldSessionsGone_of_late P T)
  · intro hmeets n s hrun
    have hstart : Versions State.init ∧ OldSessionsGone State.init :=
      ⟨⟨fun _ hmem => absurd hmem List.not_mem_nil, fun _ => trivial⟩,
        fun _ hmem => absurd hmem List.not_mem_nil⟩
    have hboth := exec_invariant_of_meets (fun s => Versions s ∧ OldSessionsGone s)
      (fun _ _ _ h hok hs => ⟨versions_step h.1 (effect_of_step hs),
        oldSessionsGone_step h.1 h.2 hok (effect_of_step hs)⟩) hstart hrun (meets_take hmeets n)
    exact hboth.2

/-! ## A login around a change -/

def aliceLogin : Attempt where
  username := "alice"
  password := "correct horse battery"
  now := 0

/-- The login has verified the password when the change reads, and inserts its session when
the change has returned. -/
def loginAroundChange (P : Primitives) : List Action :=
  [.create (alice P), .login 1 aliceLogin, .step 1, .step 1, .step 1, .change 0 aliceChange, .step 0,
    .step 0, .step 0, .step 1]

theorem exec_loginAroundChange (hP : P.Ideal) (hret : Returns P) : ∃ s,
    exec (step P T) State.init (loginAroundChange P) = some s ∧
    (1, 0) ∈ s.evicted ∧
    ∃ row ∈ s.service.sessions, row.userId = 1 ∧ row.passwordVersion = 0 ∧ row.isLive 0 = true := by
  obtain ⟨hash, sealed, hhash, hholds, hcreate⟩ := createLocal_alice hP hret
  let record : UserRecord :=
    { id := 1, username := "alice", passwordHash := some hash, sealedMasterKey := P.toJson sealed }
  obtain ⟨newHash, written, hchange, -, -⟩ :=
    exists_prepareChange hP hret record aliceChange rfl hhash rfl rfl hholds
  have hname : getByUsername (Dict.insert ∅ 1 record) "alice" = .ok record := by
    have hentries : (Dict.insert ∅ 1 record : Dict ℕ UserRecord).entries = [⟨1, record⟩] := rfl
    have hsame : noCase record.username = noCase "alice" := rfl
    simp only [getByUsername, hentries, List.find?_cons, hsame, decide_true]
  have hauth := authenticateLocal_of_holds hP hname hhash rfl rfl hholds
  have h1 := exec_snoc (exec_nil (step P T) State.init) (step_create hcreate)
  have h2 := exec_snoc h1 (step_login (i := 1) (a := aliceLogin) rfl)
  have h3 := exec_snoc h2 (step_loginGate (i := 1) (a := aliceLogin) rfl rfl)
  have h4 := exec_snoc h3 (step_loginAuth (i := 1) (a := aliceLogin) rfl hauth)
  have h5 := exec_snoc h4 (step_loginTotp (i := 1) (a := aliceLogin) rfl rfl)
  have h6 := exec_snoc h5 (step_change (i := 0) rfl (by decide : aliceChange.minLen ≤ _))
  have h7 := exec_snoc h6 (step_changeRead record (i := 0) rfl rfl hchange)
  have h8 := exec_snoc h7 (step_changeWrite (i := 0) rfl)
  have h9 := exec_snoc h8 (step_changeEvict (i := 0) rfl)
  have h10 := exec_snoc h9 (step_loginCreate (i := 1) (a := aliceLogin) rfl)
  exact ⟨_, h10, List.mem_cons_self, _, List.mem_cons_self, rfl, rfl, rfl⟩

/-- The session of the password that was changed is live after the change has returned. -/
theorem late_login_survives_change : ∃ s,
    exec (step plainPrimitives plainTotp) State.init (loginAroundChange plainPrimitives) = some s ∧
    ¬ OldSessionsGone s := by
  obtain ⟨s, hrun, hevicted, row, hrow, huser, hversion, hlive⟩ :=
    exec_loginAroundChange (T := plainTotp) plainPrimitives_ideal plainPrimitives_returns
  refine ⟨s, hrun, ?_⟩
  intro hgone
  exact hgone (1, 0) hevicted row hrow 0 hlive huser hversion

end Mycelium.Analysis.SessionEviction
