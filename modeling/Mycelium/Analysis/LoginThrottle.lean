import Mycelium.Lib.StepSystem
import Mycelium.Model.Accounts

/-!
# Login throttling, account by account

The rejections of an account are audited next to the login service: how many since the
last success, when the last one was, how the username was typed. The throttle counts by
the username as typed, so it agrees with the audit (`Tracks`) as long as the rejections of
an account come under one spelling and every rejection is recorded; `counted` says so of a
step. On such a sequence of attempts an account over the limit is refused within its
backoff before its password is looked at (`throttled_after_rejections`).

A second spelling of the username starts from zero (`respelled_not_throttled`), and an
attempt with the right password and no code is rejected without a trace
(`missing_code_unrecorded`).
-/

set_option autoImplicit false

namespace Mycelium.Analysis.LoginThrottle

open StepSystem Mycelium.Model.Sealing Mycelium.Model.Throttle Mycelium.Model.Accounts

/-! ## The audit -/

/-- The account a username resolves to. -/
def account (users : Dict ℕ UserRecord) (username : String) : Option ℕ :=
  match getByUsername users username with
  | .ok record => some record.id
  | .error _ => none

/-- The rejections of an account since its last success. -/
structure Rejections where
  count : ℕ
  last : ℕ
  spelling : String

structure Audited where
  service : LoginService
  audit : ℕ → Option Rejections

def Audited.start (users : Dict ℕ UserRecord) (hasServiceKey : Bool) : Audited where
  service := { users, hasServiceKey }
  audit := fun _ => none

def countRejection (r : Option Rejections) (a : Attempt) : Rejections where
  count := (match r with | some r => r.count | none => 0) + 1
  last := a.endedAt
  spelling := a.username

/-- An attempt, and what its result means for the account it was made on. -/
def step (P : Primitives) (T : TotpCrate) (s : Audited) (a : Attempt) : Option Audited :=
  let out := s.service.loginWithOptions P T a
  match account s.service.users a.username with
  | none => some { s with service := out.service }
  | some u =>
    let audited := match out.result with
      | .ok _ => none
      | .error .invalidCredentials => some (countRejection (s.audit u) a)
      | .error _ => s.audit u
    some { service := out.service, audit := fun v => if v = u then audited else s.audit v }

/-- An account with `max_failures` rejections or more is refused within the backoff of the
last one, its password not looked at. -/
def RefusesWithinBackoff (P : Primitives) (T : TotpCrate) (s : Audited) (a : Attempt) : Prop :=
  let limits := applyLimits s.service.throttle a.options
  ∀ u r, account s.service.users a.username = some u → s.audit u = some r →
    limits.maxFailures ≤ r.count →
    a.now - r.last < delayFor r.count limits.maxFailures limits.cap →
    (∃ secs, (s.service.loginWithOptions P T a).result = .error (.throttled secs)) ∧
      (s.service.loginWithOptions P T a).verified = false

/-- A login that gets past the password has the code the account asks for, and a secret
to check it with. -/
def codeGiven (T : TotpCrate) (hasServiceKey : Bool) (record : UserRecord) (a : Attempt) : Bool :=
  match record.totpSecret with
  | none => true
  | some stored =>
    match storedSecret T hasServiceKey stored with
    | .error _ => true
    | .ok none => false
    | .ok (some _) => a.totpCode.isSome

/-- The rejections of the account an attempt is made on. -/
def rejections (s : Audited) (a : Attempt) : Option Rejections :=
  (account s.service.users a.username).bind s.audit

/-- The username is typed as in the rejections of its account. -/
def spelledAlike (s : Audited) (a : Attempt) : Bool :=
  (rejections s a).all fun r => r.spelling = a.username

/-- The throttle counts the attempt if it is rejected: it is spelled alike, the counter has
room, and no code is missing. -/
def counted (P : Primitives) (T : TotpCrate) (s : Audited) (a : Attempt) : Bool :=
  spelledAlike s a && ((rejections s a).all fun r => decide (r.count + 1 < u32)) &&
    match (applyLimits s.service.throttle a.options).check a.username a.now with
    | .deny _ => true
    | .allow =>
      match authenticateLocal P s.service.users a.username a.password with
      | .ok auth => codeGiven T s.service.hasServiceKey auth.record a
      | .error _ => true

/-! ## The throttle follows the audit -/

/-- The entries of the throttle for the spellings of an account are its audit. -/
structure Tracks (s : Audited) : Prop where
  clear : ∀ key u, account s.service.users key = some u → s.audit u = none →
    s.service.throttle.failures.get? key = none
  kept : ∀ u r, s.audit u = some r →
    s.service.throttle.failures.get? r.spelling = some r.count ∧
      s.service.throttle.lastFailure.get? r.spelling = some r.last
  other : ∀ key u r, account s.service.users key = some u → s.audit u = some r →
    key ≠ r.spelling → s.service.throttle.failures.get? key = none
  own : ∀ u r, s.audit u = some r → account s.service.users r.spelling = some u

theorem tracks_start (users : Dict ℕ UserRecord) (hasServiceKey : Bool) :
    Tracks (Audited.start users hasServiceKey) := by
  refine ⟨?_, ?_, ?_, ?_⟩
  · intro key u _ _
    rfl
  · intro u r h
    cases h
  · intro key u r _ h
    cases h
  · intro u r h
    cases h

theorem applyLimits_failures (t : AuthThrottle) (o : LoginOptions) :
    (applyLimits t o).failures = t.failures ∧ (applyLimits t o).lastFailure = t.lastFailure := by
  unfold applyLimits AuthThrottle.setLimits
  split <;> exact ⟨rfl, rfl⟩

/-- The service with the limits of the attempt. -/
def limited (service : LoginService) (a : Attempt) : LoginService :=
  { service with throttle := applyLimits service.throttle a.options }

theorem tracks_limited {s : Audited} (h : Tracks s) (a : Attempt) :
    Tracks { s with service := limited s.service a } := by
  obtain ⟨hfail, hlast⟩ := applyLimits_failures s.service.throttle a.options
  refine ⟨?_, ?_, ?_, h.own⟩
  · intro key u hacc haudit
    simp only [limited, hfail]
    exact h.clear key u hacc haudit
  · intro u r haudit
    simp only [limited, hfail, hlast]
    exact h.kept u r haudit
  · intro key u r hacc haudit hne
    simp only [limited, hfail]
    exact h.other key u r hacc haudit hne

/-- INTERNAL: the two ways to be refused without a record are a missing code and a missing
service key. -/
theorem codeGiven_of_refused {T : TotpCrate} {hasServiceKey : Bool} {record : UserRecord}
    {a : Attempt} (h : checkTotp T hasServiceKey record a = .refused .invalidCredentials) :
    codeGiven T hasServiceKey record a = false := by
  unfold checkTotp at h
  unfold codeGiven
  cases hstored : record.totpSecret with
  | none => simp [hstored] at h
  | some stored =>
    cases hsecret : storedSecret T hasServiceKey stored with
    | error e => simp [hstored, hsecret] at h
    | ok secret =>
      cases secret with
      | none => simp [hsecret]
      | some secret =>
        cases hcode : a.totpCode with
        | none => simp [hsecret]
        | some code =>
          simp only [hstored, hsecret, hcode] at h
          split at h <;> cases h

/-- How an attempt ends: the four ways the throttle and the audit can see, and the
rejection that is not recorded. -/
theorem login_cases (P : Primitives) (T : TotpCrate) (service : LoginService) (a : Attempt) :
    ((∃ e, (service.loginWithOptions P T a).service = limited service a ∧
        (service.loginWithOptions P T a).result = .error e ∧ e ≠ .invalidCredentials) ∨
      ((service.loginWithOptions P T a).service = (limited service a).fail a ∧
        (service.loginWithOptions P T a).result = .error .invalidCredentials) ∨
      ∃ auth, (service.loginWithOptions P T a).service = (limited service a).succeed a auth ∧
        (service.loginWithOptions P T a).result = .ok auth) ∨
    ((applyLimits service.throttle a.options).check a.username a.now = .allow ∧
      ∃ auth, authenticateLocal P service.users a.username a.password = .ok auth ∧
        codeGiven T service.hasServiceKey auth.record a = false) := by
  unfold LoginService.loginWithOptions
  simp only
  cases hcheck : (applyLimits service.throttle a.options).check a.username a.now with
  | deny retryAfter => exact Or.inl (Or.inl ⟨_, rfl, rfl, by simp⟩)
  | allow =>
    simp only
    cases hauth : authenticateLocal P service.users a.username a.password with
    | error e =>
      cases e with
      | invalidCredentials => exact Or.inl (Or.inr (Or.inl ⟨rfl, rfl⟩))
      | notFound => exact Or.inl (Or.inr (Or.inl ⟨rfl, rfl⟩))
      | _ => exact Or.inl (Or.inl ⟨_, rfl, rfl, by simp⟩)
    | ok auth =>
      simp only
      cases htotp : checkTotp T service.hasServiceKey auth.record a with
      | passed => exact Or.inl (Or.inr (Or.inr ⟨auth, rfl, rfl⟩))
      | wrongCode => exact Or.inl (Or.inr (Or.inl ⟨rfl, rfl⟩))
      | refused e =>
        simp only
        by_cases he : e = .invalidCredentials
        · subst he
          exact Or.inr ⟨trivial, auth, rfl, codeGiven_of_refused htotp⟩
        · exact Or.inl (Or.inl ⟨e, rfl, rfl, he⟩)

/-- INTERNAL: the entries of the throttle after a failure, key by key. -/
theorem failures_fail (service : LoginService) (a : Attempt) (key : String) :
    (service.fail a).throttle.failures.get? key =
        (if key = a.username then
          some (((service.throttle.failures.get? a.username).getD 0 + 1) % u32)
        else service.throttle.failures.get? key) ∧
      (service.fail a).throttle.lastFailure.get? key =
        if key = a.username then some a.endedAt else service.throttle.lastFailure.get? key := by
  rw [LoginService.fail, recordFailure_fst]
  exact ⟨Dict.get?_insert _ _ _ _, Dict.get?_insert _ _ _ _⟩

theorem failures_succeed (service : LoginService) (a : Attempt) (auth : AuthenticatedUser)
    (key : String) :
    (service.succeed a auth).throttle.failures.get? key =
        (if key = a.username then none else service.throttle.failures.get? key) ∧
      (service.succeed a auth).throttle.lastFailure.get? key =
        if key = a.username then none else service.throttle.lastFailure.get? key :=
  ⟨Dict.get?_erase _ _ _, Dict.get?_erase _ _ _⟩

/-- INTERNAL: the entries of the other usernames stay. -/
theorem tracks_of_unknown {s : Audited} (h : Tracks s) {a : Attempt} {service : LoginService}
    (husers : service.users = s.service.users)
    (hfail : ∀ key, key ≠ a.username →
      service.throttle.failures.get? key = s.service.throttle.failures.get? key ∧
        service.throttle.lastFailure.get? key = s.service.throttle.lastFailure.get? key)
    (hacc : account s.service.users a.username = none) : Tracks { s with service } := by
  have hne : ∀ key u, account s.service.users key = some u → key ≠ a.username := by
    rintro key u hkey rfl
    rw [hacc] at hkey
    cases hkey
  refine ⟨?_, ?_, ?_, ?_⟩
  · intro key u hkey haudit
    simp only [husers] at hkey
    simp only [(hfail key (hne key u hkey)).1]
    exact h.clear key u hkey haudit
  · intro u r haudit
    have hkey := hfail r.spelling (hne _ u (h.own u r haudit))
    simp only [hkey.1, hkey.2]
    exact h.kept u r haudit
  · intro key u r hkey haudit hother
    simp only [husers] at hkey
    simp only [(hfail key (hne key u hkey)).1]
    exact h.other key u r hkey haudit hother
  · intro u r haudit
    simp only [husers]
    exact h.own u r haudit

/-- INTERNAL: the entries of one account change with its audit, those of the others stay. -/
theorem tracks_of_account {s : Audited} (h : Tracks s) {a : Attempt} {u : ℕ}
    {service : LoginService} {audited : Option Rejections}
    (husers : service.users = s.service.users)
    (hfail : ∀ key, key ≠ a.username →
      service.throttle.failures.get? key = s.service.throttle.failures.get? key ∧
        service.throttle.lastFailure.get? key = s.service.throttle.lastFailure.get? key)
    (hacc : account s.service.users a.username = some u)
    (hspell : ∀ r, s.audit u = some r → a.username = r.spelling)
    (hself : match audited with
      | none => service.throttle.failures.get? a.username = none
      | some r => r.spelling = a.username ∧
          service.throttle.failures.get? a.username = some r.count ∧
            service.throttle.lastFailure.get? a.username = some r.last) :
    Tracks { service, audit := fun v => if v = u then audited else s.audit v } := by
  -- before the attempt, the account has entries under no other spelling
  have hquiet : ∀ key, account s.service.users key = some u → key ≠ a.username →
      service.throttle.failures.get? key = none := by
    intro key hkey hne
    rw [(hfail key hne).1]
    cases haudit : s.audit u with
    | none => exact h.clear key u hkey haudit
    | some r =>
      have hne' : key ≠ r.spelling := by
        rw [← hspell r haudit]
        exact hne
      exact h.other key u r hkey haudit hne'
  have hforeign : ∀ key v, v ≠ u → account s.service.users key = some v → key ≠ a.username := by
    rintro key v hv hkey rfl
    rw [hacc] at hkey
    exact hv (Option.some.inj hkey).symm
  refine ⟨?_, ?_, ?_, ?_⟩
  · intro key v hkey haudit
    simp only [husers] at hkey
    by_cases hv : v = u
    · subst hv
      simp only [↓reduceIte] at haudit
      subst haudit
      by_cases hk : key = a.username
      · subst hk
        exact hself
      · exact hquiet key hkey hk
    · simp only [hv, ↓reduceIte] at haudit
      simp only [(hfail key (hforeign key v hv hkey)).1]
      exact h.clear key v hkey haudit
  · intro v r haudit
    by_cases hv : v = u
    · simp only [hv, ↓reduceIte] at haudit
      subst haudit
      obtain ⟨hname, hcount, hlast⟩ := hself
      simp only [hname]
      exact ⟨hcount, hlast⟩
    · simp only [hv, ↓reduceIte] at haudit
      have hkey := hfail r.spelling (hforeign _ v hv (h.own v r haudit))
      simp only [hkey.1, hkey.2]
      exact h.kept v r haudit
  · intro key v r hkey haudit hother
    simp only [husers] at hkey
    by_cases hv : v = u
    · subst hv
      simp only [↓reduceIte] at haudit
      subst haudit
      refine hquiet key hkey ?_
      rw [← hself.1]
      exact hother
    · simp only [hv, ↓reduceIte] at haudit
      simp only [(hfail key (hforeign key v hv hkey)).1]
      exact h.other key v r hkey haudit hother
  · intro v r haudit
    simp only [husers]
    by_cases hv : v = u
    · simp only [hv, ↓reduceIte] at haudit
      subst haudit
      rw [hself.1, hv]
      exact hacc
    · simp only [hv, ↓reduceIte] at haudit
      exact h.own v r haudit

theorem tracks_step (P : Primitives) (T : TotpCrate) {s s' : Audited} {a : Attempt}
    (h : Tracks s) (hcounted : counted P T s a = true) (hstep : step P T s a = some s') :
    Tracks s' := by
  have hlim := tracks_limited h a
  simp only [counted, Bool.and_eq_true] at hcounted
  obtain ⟨⟨hspelled, hroom⟩, hcode⟩ := hcounted
  obtain hends | ⟨hallow, auth, hauth, hmissing⟩ := login_cases P T s.service a
  · cases hacc : account s.service.users a.username with
    | none =>
      simp only [step, hacc, Option.some.injEq] at hstep
      subst hstep
      obtain ⟨e, hservice, -, -⟩ | ⟨hservice, -⟩ | ⟨auth, hservice, -⟩ := hends
      · rw [hservice]
        exact hlim
      · rw [hservice]
        refine tracks_of_unknown hlim (a := a) rfl ?_ hacc
        intro key hne
        have hkey := failures_fail (limited s.service a) a key
        simp only [hne, ↓reduceIte] at hkey
        exact hkey
      · rw [hservice]
        refine tracks_of_unknown hlim (a := a) rfl ?_ hacc
        intro key hne
        have hkey := failures_succeed (limited s.service a) a auth key
        simp only [hne, ↓reduceIte] at hkey
        exact hkey
    | some u =>
      have hspell : ∀ r, s.audit u = some r → a.username = r.spelling ∧ r.count + 1 < u32 := by
        intro r haudit
        simp only [spelledAlike, rejections, hacc, Option.bind_some, haudit, Option.all_some,
          decide_eq_true_eq] at hspelled hroom
        exact ⟨hspelled.symm, hroom⟩
      simp only [step, hacc, Option.some.injEq] at hstep
      subst hstep
      obtain ⟨e, hservice, hresult, hne⟩ | ⟨hservice, hresult⟩ | ⟨auth, hservice, hresult⟩ := hends
      · -- neither the throttle nor the audit moves
        have hsame : (fun v => if v = u then s.audit u else s.audit v) = s.audit := by
          funext v
          by_cases hv : v = u
          · simp [hv]
          · simp [hv]
        rw [hservice, hresult]
        cases e with
        | invalidCredentials => exact absurd rfl hne
        | _ =>
          simp only [hsame]
          exact hlim
      · rw [hservice, hresult]
        refine tracks_of_account hlim (a := a) rfl ?_ hacc (fun r hr => (hspell r hr).1) ?_
        · intro key hne
          have hkey := failures_fail (limited s.service a) a key
          simp only [hne, ↓reduceIte] at hkey
          exact hkey
        · obtain ⟨hfail, hlast⟩ := failures_fail (limited s.service a) a a.username
          simp only [↓reduceIte] at hfail hlast
          refine ⟨rfl, ?_, hlast⟩
          rw [hfail]
          cases haudit : s.audit u with
          | none =>
            have hclear := hlim.clear a.username u hacc haudit
            simp only at hclear
            rw [hclear]
            rfl
          | some r =>
            obtain ⟨hname, hlt⟩ := hspell r haudit
            have hkept := (hlim.kept u r haudit).1
            simp only [← hname] at hkept
            rw [hkept, Option.getD_some, Nat.mod_eq_of_lt hlt]
            rfl
      · rw [hservice, hresult]
        refine tracks_of_account hlim (a := a) rfl ?_ hacc (fun r hr => (hspell r hr).1) ?_
        · intro key hne
          have hkey := failures_succeed (limited s.service a) a auth key
          simp only [hne, ↓reduceIte] at hkey
          exact hkey
        · have hkey := (failures_succeed (limited s.service a) a auth a.username).1
          simp only [↓reduceIte] at hkey
          exact hkey
  · simp only [hallow, hauth, hmissing] at hcode
    cases hcode

/-! ## Whole sequences of attempts -/

/-- After every sequence of attempts that the throttle counts, an account that has reached
the limit is refused within its backoff, before its password is looked at, when it is typed
as it was when it was rejected. -/
theorem throttled_after_rejections (P : Primitives) (T : TotpCrate) (users : Dict ℕ UserRecord)
    (hasServiceKey : Bool) (as : List Attempt) (s : Audited)
    (hrun : exec (step P T) (Audited.start users hasServiceKey) as = some s)
    (hok : Meets (step P T) (fun s a => counted P T s a = true)
      (Audited.start users hasServiceKey) as)
    (a : Attempt) (hspelled : spelledAlike s a = true) : RefusesWithinBackoff P T s a := by
  have htracks : Tracks s :=
    exec_invariant_of_meets Tracks (fun _ _ _ h hc hs => tracks_step P T h hc hs)
      (tracks_start users hasServiceKey) hrun hok
  intro u r hacc haudit hmax hwithin
  have hname : a.username = r.spelling := by
    simp only [spelledAlike, rejections, hacc, Option.bind_some, haudit, Option.all_some,
      decide_eq_true_eq] at hspelled
    exact hspelled.symm
  obtain ⟨hcount, hlast⟩ := htracks.kept u r haudit
  obtain ⟨hfail, hlastf⟩ := applyLimits_failures s.service.throttle a.options
  rw [← hname] at hcount hlast
  have hcount' : (applyLimits s.service.throttle a.options).failures.get? a.username =
      some r.count := by
    rw [hfail]
    exact hcount
  have hlast' : (applyLimits s.service.throttle a.options).lastFailure.get? a.username =
      some r.last := by
    rw [hlastf]
    exact hlast
  simp only [LoginService.loginWithOptions]
  rw [check_eq_deny hcount' hlast' hmax hwithin]
  exact ⟨⟨_, rfl⟩, rfl⟩

/-- The right password without the code it takes is rejected, and the throttle is none the
wiser. -/
theorem missing_code_unrecorded (P : Primitives) (T : TotpCrate) (service : LoginService)
    (a : Attempt) (auth : AuthenticatedUser) (stored secret : String)
    (hallow : (applyLimits service.throttle a.options).check a.username a.now = .allow)
    (hauth : authenticateLocal P service.users a.username a.password = .ok auth)
    (htotp : auth.record.totpSecret = some stored)
    (hsecret : storedSecret T service.hasServiceKey stored = .ok (some secret))
    (hcode : a.totpCode = none) :
    (service.loginWithOptions P T a).result = .error .invalidCredentials ∧
      (service.loginWithOptions P T a).service = limited service a := by
  have hrefused : checkTotp T service.hasServiceKey auth.record a =
      .refused .invalidCredentials := by
    simp only [checkTotp, htotp, hsecret, hcode]
  simp only [LoginService.loginWithOptions, hallow, hauth, hrefused, true_and]
  rfl

/-! ## Three wrong passwords -/

def oneUser : Dict ℕ UserRecord := Dict.insert ∅ 1
  { id := 1, username := "alice", passwordHash := plainPrimitives.hashPassword [] "pw"
    sealedMasterKey := plainPrimitives.toJson ⟨1, "", "", ""⟩ }

/-- An attempt at a tenth of a second. -/
def attempt (username password : String) (tenth : ℕ) : Attempt :=
  { username, password, now := tenth * (second / 10) }

def wrongThrice : List Attempt := [1, 2, 3].map (attempt "alice" "x")

/-- The state after them. -/
def thrice : Audited :=
  (exec (step plainPrimitives plainTotp) (Audited.start oneUser true) wrongThrice).getD
    (Audited.start oneUser true)

theorem exec_wrongThrice :
    exec (step plainPrimitives plainTotp) (Audited.start oneUser true) wrongThrice =
      some thrice := by
  have hsome : (exec (step plainPrimitives plainTotp) (Audited.start oneUser true)
      wrongThrice).isSome = true := by decide
  obtain ⟨s, hs⟩ := Option.isSome_iff_exists.mp hsome
  rw [thrice, hs, Option.getD_some]

theorem throttled_after_rejections_thrice :
    (∃ secs, (thrice.service.loginWithOptions plainPrimitives plainTotp
      (attempt "alice" "pw" 5)).result = .error (.throttled secs)) ∧
    (thrice.service.loginWithOptions plainPrimitives plainTotp
      (attempt "alice" "pw" 5)).verified = false :=
  throttled_after_rejections plainPrimitives plainTotp oneUser true wrongThrice thrice
    exec_wrongThrice (by decide) (attempt "alice" "pw" 5) (by decide) 1
    ⟨3, 3 * (second / 10), "alice"⟩ (by decide) rfl (by decide) (by decide)

/-- The same account in capital letters is let through to its password. -/
theorem respelled_not_throttled :
    ∃ s, exec (step plainPrimitives plainTotp) (Audited.start oneUser true) wrongThrice = some s ∧
      ¬ RefusesWithinBackoff plainPrimitives plainTotp s (attempt "ALICE" "x" 5) := by
  refine ⟨thrice, exec_wrongThrice, ?_⟩
  intro hrefuses
  have hverified := (hrefuses 1 ⟨3, 3 * (second / 10), "alice"⟩ (by decide) rfl (by decide)
    (by decide)).2
  have hreached : (thrice.service.loginWithOptions plainPrimitives plainTotp
      (attempt "ALICE" "x" 5)).verified = true := by decide
  rw [hreached] at hverified
  cases hverified

end Mycelium.Analysis.LoginThrottle
