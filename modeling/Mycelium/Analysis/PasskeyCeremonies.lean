import Mathlib.Data.List.Perm.Subperm
import Mycelium.Analysis.TimestampOrder
import Mycelium.Lib.StepSystem
import Mycelium.Model.Passkeys

/-!
# What a passkey ceremony is good for

A *history* of the challenges that were stored, selected and used up. Each started ceremony is
used up at most once, in whatever order the statements of the calls come: a delete goes through
only where nothing was written since its challenge was read. What was accepted answers a
ceremony of the same user and purpose, started less than five minutes before it was selected,
and a stored passkey is as its enrollment left it (`ceremonies_answered`).

The counter that a login writes is read by no statement: tables that differ in counters alone
let the same calls through (`counters_unread`).
-/

set_option autoImplicit false

namespace Mycelium.Analysis.PasskeyCeremonies

open StepSystem Mycelium.Model.Timestamps Mycelium.Model.Passkeys
open Mycelium.Analysis.TimestampOrder (toRfc3339_strictMono)

variable {X : Webauthn}

/-! ## The history -/

inductive Event (X : Webauthn) where
  | started (row : ChallengeRow X) (now : Instant)
  | selected (answer : Answer X) (row : ChallengeRow X) (now : Instant)
  | used (answer : Answer X) (row : ChallengeRow X) (verified : Option (Verified X))

def Event.started? : Event X → Option (ChallengeRow X)
  | .started row _ => some row
  | _ => none

def Event.used? : Event X → Option (ChallengeRow X)
  | .used _ row _ => some row
  | _ => none

def stored (s : State X) (c : Choice) (pc : Pc X) : List (Event X) :=
  match newChallenge c pc with
  | some (.ok row) => if (insertChallenge s row).isSome then [.started row c.now] else []
  | _ => []

def events (s : State X) : Action X → List (Event X)
  | .finish _ answer now =>
    match selectChallenge s answer.userId answer.purpose now with
    | none => []
    | some row => [.selected answer row now]
  | .step i c =>
    match s.tasks i with
    | .deleteChallenge answer snapshot row =>
      if s.version = snapshot then [.used answer row (verify answer row).toOption] else []
    | pc => stored s c pc
  | _ => []

/-- What an event rests on. -/
def Grounds : Event X → List (Event X) → Prop
  | .started row now, _ =>
    ∃ expires, now.plus ceremonyTtl = some expires ∧ row.expiresAt = expires.toRfc3339
  | .selected answer row now, earlier =>
    (∃ start, .started row start ∈ earlier) ∧ row.userId = answer.userId ∧
      row.purpose = answer.purpose ∧ now.toRfc3339 < row.expiresAt
  | .used answer row verified, earlier =>
    (∃ now, .selected answer row now ∈ earlier) ∧ verified = (verify answer row).toOption

/-- What a task at a point relies on. -/
def TaskOk (s : State X) (history : List (Event X)) : Pc X → Prop
  | .deleteChallenge answer snapshot row =>
    snapshot ≤ s.version ∧ (snapshot = s.version → row ∈ s.challenges) ∧
      ∃ now, .selected answer row now ∈ history
  | .persist (.enrolled userId passkey) =>
    ∃ answer row, .used answer row (some (.enrolled userId passkey)) ∈ history
  | _ => True

structure Holds (s : State X) (history : List (Event X)) : Prop where
  once : (history.filterMap Event.used? ++ s.challenges).Subperm
    (history.filterMap Event.started?)
  rows : ∀ row ∈ s.challenges, ∃ start, .started row start ∈ history
  tasks : ∀ i, TaskOk s history (s.tasks i)
  enrolled : ∀ cred ∈ s.credentials, ∃ answer row,
    .used answer row (some (.enrolled cred.userId cred.publicKey)) ∈ history
  grounds : Justified Grounds history

/-! ## Statements -/

/-- Where the version stays, so do the challenges. -/
def Later (s s' : State X) : Prop :=
  s.version ≤ s'.version ∧ (s.version = s'.version → s'.challenges = s.challenges)

theorem later_refl (s : State X) : Later s s := ⟨le_refl _, fun _ => rfl⟩

theorem later_of_lt {s s' : State X} (h : s.version < s'.version) : Later s s' :=
  ⟨h.le, fun heq => absurd heq h.ne⟩

theorem later_setChallenges_filter (s : State X) (p : ChallengeRow X → Bool) :
    Later s (s.setChallenges (s.challenges.filter p)) := by
  unfold State.setChallenges Later
  dsimp only
  split
  · rename_i hlength
    have hall := List.length_filter_eq_length_iff.mp hlength
    exact ⟨le_refl _, fun _ => List.filter_eq_self.mpr hall⟩
  · exact ⟨Nat.le_succ _, fun heq => absurd heq (Nat.succ_ne_self _).symm⟩

theorem TaskOk.mono {s s' : State X} {history e : List (Event X)} {pc : Pc X}
    (h : TaskOk s history pc) (hlater : Later s s') : TaskOk s' (e ++ history) pc := by
  cases pc with
  | deleteChallenge answer snapshot row =>
    obtain ⟨hle, hrow, now, hselected⟩ := h
    refine ⟨hle.trans hlater.1, ?_, now, List.mem_append_right e hselected⟩
    intro heq
    have hsame : s.version = s'.version := le_antisymm hlater.1 (heq ▸ hle)
    rw [hlater.2 hsame]
    exact hrow (heq.trans hsame.symm)
  | persist verified =>
    cases verified with
    | enrolled userId passkey =>
      obtain ⟨answer, row, hused⟩ := h
      exact ⟨answer, row, List.mem_append_right e hused⟩
    | authenticated credId result => trivial
  | _ => trivial

/-- INTERNAL: a step that moves one task at most. -/
theorem tasks_of_step {s s' : State X} {history e : List (Event X)} (h : Holds s history)
    (hlater : Later s s') {i : ℕ} (pc : Pc X) (hpc : TaskOk s' (e ++ history) pc)
    (htasks : ∀ j, s'.tasks j = if j = i then pc else s.tasks j) :
    ∀ j, TaskOk s' (e ++ history) (s'.tasks j) := by
  intro j
  rw [htasks j]
  split
  · exact hpc
  · exact (h.tasks j).mono hlater

/-- INTERNAL: a statement that stores and uses up no challenge and enrolls nothing. -/
theorem holds_of_sublist {s s' : State X} {history e : List (Event X)} (h : Holds s history)
    (htasks : ∀ j, TaskOk s' (e ++ history) (s'.tasks j))
    (hchallenges : s'.challenges.Sublist s.challenges)
    (hcredentials : ∀ cred ∈ s'.credentials, ∃ old ∈ s.credentials,
      cred.userId = old.userId ∧ cred.publicKey = old.publicKey)
    (hstarted : e.filterMap Event.started? = []) (hused : e.filterMap Event.used? = [])
    (hgrounds : Justified Grounds (e ++ history)) : Holds s' (e ++ history) := by
  refine ⟨?_, ?_, htasks, ?_, hgrounds⟩
  · rw [List.filterMap_append, List.filterMap_append, hstarted, hused, List.nil_append,
      List.nil_append]
    exact ((List.Sublist.refl _).append hchallenges).subperm.trans h.once
  · intro row hrow
    obtain ⟨start, hstart⟩ := h.rows row (hchallenges.subset hrow)
    exact ⟨start, List.mem_append_right e hstart⟩
  · intro cred hcred
    obtain ⟨old, hold, huser, hkey⟩ := hcredentials cred hcred
    obtain ⟨answer, row, hevent⟩ := h.enrolled old hold
    rw [huser, hkey]
    exact ⟨answer, row, List.mem_append_right e hevent⟩

/-- INTERNAL: one that moves a task and writes nothing. -/
theorem holds_setTask {s : State X} {history e : List (Event X)} (h : Holds s history) (i : ℕ)
    {pc : Pc X} (hpc : TaskOk s (e ++ history) pc)
    (hstarted : e.filterMap Event.started? = []) (hused : e.filterMap Event.used? = [])
    (hgrounds : Justified Grounds (e ++ history)) : Holds (s.setTask i pc) (e ++ history) := by
  apply holds_of_sublist h
  · exact tasks_of_step h (later_refl s) pc hpc fun _ => rfl
  · exact List.Sublist.refl _
  · exact fun cred hcred => ⟨cred, hcred, rfl, rfl⟩
  · exact hstarted
  · exact hused
  · exact hgrounds

/-- INTERNAL: and notes nothing. -/
theorem holds_move {s : State X} {history : List (Event X)} (h : Holds s history) (i : ℕ)
    {pc : Pc X} (hpc : TaskOk s history pc) : Holds (s.setTask i pc) history :=
  holds_setTask (e := []) h i hpc rfl rfl h.grounds

/-- INTERNAL: the row that is read is taken out with the rows of its id. -/
theorem subperm_cons_filter {α : Type} {p : α → Bool} {a : α} {l : List α} (ha : a ∈ l)
    (hp : p a = false) : (a :: l.filter p).Subperm l := by
  have hsplit : (l.filter (fun x => !p x) ++ l.filter p).Perm l :=
    List.perm_append_comm.trans (List.filter_append_perm p l)
  have hmem : a ∈ l.filter fun x => !p x := List.mem_filter.mpr ⟨ha, by rw [hp]; rfl⟩
  have hsub : ([a] ++ l.filter p).Sublist (l.filter (fun x => !p x) ++ l.filter p) :=
    (List.singleton_sublist.mpr hmem).append (List.Sublist.refl _)
  exact hsub.subperm.trans hsplit.subperm

theorem selectChallenge_eq_some {s : State X} {userId : ℕ} {purpose : Purpose} {now : Instant}
    {row : ChallengeRow X} (h : selectChallenge s userId purpose now = some row) :
    row ∈ s.challenges ∧ row.userId = userId ∧ row.purpose = purpose ∧
      now.toRfc3339 < row.expiresAt := by
  have hmem := (List.mem_insertionSort _).mp (List.mem_of_mem_head? h)
  obtain ⟨hrow, hcond⟩ := List.mem_filter.mp hmem
  exact ⟨hrow, of_decide_eq_true hcond⟩

theorem newChallenge_eq_ok {c : Choice} {pc : Pc X} {row : ChallengeRow X}
    (h : newChallenge c pc = some (.ok row)) :
    ∃ expires, c.now.plus ceremonyTtl = some expires ∧ row.expiresAt = expires.toRfc3339 := by
  unfold newChallenge at h
  split at h
  · split at h
    · cases h
    · obtain ⟨expires, hexpires, hrow⟩ := Option.map_eq_some_iff.mp h
      cases hrow
      exact ⟨expires, hexpires, rfl⟩
  · split at h
    · cases h
    · obtain ⟨expires, hexpires, hrow⟩ := Option.map_eq_some_iff.mp h
      cases hrow
      exact ⟨expires, hexpires, rfl⟩
  · cases h

theorem holds_insertChallenge {s s' : State X} {history : List (Event X)} (h : Holds s history)
    {c : Choice} {pc : Pc X} {row : ChallengeRow X} (hrow : newChallenge c pc = some (.ok row))
    (hinsert : insertChallenge s row = some s') (i : ℕ) (result : Except WebAuthnError Unit) :
    Holds (s'.setTask i (.done result)) (.started row c.now :: history) := by
  unfold insertChallenge at hinsert
  split at hinsert
  · cases hinsert
    have hlater : Later s (s.setChallenges (s.challenges ++ [row])) := by
      apply later_of_lt
      have hlength : (s.challenges ++ [row]).length ≠ s.challenges.length := by
        rw [List.length_append, List.length_singleton]
        omega
      simp only [State.setChallenges, if_neg hlength]
      omega
    refine ⟨?_, ?_, ?_, ?_, newChallenge_eq_ok hrow, h.grounds⟩
    · have hperm : (history.filterMap Event.used? ++ (s.challenges ++ [row])).Perm
          (row :: (history.filterMap Event.used? ++ s.challenges)) := by
        rw [← List.append_assoc]
        exact List.perm_append_singleton _ _
      exact hperm.subperm.trans (List.subperm_cons row |>.mpr h.once)
    · intro other hother
      obtain hother | hother := List.mem_append.mp hother
      · obtain ⟨start, hstart⟩ := h.rows other hother
        exact ⟨start, List.mem_cons_of_mem _ hstart⟩
      · rw [List.mem_singleton.mp hother]
        exact ⟨c.now, List.mem_cons_self⟩
    · exact tasks_of_step (e := [.started row c.now]) h hlater (.done result) trivial fun _ => rfl
    · intro cred hcred
      obtain ⟨answer, other, hevent⟩ := h.enrolled cred hcred
      exact ⟨answer, other, List.mem_cons_of_mem _ hevent⟩
  · cases hinsert

theorem holds_deleteChallenge {s : State X} {history : List (Event X)} (h : Holds s history)
    {i : ℕ} {answer : Answer X} {row : ChallengeRow X}
    (htask : s.tasks i = .deleteChallenge answer s.version row) {pc : Pc X}
    (hpc : ∀ history' : List (Event X),
      .used answer row (verify answer row).toOption ∈ history' → ∀ t : State X,
        TaskOk t history' pc) :
    Holds ((s.setChallenges (s.challenges.filter fun other => other.id ≠ row.id)).setTask i pc)
      (.used answer row (verify answer row).toOption :: history) := by
  have hok := h.tasks i
  rw [htask] at hok
  obtain ⟨_, hrow, now, hselected⟩ := hok
  refine ⟨?_, ?_, ?_, ?_, ⟨⟨now, hselected⟩, rfl⟩, h.grounds⟩
  · have hout : (row :: s.challenges.filter fun other => other.id ≠ row.id).Subperm
        s.challenges := subperm_cons_filter (hrow rfl) (by simp)
    have hused := (List.subperm_append_left (history.filterMap Event.used?)).mpr hout
    exact (List.perm_middle.symm.subperm.trans hused).trans h.once
  · intro other hother
    obtain ⟨start, hstart⟩ := h.rows other (List.mem_filter.mp hother).1
    exact ⟨start, List.mem_cons_of_mem _ hstart⟩
  · exact tasks_of_step (e := [.used answer row _]) h (later_setChallenges_filter s _) pc
      (hpc _ List.mem_cons_self _) fun _ => rfl
  · intro cred hcred
    obtain ⟨other, challenge, hevent⟩ := h.enrolled cred hcred
    exact ⟨other, challenge, List.mem_cons_of_mem _ hevent⟩

theorem holds_insertCredential {s s' : State X} {history : List (Event X)} (h : Holds s history)
    {i userId : ℕ} {passkey : X.Passkey} (htask : s.tasks i = .persist (.enrolled userId passkey))
    {now : Instant} (hinsert : insertCredential s userId passkey now = .ok s') :
    Holds (s'.setTask i (.done (.ok ()))) history := by
  have hok := h.tasks i
  rw [htask] at hok
  unfold insertCredential at hinsert
  split at hinsert
  · cases hinsert
  · split at hinsert
    · cases hinsert
      refine ⟨h.once, h.rows, ?_, ?_, h.grounds⟩
      · exact tasks_of_step (e := []) h (later_of_lt (Nat.lt_succ_self _)) (.done (.ok ())) trivial
          fun _ => rfl
      · intro cred hcred
        obtain hcred | hcred := List.mem_append.mp hcred
        · exact h.enrolled cred hcred
        · rw [List.mem_singleton.mp hcred]
          exact hok
    · cases hinsert

theorem holds_updateCounter {s : State X} {history : List (Event X)} (h : Holds s history)
    (i : ℕ) (credId : String) (counter : ℕ) :
    Holds ((updateCounter s credId counter).setTask i (.done (.ok ()))) history := by
  refine holds_of_sublist (e := []) h ?_ (List.Sublist.refl _) ?_ rfl rfl h.grounds
  · have hlater : Later s (updateCounter s credId counter) := by
      refine ⟨?_, fun _ => rfl⟩
      simp only [updateCounter]
      split
      · exact Nat.le_succ _
      · exact le_refl _
    exact tasks_of_step (e := []) h hlater (.done (.ok ())) trivial fun _ => rfl
  · intro cred hcred
    obtain ⟨old, hold, rfl⟩ := List.mem_map.mp hcred
    refine ⟨old, hold, ?_⟩
    split
    · exact ⟨rfl, rfl⟩
    · exact ⟨rfl, rfl⟩

/-- INTERNAL: a statement that deletes and moves no task. -/
theorem holds_of_deleted {s s' : State X} {history : List (Event X)} (h : Holds s history)
    (hlater : Later s s') (htasks : s'.tasks = s.tasks)
    (hchallenges : s'.challenges.Sublist s.challenges)
    (hcredentials : s'.credentials.Sublist s.credentials) : Holds s' history := by
  refine holds_of_sublist (e := []) h ?_ hchallenges ?_ rfl rfl h.grounds
  · intro j
    rw [htasks]
    exact (h.tasks j).mono (e := []) hlater
  · exact fun cred hcred => ⟨cred, hcredentials.subset hcred, rfl, rfl⟩

theorem holds_storeChallenge {s s' : State X} {history : List (Event X)} (h : Holds s history)
    {i : ℕ} {c : Choice} {pc : Pc X} (hstep : s.storeChallenge i c pc = some s') :
    Holds s' (stored s c pc ++ history) := by
  unfold State.storeChallenge at hstep
  unfold stored
  split at hstep
  · cases hstep
  · rename_i e hnew
    cases hstep
    rw [hnew]
    exact holds_move h i trivial
  · rename_i row hnew
    rw [hnew]
    dsimp only
    split at hstep
    · rename_i hinsert
      cases hstep
      rw [hinsert]
      exact holds_move h i trivial
    · rename_i t hinsert
      cases hstep
      rw [hinsert]
      exact holds_insertChallenge h hnew hinsert i (.ok ())

theorem holds_stepTask {s s' : State X} {history : List (Event X)} (h : Holds s history) {i : ℕ}
    {c : Choice} (hstep : s.stepTask i c = some s') :
    Holds s' (events s (.step i c) ++ history) := by
  unfold State.stepTask at hstep
  unfold events
  dsimp only
  cases htask : s.tasks i with
  | deleteChallenge answer snapshot row =>
    simp only [htask] at hstep
    dsimp only
    split at hstep
    · rename_i hversion
      rw [if_pos hversion]
      subst hversion
      cases hverify : verify answer row with
      | error e =>
        simp only [hverify] at hstep
        cases hstep
        exact hverify ▸ holds_deleteChallenge h htask fun _ _ _ => trivial
      | ok verified =>
        simp only [hverify] at hstep
        cases hstep
        rw [← hverify]
        apply holds_deleteChallenge h htask
        intro history' hused t
        rw [hverify] at hused
        cases verified with
        | enrolled userId passkey => exact ⟨answer, row, hused⟩
        | authenticated credId result => trivial
    · rename_i hversion
      cases hstep
      rw [if_neg hversion]
      exact holds_move h i trivial
  | persist verified =>
    cases verified with
    | enrolled userId passkey =>
      simp only [htask] at hstep
      split at hstep
      · cases hstep
        exact holds_move h i trivial
      · rename_i t hinsert
        cases hstep
        exact holds_insertCredential h htask hinsert
    | authenticated credId result =>
      simp only [htask] at hstep
      cases hstep
      dsimp only
      split
      · exact holds_updateCounter h i credId result.counter
      · exact holds_move h i trivial
  | idle =>
    simp only [htask] at hstep
    exact holds_storeChallenge h hstep
  | insertRegistration userId username displayName now =>
    simp only [htask] at hstep
    exact holds_storeChallenge h hstep
  | insertLogin userId passkeys =>
    simp only [htask] at hstep
    exact holds_storeChallenge h hstep
  | done result =>
    simp only [htask] at hstep
    exact holds_storeChallenge h hstep

/-- Every statement of every call keeps the tables in accord with their history. -/
theorem holds_step {s s' : State X} {history : List (Event X)} (h : Holds s history)
    {a : Action X} (hstep : step s a = some s') : Holds s' (events s a ++ history) := by
  cases a with
  | createUser userId =>
    cases hstep
    exact holds_of_deleted h (later_of_lt (Nat.lt_succ_self _)) rfl (List.Sublist.refl _)
      (List.Sublist.refl _)
  | deleteUser userId =>
    cases hstep
    exact holds_of_deleted h (later_of_lt (Nat.lt_succ_self _)) rfl List.filter_sublist
      List.filter_sublist
  | otherWrite =>
    cases hstep
    exact holds_of_deleted h (later_of_lt (Nat.lt_succ_self _)) rfl (List.Sublist.refl _)
      (List.Sublist.refl _)
  | startEnrollment i userId username displayName now =>
    simp only [step] at hstep
    split at hstep
    · cases hstep
      have hpurged : Holds (purgeExpired s userId now) history :=
        holds_of_deleted h (later_setChallenges_filter s _) rfl List.filter_sublist
          (List.Sublist.refl _)
      exact holds_move hpurged i trivial
    · cases hstep
  | startAuth i userId =>
    simp only [step] at hstep
    split at hstep
    · cases hstep
      refine holds_move h i ?_
      split
      · trivial
      · trivial
    · cases hstep
  | finish i answer now =>
    simp only [step] at hstep
    split at hstep
    · cases hstep
      cases hselect : selectChallenge s answer.userId answer.purpose now with
      | none =>
        simp only [events, hselect]
        exact holds_move h i trivial
      | some row =>
        obtain ⟨hrow, huser, hpurpose, hfresh⟩ := selectChallenge_eq_some hselect
        simp only [events, hselect]
        refine holds_setTask (e := [.selected answer row now]) h i ?_ rfl rfl ?_
        · exact ⟨le_refl _, fun _ => hrow, now, List.mem_cons_self⟩
        · exact ⟨⟨h.rows row hrow, huser, hpurpose, hfresh⟩, h.grounds⟩
    · cases hstep
  | step i c => exact holds_stepTask h hstep
  | removeCredential userId credentialId =>
    cases hstep
    refine holds_of_deleted h ?_ rfl (List.Sublist.refl _) List.filter_sublist
    refine ⟨?_, fun _ => rfl⟩
    simp only [removeCredential]
    split
    · exact le_refl _
    · exact Nat.le_succ _
  | abort i =>
    cases hstep
    exact holds_move h i trivial

theorem holds_exec {s : State X} {history : List (Event X)} {as : List (Action X)}
    (hrun : exec (recorded step events) ({}, []) as = some (s, history)) : Holds s history := by
  have hinit : Holds ({} : State X) [] := by
    refine ⟨List.Subperm.refl _, ?_, fun _ => trivial, ?_, trivial⟩
    · exact fun _ h => absurd h List.not_mem_nil
    · exact fun _ h => absurd h List.not_mem_nil
  refine exec_invariant (fun t : State X × List (Event X) => Holds t.1 t.2) ?_ hinit hrun
  intro t a t' h hstep
  obtain ⟨hstep, hhistory⟩ := recorded_eq_some.mp hstep
  rw [hhistory]
  exact holds_step h hstep

/-- **A ceremony counts once.** After every run, in whatever order the statements of the calls
come: no more challenges were used up than were started, each of them its own; what was accepted
answers a challenge of the same user and purpose that was selected less than five minutes after
it was started; and every stored passkey is the one its user's enrollment was accepted with. -/
theorem ceremonies_answered {s : State X} {history : List (Event X)} {as : List (Action X)}
    (hrun : exec (recorded step events) ({}, []) as = some (s, history)) :
    (history.filterMap Event.used?).Subperm (history.filterMap Event.started?) ∧
      (∀ later earlier answer row verified,
        history = later ++ .used answer row (some verified) :: earlier →
        verify answer row = .ok verified ∧ row.userId = answer.userId ∧
          row.purpose = answer.purpose ∧ ∃ start now expires, .started row start ∈ earlier ∧
            .selected answer row now ∈ earlier ∧ start.plus ceremonyTtl = some expires ∧
            now < expires) ∧
      ∀ cred ∈ s.credentials, ∃ answer row,
        .used answer row (some (.enrolled cred.userId cred.publicKey)) ∈ history := by
  have h := holds_exec hrun
  refine ⟨?_, ?_, h.enrolled⟩
  · exact (List.sublist_append_left _ _).subperm.trans h.once
  · intro later earlier answer row verified heq
    have hgrounds : Justified Grounds (later ++ .used answer row (some verified) :: earlier) :=
      heq ▸ h.grounds
    obtain ⟨⟨⟨now, hselected⟩, hverified⟩, hearlier⟩ := hgrounds.append_right
    obtain ⟨before, hbefore, ⟨start, hstart⟩, huser, hpurpose, hfresh⟩ :=
      hearlier.of_mem hselected
    obtain ⟨_, _, expires, hexpires, hcolumn⟩ := hearlier.of_mem (hbefore hstart)
    refine ⟨?_, huser, hpurpose, start, now, expires, hbefore hstart, hselected, hexpires, ?_⟩
    · cases hverify : verify answer row with
      | error e => rw [hverify] at hverified; cases hverified
      | ok v => rw [hverify] at hverified; cases hverified; rfl
    · rw [hcolumn] at hfresh
      exact toRfc3339_strictMono.lt_iff_lt.mp hfresh

/-- INTERNAL: a relying party that takes the answer it asked for. -/
def twoKeyParty : Webauthn where
  Passkey := ℕ
  PasskeyRegistration := ℕ
  PasskeyAuthentication := ℕ
  RegisterPublicKeyCredential := ℕ
  PublicKeyCredential := ℕ
  startPasskeyRegistration := fun _ _ _ seed => some seed
  finishPasskeyRegistration := fun reg state => if reg = state then some reg else none
  startPasskeyAuthentication := fun _ seed => some seed
  finishPasskeyAuthentication := fun auth state => if auth = state then some ⟨true, 1⟩ else none
  credId := fun _ => "key"
  rawId := fun _ => "key"

/-- INTERNAL: two clients answer the challenge of one enrollment. -/
def twoAnswers : List (Action twoKeyParty) :=
  let now : Instant := ⟨100, 0, by decide, .inl (by decide)⟩
  let answer : Answer twoKeyParty := .enrollment 1 (7 : ℕ)
  [.createUser 1, .startEnrollment 0 1 "ada" "ada" now, .step 0 ⟨now, 4, 7⟩,
    .finish 1 answer now, .finish 2 answer now, .step 1 ⟨now, 5, 8⟩, .step 2 ⟨now, 6, 9⟩,
    .step 1 ⟨now, 5, 8⟩]

theorem ceremonies_answered_of_two : ∃ s history,
    exec (recorded step events) ({}, []) twoAnswers = some (s, history) ∧
      (history.filterMap Event.used?).Subperm (history.filterMap Event.started?) := by
  obtain ⟨s, history, hrun⟩ : ∃ s history,
      exec (recorded step events) ({}, []) twoAnswers = some (s, history) := ⟨_, _, rfl⟩
  exact ⟨s, history, hrun, (ceremonies_answered hrun).1⟩

/-! ## Counters -/

/-- The tables but for the counters. -/
def forgetCounters (s : State X) : State X :=
  { s with credentials := s.credentials.map fun row => { row with counter := 0 } }

@[simp] theorem forgetCounters_forgetCounters (s : State X) :
    forgetCounters (forgetCounters s) = forgetCounters s := by
  simp only [forgetCounters, List.map_map]
  rfl

@[simp] theorem forgetCounters_setTask (s : State X) (i : ℕ) (pc : Pc X) :
    forgetCounters (s.setTask i pc) = (forgetCounters s).setTask i pc := rfl

theorem loadPasskeys_forgetCounters (s : State X) (userId : ℕ) :
    loadPasskeys (forgetCounters s) userId = loadPasskeys s userId := by
  simp only [loadPasskeys, forgetCounters, List.filter_map, List.map_map]
  rfl

theorem forgetCounters_updateCounter (s : State X) (credId : String) (counter : ℕ) :
    forgetCounters (updateCounter (forgetCounters s) credId counter) =
      forgetCounters (updateCounter s credId counter) := by
  have hrows : ∀ row : CredentialRow X,
      ({ (if row.id = credId then { { row with counter := 0 } with counter } else
        { row with counter := 0 }) with counter := 0 } : CredentialRow X) =
        { (if row.id = credId then { row with counter } else row) with counter := 0 } := by
    intro row
    split
    · rfl
    · rfl
  simp only [forgetCounters, updateCounter, List.map_map, List.any_map]
  congr 1
  exact List.map_congr_left fun row _ => hrows row

theorem insertCredential_forgetCounters (s : State X) (userId : ℕ) (passkey : X.Passkey)
    (now : Instant) : insertCredential (forgetCounters s) userId passkey now =
      (insertCredential s userId passkey now).map forgetCounters := by
  have hany : (forgetCounters s).credentials.any (fun row => row.id = X.credId passkey) =
      s.credentials.any fun row => row.id = X.credId passkey := by
    simp only [forgetCounters, List.any_map]
    rfl
  unfold insertCredential
  rw [hany]
  split
  · rfl
  · change (if userId ∈ s.users then _ else _) = _
    split
    · simp only [Except.map, forgetCounters, List.map_append, List.map_cons, List.map_nil]
    · rfl

theorem removeCredential_forgetCounters (s : State X) (userId : ℕ) (credentialId : String) :
    removeCredential (forgetCounters s) userId credentialId =
      forgetCounters (removeCredential s userId credentialId) := by
  simp only [removeCredential, forgetCounters, List.filter_map, List.length_map]
  rfl

theorem insertChallenge_forgetCounters (s : State X) (row : ChallengeRow X) :
    insertChallenge (forgetCounters s) row = (insertChallenge s row).map forgetCounters := by
  unfold insertChallenge
  change (if row.userId ∈ s.users ∧ ∀ other ∈ s.challenges, other.id ≠ row.id then _ else _) = _
  split
  · rfl
  · rfl

theorem storeChallenge_forgetCounters (s : State X) (i : ℕ) (c : Choice) (pc : Pc X) :
    (forgetCounters s).storeChallenge i c pc = (s.storeChallenge i c pc).map forgetCounters := by
  unfold State.storeChallenge
  split
  · rfl
  · rfl
  · rename_i row _
    rw [insertChallenge_forgetCounters]
    cases insertChallenge s row with
    | none => rfl
    | some t => rfl

theorem stepTask_forgetCounters (s : State X) (i : ℕ) (c : Choice) :
    ((forgetCounters s).stepTask i c).map forgetCounters =
      (s.stepTask i c).map forgetCounters := by
  have hstore : ∀ pc, ((forgetCounters s).storeChallenge i c pc).map forgetCounters =
      (s.storeChallenge i c pc).map forgetCounters := by
    intro pc
    rw [storeChallenge_forgetCounters, Option.map_map]
    congr 1
    funext t
    exact forgetCounters_forgetCounters t
  have htasks : (forgetCounters s).tasks i = s.tasks i := rfl
  unfold State.stepTask
  rw [htasks]
  cases s.tasks i with
  | deleteChallenge answer snapshot row =>
    change Option.map _ (if s.version = snapshot then _ else _) = _
    dsimp only
    split
    · cases verify answer row with
      | error e =>
        exact congrArg some (forgetCounters_forgetCounters ((s.setChallenges _).setTask i _))
      | ok verified =>
        exact congrArg some (forgetCounters_forgetCounters ((s.setChallenges _).setTask i _))
    · exact congrArg some (forgetCounters_forgetCounters (s.setTask i _))
  | persist verified =>
    cases verified with
    | enrolled userId passkey =>
      dsimp only
      rw [insertCredential_forgetCounters]
      cases insertCredential s userId passkey c.now with
      | error e => exact congrArg some (forgetCounters_forgetCounters (s.setTask i _))
      | ok t => exact congrArg some (forgetCounters_forgetCounters (t.setTask i _))
    | authenticated credId result =>
      dsimp only
      split
      · simp only [Option.map_some, forgetCounters_setTask, forgetCounters_updateCounter]
      · exact congrArg some (forgetCounters_forgetCounters (s.setTask i _))
  | idle => exact hstore _
  | insertRegistration userId username displayName now => exact hstore _
  | insertLogin userId passkeys => exact hstore _
  | done result => exact hstore _

theorem step_forgetCounters (s : State X) (a : Action X) :
    (step (forgetCounters s) a).map forgetCounters = (step s a).map forgetCounters := by
  cases a with
  | createUser userId =>
    exact congrArg some (forgetCounters_forgetCounters
      { s with users := userId :: s.users, version := s.version + 1 })
  | otherWrite =>
    exact congrArg some (forgetCounters_forgetCounters { s with version := s.version + 1 })
  | deleteUser userId =>
    simp only [step, Option.map_some, forgetCounters, List.filter_map, List.map_map]
    rfl
  | startEnrollment i userId username displayName now =>
    have htasks : (forgetCounters s).tasks i = s.tasks i := rfl
    simp only [step, htasks]
    cases s.tasks i with
    | idle =>
      exact congrArg some
        (forgetCounters_forgetCounters ((purgeExpired s userId now).setTask i _))
    | _ => rfl
  | startAuth i userId =>
    have htasks : (forgetCounters s).tasks i = s.tasks i := rfl
    simp only [step, htasks, loadPasskeys_forgetCounters]
    cases s.tasks i with
    | idle => exact congrArg some (forgetCounters_forgetCounters (s.setTask i _))
    | _ => rfl
  | finish i answer now =>
    have htasks : (forgetCounters s).tasks i = s.tasks i := rfl
    simp only [step, htasks]
    cases s.tasks i with
    | idle => exact congrArg some (forgetCounters_forgetCounters (s.setTask i _))
    | _ => rfl
  | step i c => exact stepTask_forgetCounters s i c
  | removeCredential userId credentialId =>
    simp only [step, removeCredential_forgetCounters, Option.map_some,
      forgetCounters_forgetCounters]
  | abort i => exact congrArg some (forgetCounters_forgetCounters (s.setTask i _))

/-- **The counter is read by nothing**: from tables that differ in their counters alone, the
calls of any run get the same results, through the same challenges and passkeys, and leave
tables that differ in their counters alone. -/
theorem counters_unread {s t : State X} (h : forgetCounters s = forgetCounters t)
    (as : List (Action X)) :
    (exec step s as).map forgetCounters = (exec step t as).map forgetCounters := by
  induction as generalizing s t with
  | nil => exact congrArg some h
  | cons a as ih =>
    have hstep : (step s a).map forgetCounters = (step t a).map forgetCounters := by
      rw [← step_forgetCounters s, ← step_forgetCounters t, h]
    simp only [exec]
    cases hs : step s a with
    | none =>
      rw [hs] at hstep
      rw [Option.map_eq_none_iff.mp hstep.symm]
    | some s' =>
      rw [hs, Option.map_some] at hstep
      obtain ⟨t', ht, hsame⟩ := Option.map_eq_some_iff.mp hstep.symm
      rw [ht, Option.bind_some, Option.bind_some]
      exact ih hsame.symm

theorem counters_unread_of_two :
    let key : CredentialRow twoKeyParty := ⟨"key", 1, (7 : ℕ), 3, ""⟩
    let cloned : CredentialRow twoKeyParty := ⟨"key", 1, (7 : ℕ), 9, ""⟩
    (exec step { users := [1], credentials := [key] } [.startAuth 0 1]).map forgetCounters =
      (exec step { users := [1], credentials := [cloned] } [.startAuth 0 1]).map
        forgetCounters :=
  counters_unread rfl [.startAuth 0 1]

end Mycelium.Analysis.PasskeyCeremonies
