import Mycelium.Lib.StepSystem
import Mycelium.Model.Setup

/-!
# How many first accounts there are

The count and the insert of a submission are two steps, so the accounts that the setup page made
are the *history* of its inserts. Their names differ, and once there is an account and no
submission is between its two steps, none is made any more. One at most is made only where no
submission counts while another is between its steps (`Alone`): otherwise two submissions of
different names both become admins (`first_account_of_two`).
-/

set_option autoImplicit false

namespace Mycelium.Analysis.FirstAccount

open StepSystem Mycelium.Model.Setup
open Mycelium.Model.Accounts (noCase)

/-- The account that a step of the setup page makes. -/
def made (s : State) : Action → List String
  | .insert i =>
    match s.tasks i with
    | .inserting username =>
      if (insertUser s.users (initialAdmin username)).isSome then [username] else []
    | _ => []
  | _ => []

/-- No submission is between its count and its insert. -/
def Settled (s : State) : Prop := ∀ i username, s.tasks i ≠ .inserting username

/-- A submission counts while none is between its count and its insert. -/
def Alone (s : State) : Action → Prop
  | .submit _ _ _ _ => Settled s
  | _ => True

/-! ## Steps -/

theorem insertUser_eq_some {users users' : List Account} {account : Account}
    (h : insertUser users account = some users') : users' = users ++ [account] ∧
      ∀ other ∈ users, noCase other.username ≠ noCase account.username := by
  unfold insertUser at h
  split at h
  · cases h
  · rename_i hfree
    cases h
    refine ⟨rfl, fun other hother hname => hfree ?_⟩
    exact List.any_eq_true.mpr ⟨other, hother, by simp [hname]⟩

/-- INTERNAL: who is at an insert once a task moved. -/
theorem inserting_setTask {s : State} {i j : ℕ} {pc : Pc} {name : String}
    (h : (s.setTask i pc).tasks j = .inserting name) :
    j = i ∧ pc = .inserting name ∨ j ≠ i ∧ s.tasks j = .inserting name := by
  simp only [State.setTask] at h
  split at h
  · rename_i hj
    exact .inl ⟨hj, h⟩
  · rename_i hj
    exact .inr ⟨hj, h⟩

/-- INTERNAL: nobody comes to an insert by a task that ends. -/
theorem inserting_of_setTask {s : State} {i j : ℕ} {pc : Pc} {name : String}
    (h : (s.setTask i pc).tasks j = .inserting name) (hpc : ∀ name, pc ≠ .inserting name) :
    j ≠ i ∧ s.tasks j = .inserting name := by
  obtain ⟨_, hpc'⟩ | hother := inserting_setTask h
  · exact absurd hpc' (hpc name)
  · exact hother

/-- What a step does to the accounts and to the submissions between their steps. -/
theorem step_cases {s s' : State} {a : Action} (h : step s a = some s') :
    (∃ i username, s.tasks i = .inserting username ∧
      insertUser s.users (initialAdmin username) = some s'.users ∧ made s a = [username] ∧
      ∀ j name, s'.tasks j = .inserting name → j ≠ i ∧ s.tasks j = .inserting name) ∨
    (s.users = [] ∧ s'.users = [] ∧ made s a = [] ∧ ∃ i, Alone s a = Settled s ∧
      ∀ j name, s'.tasks j = .inserting name → j = i ∨ s.tasks j = .inserting name) ∨
    (made s a = [] ∧ (s'.users = s.users ∨ s.users ≠ [] ∧ ∃ account,
        insertUser s.users account = some s'.users) ∧
      ∀ j name, s'.tasks j = .inserting name → s.tasks j = .inserting name) := by
  cases a with
  | submit i form minLen readable =>
    simp only [step] at h
    split at h
    · split at h
      · cases h
        refine .inr (.inr ⟨rfl, .inl rfl, fun j name hj => ?_⟩)
        exact (inserting_of_setTask hj fun _ => nofun).2
      · rename_i hempty
        have hnone : s.users = [] := by
          by_contra hne
          exact hempty (.inl hne)
        split at h
        · cases h
          refine .inr (.inr ⟨rfl, .inl rfl, fun j name hj => ?_⟩)
          exact (inserting_of_setTask hj fun _ => nofun).2
        · cases h
          refine .inr (.inl ⟨hnone, hnone, rfl, i, rfl, fun j name hj => ?_⟩)
          exact (inserting_setTask hj).imp (fun h => h.1) fun h => h.2
    · cases h
  | insert i =>
    simp only [step] at h
    split at h
    · rename_i username hpc
      split at h
      · rename_i hnone
        cases h
        have hmade : made s (.insert i) = [] := by
          simp only [made, hpc, hnone, Option.isSome_none, Bool.false_eq_true, if_false]
        refine .inr (.inr ⟨hmade, .inl rfl, fun j name hj => ?_⟩)
        exact (inserting_of_setTask hj fun _ => nofun).2
      · rename_i users hsome
        cases h
        have hmade : made s (.insert i) = [username] := by
          simp only [made, hpc, hsome, Option.isSome_some, if_true]
        exact .inl ⟨i, username, hpc, hsome, hmade, fun j name hj =>
          inserting_of_setTask hj fun _ => nofun⟩
    · cases h
  | createUser account =>
    simp only [step] at h
    split at h
    · rename_i hadmin
      cases h
      have hne : s.users ≠ [] := by
        intro hnil
        rw [hnil] at hadmin
        cases hadmin
      refine .inr (.inr ⟨rfl, ?_, fun j name hj => hj⟩)
      cases hinsert : insertUser s.users account with
      | none => exact .inl rfl
      | some users => exact .inr ⟨hne, account, hinsert⟩
    · cases h
  | abort i =>
    cases h
    refine .inr (.inr ⟨rfl, .inl rfl, fun j name hj => ?_⟩)
    exact (inserting_of_setTask hj fun _ => nofun).2

/-! ## Runs -/

/-- INTERNAL: names are different, and those the setup page made are there. -/
structure Named (s : State) (history : List String) : Prop where
  distinct : (s.users.map fun user => noCase user.username).Nodup
  there : ∀ name ∈ history, ∃ user ∈ s.users, user.username = name
  history : (history.map noCase).Nodup

theorem distinct_insertUser {users users' : List Account} {account : Account}
    (hdistinct : (users.map fun user => noCase user.username).Nodup)
    (h : insertUser users account = some users') :
    (users'.map fun user => noCase user.username).Nodup := by
  obtain ⟨rfl, hfree⟩ := insertUser_eq_some h
  rw [List.map_append, List.nodup_append]
  refine ⟨hdistinct, List.nodup_singleton _, ?_⟩
  intro a ha b hb
  obtain ⟨other, hother, rfl⟩ := List.mem_map.mp ha
  rw [List.mem_singleton.mp hb]
  exact hfree other hother

theorem named_step {s s' : State} {history : List String} {a : Action} (h : Named s history)
    (hstep : step s a = some s') : Named s' (made s a ++ history) := by
  obtain ⟨i, username, _, hinsert, hmade, _⟩ | ⟨hnone, hnone', hmade, _⟩ |
    ⟨hmade, hsame | ⟨_, account, hinsert⟩, _⟩ := step_cases hstep
  · rw [hmade]
    obtain ⟨husers, hfree⟩ := insertUser_eq_some hinsert
    refine ⟨distinct_insertUser h.distinct hinsert, ?_, ?_⟩
    · intro name hname
      rw [husers]
      obtain rfl | hname := List.mem_cons.mp hname
      · exact ⟨initialAdmin name, List.mem_append_right _ List.mem_cons_self, rfl⟩
      · obtain ⟨user, huser, hsame⟩ := h.there name hname
        exact ⟨user, List.mem_append_left _ huser, hsame⟩
    · refine List.nodup_cons.mpr ⟨?_, h.history⟩
      intro hmem
      obtain ⟨name, hname, hsame⟩ := List.mem_map.mp hmem
      obtain ⟨user, huser, rfl⟩ := h.there name hname
      exact hfree user huser hsame
  · rw [hmade]
    exact ⟨hnone' ▸ List.nodup_nil, fun name hname => hnone' ▸ hnone ▸ h.there name hname,
      h.history⟩
  · rw [hmade]
    exact ⟨hsame ▸ h.distinct, fun name hname => hsame ▸ h.there name hname, h.history⟩
  · rw [hmade]
    refine ⟨distinct_insertUser h.distinct hinsert, ?_, h.history⟩
    intro name hname
    obtain ⟨user, huser, hsame⟩ := h.there name hname
    rw [(insertUser_eq_some hinsert).1]
    exact ⟨user, List.mem_append_left _ huser, hsame⟩

theorem named_exec {s : State} {history : List String} {as : List Action}
    (hrun : exec (recorded step made) ({}, []) as = some (s, history)) : Named s history := by
  have hinit : Named {} [] :=
    ⟨List.nodup_nil, fun _ h => absurd h List.not_mem_nil, List.nodup_nil⟩
  refine exec_invariant (fun t : State × List String => Named t.1 t.2) ?_ hinit hrun
  intro t a t' h hstep
  obtain ⟨hstep, hhistory⟩ := recorded_eq_some.mp hstep
  rw [hhistory]
  exact named_step h hstep

/-- INTERNAL: nobody can make another account. -/
def Closed (s : State) : Prop := s.users ≠ [] ∧ Settled s

theorem closed_step {s s' : State} {a : Action} (h : Closed s) (hstep : step s a = some s') :
    Closed s' ∧ made s a = [] := by
  obtain ⟨hne, hsettled⟩ := h
  obtain ⟨i, username, hat, _⟩ | ⟨hnone, _⟩ | ⟨hmade, husers, hpc⟩ := step_cases hstep
  · exact absurd hat (hsettled i username)
  · exact absurd hnone hne
  · refine ⟨⟨?_, fun j name hj => hsettled j name (hpc j name hj)⟩, hmade⟩
    obtain hsame | ⟨_, account, hinsert⟩ := husers
    · rw [hsame]
      exact hne
    · rw [(insertUser_eq_some hinsert).1]
      exact List.append_ne_nil_of_right_ne_nil _ (List.cons_ne_nil _ _)

theorem closed_exec {s t : State} {history h : List String} {as : List Action}
    (hclosed : Closed s)
    (hrun : exec (recorded step made) (s, history) as = some (t, h)) : h = history := by
  have hinv := exec_invariant (fun u : State × List String => Closed u.1 ∧ u.2 = history)
    (fun u a u' hu hstep => by
      obtain ⟨hstep, hhistory⟩ := recorded_eq_some.mp hstep
      obtain ⟨hnext, hmade⟩ := closed_step hu.1 hstep
      exact ⟨hnext, by rw [hhistory, hmade, hu.2]; rfl⟩) ⟨hclosed, rfl⟩ hrun
  exact hinv.2

/-- INTERNAL: one submission at most on its way, or one account made and none on its way. -/
def AtMostOne (s : State) (history : List String) : Prop :=
  history = [] ∧ (∀ i j u v, s.tasks i = .inserting u → s.tasks j = .inserting v → i = j) ∨
    history.length = 1 ∧ Closed s

theorem atMostOne_step {s s' : State} {history : List String} {a : Action}
    (h : AtMostOne s history) (ha : Alone s a) (hstep : step s a = some s') :
    AtMostOne s' (made s a ++ history) := by
  obtain ⟨hnone, hone⟩ | ⟨hlength, hclosed⟩ := h
  · subst hnone
    rw [List.append_nil]
    obtain ⟨i, username, hat, hinsert, hmade, hpc⟩ | ⟨_, _, hmade, i, halone, hpc⟩ |
      ⟨hmade, _, hpc⟩ := step_cases hstep
    · rw [hmade]
      refine .inr ⟨rfl, ?_, ?_⟩
      · rw [(insertUser_eq_some hinsert).1]
        exact List.append_ne_nil_of_right_ne_nil _ (List.cons_ne_nil _ _)
      · intro j name hj
        obtain ⟨hji, hwas⟩ := hpc j name hj
        exact hji (hone j i name username hwas hat)
    · rw [hmade]
      have hsettled : Settled s := halone ▸ ha
      have hat : ∀ j name, s'.tasks j = .inserting name → j = i := by
        intro j name hj
        obtain hji | hwas := hpc j name hj
        · exact hji
        · exact absurd hwas (hsettled j name)
      exact .inl ⟨rfl, fun j k u v hj hk => (hat j u hj).trans (hat k v hk).symm⟩
    · rw [hmade]
      exact .inl ⟨rfl, fun j k u v hj hk => hone j k u v (hpc j u hj) (hpc k v hk)⟩
  · obtain ⟨hnext, hmade⟩ := closed_step hclosed hstep
    rw [hmade]
    exact .inr ⟨hlength, hnext⟩

/-- **First accounts**: in every run of submissions of any number of clients, the accounts that
the setup page makes have different names; once there is an account and no submission is between
its count and its insert, none is made in any run that follows; and where every submission
counts while none is between the two, one account is made at most. -/
theorem first_account {s : State} {history : List String} {as : List Action}
    (hrun : exec (recorded step made) ({}, []) as = some (s, history)) :
    (history.map noCase).Nodup ∧
      (s.users ≠ [] → Settled s → ∀ bs t h,
        exec (recorded step made) (s, history) bs = some (t, h) → h = history) ∧
      (Meets (recorded step made) (fun u a => Alone u.1 a) ({}, []) as → history.length ≤ 1) := by
  refine ⟨(named_exec hrun).history, ?_, ?_⟩
  · exact fun hne hsettled bs t h hafter => closed_exec ⟨hne, hsettled⟩ hafter
  · intro halone
    have hinit : AtMostOne {} [] := .inl ⟨rfl, fun _ _ _ _ h => nomatch h⟩
    have hone := exec_invariant_of_meets (fun u : State × List String => AtMostOne u.1 u.2)
      (fun u a u' hu ha hstep => by
        obtain ⟨hstep, hhistory⟩ := recorded_eq_some.mp hstep
        rw [hhistory]
        exact atMostOne_step hu ha hstep) hinit hrun halone
    obtain ⟨hnone, _⟩ | ⟨hlength, _⟩ := hone
    · exact (congrArg List.length hnone).trans_le (Nat.zero_le 1)
    · exact hlength.le

/-- INTERNAL: two submissions that both counted before either inserted. -/
def twoSubmissions : List Action :=
  let form (name : String) : SetupForm := ⟨name, "aaaaabbbbbcccccddddd", none⟩
  [.submit 0 (form "ada") 20 true, .submit 1 (form "bob") 20 true, .insert 0, .insert 1]

/-- Both become admins. -/
theorem first_account_of_two : ∃ s,
    exec (recorded step made) ({}, []) twoSubmissions = some (s, ["bob", "ada"]) ∧
      (["bob", "ada"].map noCase).Nodup := by
  have hmade : (exec (recorded step made) ({}, []) twoSubmissions).map Prod.snd =
      some ["bob", "ada"] := by decide +kernel
  obtain ⟨⟨s, history⟩, hrun, rfl⟩ := Option.map_eq_some_iff.mp hmade
  exact ⟨s, hrun, (first_account hrun).1⟩

end Mycelium.Analysis.FirstAccount
