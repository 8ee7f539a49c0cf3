import Mycelium.Lib.StepSystem
import Mycelium.Model.IngestWorker

/-!
# Submitted jobs keep their text and slots do not outlive their jobs

A submit makes its job claimable before it stages the text and points the slot at the job
last of all. A run that claims the job in between finds no text and fails the job
(`submitted_job_lost`); a run that frees the slot before the submit has pointed it leaves
an entry for a settled job, and the user is locked out.

In the runs in which no take and no free comes that early (`InTime`), the text of every
submitted job is there when its run takes it, since the claim lets only one run through,
and a slot entry is owed to a submit still at work, to a job that is not settled, or to a
run that is about to free it (`submitted_jobs_kept`).
-/

set_option autoImplicit false

namespace Mycelium.Analysis.IngestSlots

open Mycelium.Model.IngestWorker StepSystem

/-! ## What a call is doing -/

/-- The job and the user that a run has read. -/
def worksOn : Pc → Option (ℕ × ℕ)
  | .claim jobId user _ | .take jobId user _ | .ingest jobId user _ _ | .settle jobId user _ _ _
  | .free jobId user _ => some (jobId, user)
  | _ => none

/-- The job a run has claimed. -/
def claimedJob : Pc → Option ℕ
  | .take jobId _ _ | .ingest jobId _ _ _ | .settle jobId _ _ _ _ | .free jobId _ _ => some jobId
  | _ => none

/-- The job a submit has created and not yet returned, with its user. -/
def filedJob : Pc → Option (ℕ × ℕ)
  | .stage u _ jobId | .point u _ jobId => some (jobId, u.requestedBy)
  | _ => none

def isStaging (jobId : ℕ) : Pc → Prop
  | .stage _ _ j => j = jobId
  | _ => False

def isPointing (jobId : ℕ) : Pc → Prop
  | .point _ _ j => j = jobId
  | _ => False

def isTaking (jobId : ℕ) : Pc → Prop
  | .take j _ _ => j = jobId
  | _ => False

/-- The run is about to fail the job for its lost text. -/
def losesText (jobId : ℕ) : Pc → Prop
  | .settle j _ .failed detail _ => j = jobId ∧ detail = lostText
  | _ => False

@[simp] def isFreeing (jobId user : ℕ) : Pc → Prop
  | .free j u _ => j = jobId ∧ u = user
  | _ => False

/-- The submit has reserved the slot of this user and not yet settled what becomes of it. -/
@[simp] def holdsSlot (user : ℕ) : Pc → Prop
  | .createBook u | .createJob u _ | .stage u _ _ | .point u _ _ => u.requestedBy = user
  | .release v _ => v = user
  | _ => False

/-! ## The condition -/

/-- A run takes a text only when the submit of its job has staged it, and frees a slot only
when that submit has pointed it; no call is dropped that has a slot to see to. -/
def InTime (s : State) : Action → Prop
  | .start _ _ => True
  | .step i _ =>
    match s.tasks i with
    | .take jobId _ _ => ∀ k, ¬ isStaging jobId (s.tasks k)
    | .free jobId _ _ => ∀ k user, filedJob (s.tasks k) ≠ some (jobId, user)
    | _ => True
  | .drop i =>
    (∀ user, ¬ holdsSlot user (s.tasks i)) ∧ ∀ jobId user, ¬ isFreeing jobId user (s.tasks i)

/-! ## The property -/

/-- The job failed because its text was not there. -/
def Lost (s : State) (jobId : ℕ) : Prop :=
  ∃ row, s.jobs.get? jobId = some row ∧ row.status = .failed ∧ row.detail = lostText

/-- There is such a job and it is neither done nor failed. -/
def Unsettled (s : State) (jobId : ℕ) : Prop :=
  ∃ row, s.jobs.get? jobId = some row ∧ row.status ≠ .done ∧ row.status ≠ .failed

/-! ## The invariant -/

/-- The job has not failed for its text and no run is about to fail it. -/
def NotLost (s : State) (jobId : ℕ) : Prop := ¬ Lost s jobId ∧ ∀ k, ¬ losesText jobId (s.tasks k)

/-- The submit of the job has staged its text, or has returned. -/
def Submitted (s : State) (jobId : ℕ) : Prop :=
  (∃ k, isPointing jobId (s.tasks k)) ∨ ∃ job ∈ s.accepted, job.jobId = jobId

/-- The text is there as long as a run may still take it. -/
def TextReady (s : State) (jobId : ℕ) : Prop :=
  (∀ row, s.jobs.get? jobId = some row → row.status = .pending →
    (s.staged.get? jobId).isSome = true) ∧
  ∀ k, isTaking jobId (s.tasks k) → (s.staged.get? jobId).isSome = true

/-- The slot entry is owed to the job: it is not settled, or a run is about to free the slot. -/
def Held (s : State) (user jobId : ℕ) : Prop :=
  ∃ row, s.jobs.get? jobId = some row ∧ row.requestedByUserId = user ∧
    ((row.status ≠ .done ∧ row.status ≠ .failed) ∨ ∃ k, isFreeing jobId user (s.tasks k))

structure Inv (s : State) : Prop where
  reads : ∀ k jobId user, worksOn (s.tasks k) = some (jobId, user) →
    ∃ row, s.jobs.get? jobId = some row ∧ row.requestedByUserId = user
  claimed : ∀ k jobId, claimedJob (s.tasks k) = some jobId →
    ∃ row, s.jobs.get? jobId = some row ∧ row.status ≠ .pending
  alone : ∀ k l jobId, claimedJob (s.tasks k) = some jobId →
    claimedJob (s.tasks l) = some jobId → k = l
  settles : ∀ k jobId user status detail sweep,
    s.tasks k = .settle jobId user status detail sweep → status ≠ .pending
  unstaged : ∀ k jobId, isStaging jobId (s.tasks k) → NotLost s jobId
  submitted : ∀ jobId, Submitted s jobId →
    (s.jobs.get? jobId).isSome = true ∧ NotLost s jobId ∧ TextReady s jobId
  filed : ∀ k jobId user, filedJob (s.tasks k) = some (jobId, user) → Held s user jobId
  slots : ∀ user jobId, s.userSlots.get? user = some jobId →
    (∃ k, holdsSlot user (s.tasks k)) ∨ Held s user jobId

theorem inv_boot (books : List BookRow) (jobs : Dict ℕ IngestJob) : Inv (State.boot books jobs) where
  reads := by
    intro k jobId user h
    cases h
  claimed := by
    intro k jobId h
    cases h
  alone := by
    intro k l jobId h
    cases h
  settles := by
    intro k jobId user status detail sweep h
    cases h
  unstaged := by
    intro k jobId h
    cases h
  submitted := by
    rintro jobId (⟨k, h⟩ | ⟨job, h, -⟩)
    · cases h
    · cases h
  filed := by
    intro k jobId user h
    cases h
  slots := by
    intro user jobId h
    simp [State.boot] at h

/-! ## Tasks that move -/

section Move

variable {s : State} {i : ℕ} {pc : Pc}

/-- INTERNAL: a task is the one that moved or stands where it stood. -/
theorem update_cases (s : State) (i : ℕ) (pc : Pc) (k : ℕ) :
    (k = i ∧ Function.update s.tasks i pc k = pc) ∨
      (k ≠ i ∧ Function.update s.tasks i pc k = s.tasks k) := by
  by_cases h : k = i
  · left
    subst h
    exact ⟨rfl, Function.update_self k pc s.tasks⟩
  · right
    exact ⟨h, Function.update_of_ne h pc s.tasks⟩

/-- INTERNAL: a task that had the property still shows it after a move that keeps it. -/
theorem exists_update {p : Pc → Prop} (h : ∃ k, p (s.tasks k)) (hi : p (s.tasks i) → p pc) :
    ∃ k, p (Function.update s.tasks i pc k) := by
  obtain ⟨k, hk⟩ := h
  refine ⟨k, ?_⟩
  by_cases hki : k = i
  · subst hki
    simpa using hi hk
  · simpa [hki] using hk

/-- INTERNAL: a property the moved task does not have was there before. -/
theorem exists_of_update {p : Pc → Prop} (h : ∃ k, p (Function.update s.tasks i pc k))
    (hi : ¬ p pc) : ∃ k, p (s.tasks k) := by
  obtain ⟨k, hk⟩ := h
  refine ⟨k, ?_⟩
  by_cases hki : k = i
  · subst hki
    simp only [Function.update_self] at hk
    exact absurd hk hi
  · simpa [hki] using hk

end Move

/-- What a step of one call has to show for the invariant: the rows stay and keep what the
calls know of them, and the point the call moves to is entitled to what it says. -/
structure Moves (s s' : State) (i : ℕ) (pc : Pc) : Prop where
  tasks : s'.tasks = Function.update s.tasks i pc
  rows : ∀ jobId row, s.jobs.get? jobId = some row → ∃ row', s'.jobs.get? jobId = some row' ∧
    row'.requestedByUserId = row.requestedByUserId ∧
    (row.status ≠ .pending → row'.status ≠ .pending)
  works : ∀ jobId user, worksOn pc = some (jobId, user) →
    ∃ row, s'.jobs.get? jobId = some row ∧ row.requestedByUserId = user
  claims : ∀ jobId, claimedJob pc = some jobId →
    (∃ row, s'.jobs.get? jobId = some row ∧ row.status ≠ .pending) ∧
      ∀ k, k ≠ i → claimedJob (s.tasks k) ≠ some jobId
  settles : ∀ jobId user status detail sweep,
    pc = .settle jobId user status detail sweep → status ≠ .pending
  kept : ∀ jobId, (∃ k, isStaging jobId (s.tasks k)) → NotLost s jobId → NotLost s' jobId
  stages : ∀ jobId, isStaging jobId pc → NotLost s' jobId
  submitted : ∀ jobId, Submitted s' jobId →
    (s'.jobs.get? jobId).isSome = true ∧ NotLost s' jobId ∧ TextReady s' jobId
  held : ∀ user jobId, Held s user jobId → Held s' user jobId ∨ isFreeing jobId user (s.tasks i)
  frees : ∀ jobId user, isFreeing jobId user (s.tasks i) →
    ∀ k u, filedJob (s.tasks k) ≠ some (jobId, u)
  files : ∀ jobId user, filedJob pc = some (jobId, user) → Held s' user jobId
  slots : ∀ user jobId, s'.userSlots.get? user = some jobId →
    (∃ k, holdsSlot user (s'.tasks k)) ∨ Held s' user jobId

theorem inv_move {s s' : State} {i : ℕ} {pc : Pc} (h : Inv s) (m : Moves s s' i pc) : Inv s' where
  reads := by
    intro k jobId user hw
    rw [m.tasks] at hw
    rcases update_cases s i pc k with ⟨-, hk⟩ | ⟨-, hk⟩
    · rw [hk] at hw
      exact m.works jobId user hw
    · rw [hk] at hw
      obtain ⟨row, hrow, huser⟩ := h.reads k jobId user hw
      obtain ⟨row', hrow', huser', -⟩ := m.rows jobId row hrow
      exact ⟨row', hrow', huser'.trans huser⟩
  claimed := by
    intro k jobId hc
    rw [m.tasks] at hc
    rcases update_cases s i pc k with ⟨-, hk⟩ | ⟨-, hk⟩
    · rw [hk] at hc
      exact (m.claims jobId hc).1
    · rw [hk] at hc
      obtain ⟨row, hrow, hst⟩ := h.claimed k jobId hc
      obtain ⟨row', hrow', -, hst'⟩ := m.rows jobId row hrow
      exact ⟨row', hrow', hst' hst⟩
  alone := by
    intro k l jobId hck hcl
    rw [m.tasks] at hck hcl
    rcases update_cases s i pc k with ⟨hki, hk⟩ | ⟨hki, hk⟩
    · rcases update_cases s i pc l with ⟨hli, hl⟩ | ⟨hli, hl⟩
      · rw [hki, hli]
      · rw [hk] at hck
        rw [hl] at hcl
        exact absurd hcl ((m.claims jobId hck).2 l hli)
    · rcases update_cases s i pc l with ⟨hli, hl⟩ | ⟨hli, hl⟩
      · rw [hk] at hck
        rw [hl] at hcl
        exact absurd hck ((m.claims jobId hcl).2 k hki)
      · rw [hk] at hck
        rw [hl] at hcl
        exact h.alone k l jobId hck hcl
  settles := by
    intro k
    rw [m.tasks]
    rcases update_cases s i pc k with ⟨-, hk⟩ | ⟨-, hk⟩
    · rw [hk]
      exact m.settles
    · rw [hk]
      exact h.settles k
  unstaged := by
    intro k jobId hst
    rw [m.tasks] at hst
    rcases update_cases s i pc k with ⟨-, hk⟩ | ⟨-, hk⟩
    · rw [hk] at hst
      exact m.stages jobId hst
    · rw [hk] at hst
      exact m.kept jobId ⟨k, hst⟩ (h.unstaged k jobId hst)
  submitted := m.submitted
  filed := by
    intro k jobId user hf
    rw [m.tasks] at hf
    rcases update_cases s i pc k with ⟨-, hk⟩ | ⟨-, hk⟩
    · rw [hk] at hf
      exact m.files jobId user hf
    · rw [hk] at hf
      rcases m.held user jobId (h.filed k jobId user hf) with hheld | hfree
      · exact hheld
      · exact absurd hf (m.frees jobId user hfree k user)
  slots := m.slots

/-! ## Facts a step keeps -/

section Keep

variable {s s' : State} {i : ℕ} {pc : Pc}

/-- INTERNAL: a job is not lost by a call that is not about to lose it. -/
theorem notLost_move (htasks : s'.tasks = Function.update s.tasks i pc) {jobId : ℕ}
    (hrow : Lost s' jobId → Lost s jobId) (hpc : ¬ losesText jobId pc) (h : NotLost s jobId) :
    NotLost s' jobId := by
  refine ⟨fun hl => h.1 (hrow hl), ?_⟩
  intro k
  rw [htasks]
  rcases update_cases s i pc k with ⟨-, hk⟩ | ⟨-, hk⟩
  · rw [hk]
    exact hpc
  · rw [hk]
    exact h.2 k

/-- INTERNAL: with the same rows, an entry stays owed unless its free is done. -/
theorem held_move (hjobs : s'.jobs = s.jobs) (htasks : s'.tasks = Function.update s.tasks i pc)
    {user jobId : ℕ} (h : Held s user jobId) :
    Held s' user jobId ∨ isFreeing jobId user (s.tasks i) := by
  obtain ⟨row, hrow, huser, howed⟩ := h
  rw [← hjobs] at hrow
  rcases howed with hopen | ⟨k, hk⟩
  · exact .inl ⟨row, hrow, huser, .inl hopen⟩
  · by_cases hki : k = i
    · subst hki
      exact .inr hk
    · left
      refine ⟨row, hrow, huser, .inr ⟨k, ?_⟩⟩
      rw [htasks, Function.update_of_ne hki]
      exact hk

/-- INTERNAL: what is submitted after a step that points nothing and hands out nothing was
so before. -/
theorem submitted_move (htasks : s'.tasks = Function.update s.tasks i pc)
    (hacc : s'.accepted = s.accepted) {jobId : ℕ} (hpc : ¬ isPointing jobId pc)
    (h : Submitted s' jobId) : Submitted s jobId := by
  rcases h with hk | hjob
  · left
    rw [htasks] at hk
    exact exists_of_update hk hpc
  · rw [hacc] at hjob
    exact .inr hjob

/-- INTERNAL: a slot entry from before a step that gives up no slot is still owed. -/
theorem slots_move (h : Inv s) (htasks : s'.tasks = Function.update s.tasks i pc)
    (hheld : ∀ user jobId, Held s user jobId → Held s' user jobId ∨ isFreeing jobId user (s.tasks i))
    {user jobId : ℕ} (hslot : s.userSlots.get? user = some jobId)
    (hholds : holdsSlot user (s.tasks i) → holdsSlot user pc)
    (hfrees : ¬ isFreeing jobId user (s.tasks i)) :
    (∃ k, holdsSlot user (s'.tasks k)) ∨ Held s' user jobId := by
  rcases h.slots user jobId hslot with hk | howed
  · left
    rw [htasks]
    exact exists_update hk hholds
  · rcases hheld user jobId howed with hstill | hfree
    · exact .inr hstill
    · exact absurd hfree hfrees

end Keep

/-! ## Steps that leave rows and texts as they are -/

/-- INTERNAL: a call that files no job neither stages nor points. -/
theorem not_staging_of_files {pc : Pc} (h : filedJob pc = none) (jobId : ℕ) :
    ¬ isStaging jobId pc ∧ ¬ isPointing jobId pc := by
  cases pc with
  | stage u b j => cases h
  | point u b j => cases h
  | _ => exact ⟨id, id⟩

/-- A step of one call that touches neither rows, nor texts, nor handles. -/
structure Still (s s' : State) (i : ℕ) (pc : Pc) : Prop where
  jobs : s'.jobs = s.jobs
  staged : s'.staged = s.staged
  accepted : s'.accepted = s.accepted
  tasks : s'.tasks = Function.update s.tasks i pc
  works : ∀ jobId user, worksOn pc = some (jobId, user) →
    ∃ row, s.jobs.get? jobId = some row ∧ row.requestedByUserId = user
  claims : ∀ jobId, claimedJob pc = some jobId → claimedJob (s.tasks i) = some jobId
  settles : ∀ jobId user status detail sweep,
    pc = .settle jobId user status detail sweep → status ≠ .pending
  files : filedJob pc = none
  takes : ∀ jobId, ¬ isTaking jobId pc
  loses : ∀ jobId, losesText jobId pc →
    (∀ k, ¬ isStaging jobId (s.tasks k)) ∧ ¬ Submitted s jobId
  frees : ∀ jobId user, isFreeing jobId user (s.tasks i) →
    ∀ k u, filedJob (s.tasks k) ≠ some (jobId, u)
  slots : ∀ user jobId, s'.userSlots.get? user = some jobId →
    (∃ k, holdsSlot user (s'.tasks k)) ∨ Held s' user jobId

theorem inv_still {s s' : State} {i : ℕ} {pc : Pc} (h : Inv s) (m : Still s s' i pc) : Inv s' := by
  have hlost : ∀ jobId, Lost s' jobId → Lost s jobId := by
    intro jobId hl
    unfold Lost at hl
    rwa [m.jobs] at hl
  apply inv_move h
  exact
    { tasks := m.tasks
      rows := by
        intro jobId row hrow
        refine ⟨row, ?_, rfl, id⟩
        rw [m.jobs]
        exact hrow
      works := by
        rw [m.jobs]
        exact m.works
      claims := by
        intro jobId hc
        have hold := m.claims jobId hc
        rw [m.jobs]
        refine ⟨h.claimed i jobId hold, ?_⟩
        intro k hki hk
        exact hki (h.alone k i jobId hk hold)
      settles := m.settles
      kept := by
        rintro jobId ⟨k, hk⟩ hnot
        apply notLost_move m.tasks (hlost jobId) _ hnot
        intro hl
        exact (m.loses jobId hl).1 k hk
      stages := fun jobId hs => absurd hs (not_staging_of_files m.files jobId).1
      submitted := by
        intro jobId hsub
        have hold := submitted_move m.tasks m.accepted (not_staging_of_files m.files jobId).2 hsub
        obtain ⟨hrow, hnot, hpend, htake⟩ := h.submitted jobId hold
        refine ⟨?_, ?_, ?_, ?_⟩
        · rw [m.jobs]
          exact hrow
        · apply notLost_move m.tasks (hlost jobId) _ hnot
          intro hl
          exact (m.loses jobId hl).2 hold
        · rw [m.jobs, m.staged]
          exact hpend
        · intro k hk
          rw [m.staged]
          rw [m.tasks] at hk
          obtain ⟨l, hl⟩ := exists_of_update ⟨k, hk⟩ (m.takes jobId)
          exact htake l hl
      held := fun user jobId hheld => held_move m.jobs m.tasks hheld
      frees := m.frees
      files := by
        intro jobId user hf
        rw [m.files] at hf
        cases hf
      slots := m.slots }

/-- A point at which a call has claimed no job and files none. -/
def Plain (pc : Pc) : Prop := claimedJob pc = none ∧ filedJob pc = none

/-- INTERNAL: a plain point takes, settles and loses nothing. -/
theorem plain_facts {pc : Pc} (h : Plain pc) :
    (∀ jobId, ¬ isTaking jobId pc) ∧ (∀ jobId, ¬ losesText jobId pc) ∧
      ∀ jobId user status detail sweep, pc ≠ .settle jobId user status detail sweep := by
  cases pc with
  | take j u sw => cases h.1
  | settle j u st d sw => cases h.1
  | _ =>
    refine ⟨fun _ => id, fun _ => id, ?_⟩
    intro jobId user status detail sweep heq
    cases heq

/-- INTERNAL: a step to a plain point that changes slots and books only. -/
theorem inv_plain {s s' : State} {i : ℕ} {pc : Pc} (h : Inv s) (hplain : Plain pc)
    (htables : s'.jobs = s.jobs ∧ s'.staged = s.staged ∧ s'.accepted = s.accepted)
    (htasks : s'.tasks = Function.update s.tasks i pc)
    (hworks : ∀ jobId user, worksOn pc = some (jobId, user) →
      ∃ row, s.jobs.get? jobId = some row ∧ row.requestedByUserId = user)
    (hfrees : ∀ jobId user, isFreeing jobId user (s.tasks i) →
      ∀ k u, filedJob (s.tasks k) ≠ some (jobId, u))
    (hslots : ∀ user jobId, s'.userSlots.get? user = some jobId →
      (∃ k, holdsSlot user (s'.tasks k)) ∨ Held s' user jobId) : Inv s' := by
  obtain ⟨htakes, hloses, hsettles⟩ := plain_facts hplain
  apply inv_still h
  exact
    { jobs := htables.1
      staged := htables.2.1
      accepted := htables.2.2
      tasks := htasks
      works := hworks
      claims := by
        intro jobId hc
        rw [hplain.1] at hc
        cases hc
      settles := fun jobId user status detail sweep heq =>
        absurd heq (hsettles jobId user status detail sweep)
      files := hplain.2
      takes := htakes
      loses := fun jobId hl => absurd hl (hloses jobId)
      frees := hfrees
      slots := hslots }

/-- INTERNAL: a step to a plain point that gives up no slot and leaves the slots alone. -/
theorem inv_goto {s s' : State} {i : ℕ} {pc : Pc} (h : Inv s) (hplain : Plain pc)
    (htables : s'.jobs = s.jobs ∧ s'.staged = s.staged ∧ s'.accepted = s.accepted)
    (htasks : s'.tasks = Function.update s.tasks i pc) (hslots : s'.userSlots = s.userSlots)
    (hworks : ∀ jobId user, worksOn pc = some (jobId, user) →
      ∃ row, s.jobs.get? jobId = some row ∧ row.requestedByUserId = user)
    (hholds : ∀ user, holdsSlot user (s.tasks i) → holdsSlot user pc)
    (hfrees : ∀ jobId user, ¬ isFreeing jobId user (s.tasks i)) : Inv s' := by
  apply inv_plain h hplain htables htasks hworks
  · intro jobId user hf
    exact absurd hf (hfrees jobId user)
  · intro user jobId hslot
    rw [hslots] at hslot
    exact slots_move h htasks (fun _ _ => held_move htables.1 htasks) hslot (hholds user)
      (hfrees jobId user)

/-! ## The steps of a submit -/

section Submit

variable {s s' : State} {i : ℕ}

/-- INTERNAL: the slot is reserved. -/
theorem inv_reserve (h : Inv s) {u : Upload} (hpc : s.tasks i = .reserve u)
    (htables : s'.jobs = s.jobs ∧ s'.staged = s.staged ∧ s'.accepted = s.accepted)
    (hslots : s'.userSlots = s.userSlots.insert u.requestedBy nil)
    (htasks : s'.tasks = Function.update s.tasks i (.createBook u)) : Inv s' := by
  have hfrees : ∀ jobId user, ¬ isFreeing jobId user (s.tasks i) := by
    intro jobId user hf
    simp [hpc, isFreeing] at hf
  refine inv_plain h ⟨rfl, rfl⟩ htables htasks ?_ ?_ ?_
  · intro jobId user hw
    cases hw
  · intro jobId user hf
    exact absurd hf (hfrees jobId user)
  · intro user jobId hslot
    rw [hslots, Dict.get?_insert] at hslot
    by_cases huser : user = u.requestedBy
    · left
      refine ⟨i, ?_⟩
      rw [htasks, Function.update_self]
      exact huser.symm
    · rw [if_neg huser] at hslot
      apply slots_move h htasks (fun _ _ => held_move htables.1 htasks) hslot _
        (hfrees jobId user)
      intro hholds
      simp [hpc, holdsSlot] at hholds

/-- INTERNAL: an error exit takes the user's slot back. -/
theorem inv_release (h : Inv s) {user : ℕ} {e : WorkerError} (hpc : s.tasks i = .release user e)
    (htables : s'.jobs = s.jobs ∧ s'.staged = s.staged ∧ s'.accepted = s.accepted)
    (hslots : s'.userSlots = s.userSlots.erase user)
    (htasks : s'.tasks = Function.update s.tasks i (.finished (.error e))) : Inv s' := by
  have hfrees : ∀ jobId user, ¬ isFreeing jobId user (s.tasks i) := by
    intro jobId user hf
    simp [hpc, isFreeing] at hf
  refine inv_plain h ⟨rfl, rfl⟩ htables htasks ?_ ?_ ?_
  · intro jobId user hw
    cases hw
  · intro jobId user hf
    exact absurd hf (hfrees jobId user)
  · intro user' jobId hslot
    rw [hslots, Dict.get?_erase] at hslot
    by_cases huser : user' = user
    · simp [huser] at hslot
    · rw [if_neg huser] at hslot
      apply slots_move h htasks (fun _ _ => held_move htables.1 htasks) hslot _
        (hfrees jobId user')
      intro hholds
      simp only [hpc, holdsSlot] at hholds
      exact absurd hholds.symm huser

/-- INTERNAL: nobody is about to fail a job that is not there. -/
theorem not_losesText_of_fresh (h : Inv s) {jobId : ℕ} (hfresh : s.jobs.get? jobId = none)
    (k : ℕ) : ¬ losesText jobId (s.tasks k) := by
  intro hl
  have hnone : claimedJob (s.tasks k) ≠ some jobId := by
    intro hc
    obtain ⟨row, hrow, -⟩ := h.claimed k jobId hc
    rw [hfresh] at hrow
    cases hrow
  cases hpk : s.tasks k with
  | settle j user status detail sweep =>
    rw [hpk] at hl hnone
    cases status with
    | failed =>
      have hj : j = jobId := hl.1
      exact hnone (by simp [claimedJob, hj])
    | _ => exact hl
  | _ =>
    rw [hpk] at hl
    exact hl

/-- INTERNAL: the job row is new, so no call knows of it yet. -/
theorem inv_createJob (h : Inv s) {u : Upload} {bookId jobId : ℕ} {row : IngestJob}
    (hpc : s.tasks i = .createJob u bookId) (hfresh : s.jobs.get? jobId = none)
    (huser : row.requestedByUserId = u.requestedBy) (hpending : row.status = .pending)
    (hjobs : s'.jobs = s.jobs.insert jobId row)
    (htables : s'.staged = s.staged ∧ s'.accepted = s.accepted ∧ s'.userSlots = s.userSlots)
    (htasks : s'.tasks = Function.update s.tasks i (.stage u bookId jobId)) : Inv s' := by
  obtain ⟨hstaged, hacc, hslots⟩ := htables
  have hnotFree : ∀ j user, ¬ isFreeing j user (s.tasks i) := by
    intro j user hf
    simp [hpc, isFreeing] at hf
  -- the rows that were there are there still
  have hkeep : ∀ j row', s.jobs.get? j = some row' → s'.jobs.get? j = some row' := by
    intro j row' hrow
    have hne : j ≠ jobId := by
      rintro rfl
      rw [hfresh] at hrow
      cases hrow
    rw [hjobs, Dict.get?_insert, if_neg hne, hrow]
  have hself : s'.jobs.get? jobId = some row := by
    rw [hjobs, Dict.get?_insert, if_pos rfl]
  have hlost : ∀ j, Lost s' j → Lost s j := by
    rintro j ⟨row', hrow, hst, hdet⟩
    rw [hjobs, Dict.get?_insert] at hrow
    split at hrow
    · cases hrow
      rw [hpending] at hst
      cases hst
    · exact ⟨row', hrow, hst, hdet⟩
  have hheld : ∀ user j, Held s user j → Held s' user j := by
    rintro user j ⟨row', hrow, huser', howed⟩
    refine ⟨row', hkeep j row' hrow, huser', ?_⟩
    rcases howed with hopen | hfree
    · exact .inl hopen
    · right
      rw [htasks]
      exact exists_update hfree fun hi => absurd hi (hnotFree j user)
  apply inv_move h
  exact
    { tasks := htasks
      rows := fun j row' hrow => ⟨row', hkeep j row' hrow, rfl, id⟩
      works := by
        intro j user hw
        cases hw
      claims := by
        intro j hc
        cases hc
      settles := by
        intro j user status detail sweep heq
        cases heq
      kept := fun j _ hnot => notLost_move htasks (hlost j) id hnot
      stages := by
        intro j hj
        have hj' : jobId = j := hj
        subst hj'
        apply notLost_move htasks (hlost jobId) id
        refine ⟨?_, not_losesText_of_fresh h hfresh⟩
        rintro ⟨row', hrow, -⟩
        rw [hfresh] at hrow
        cases hrow
      submitted := by
        intro j hsub
        have hold : Submitted s j := submitted_move htasks hacc id hsub
        obtain ⟨hrow, hnot, hpend, htake⟩ := h.submitted j hold
        obtain ⟨row', hrow'⟩ := Option.isSome_iff_exists.mp hrow
        refine ⟨?_, notLost_move htasks (hlost j) id hnot, ?_, ?_⟩
        · rw [hkeep j row' hrow']
          rfl
        · intro row'' hrow''
          rw [hkeep j row' hrow', Option.some.injEq] at hrow''
          rw [← hrow'', hstaged]
          exact hpend row' hrow'
        · intro k hk
          rw [htasks] at hk
          rw [hstaged]
          obtain ⟨l, hl⟩ := exists_of_update ⟨k, hk⟩ id
          exact htake l hl
      held := fun user j hh => .inl (hheld user j hh)
      frees := fun j user hf => absurd hf (hnotFree j user)
      files := by
        intro j user hf
        simp only [filedJob, Option.some.injEq, Prod.mk.injEq] at hf
        obtain ⟨rfl, rfl⟩ := hf
        refine ⟨row, hself, huser, .inl ?_⟩
        rw [hpending]
        exact ⟨by decide, by decide⟩
      slots := by
        intro user j hslot
        rw [hslots] at hslot
        apply slots_move h htasks (fun user j hh => .inl (hheld user j hh)) hslot _
          (hnotFree j user)
        intro hholds
        simpa [hpc, holdsSlot] using hholds }

/-- INTERNAL: the text is staged under the job's id. -/
theorem inv_stage (h : Inv s) {u : Upload} {bookId jobId : ℕ} {book : StagedBook}
    (hpc : s.tasks i = .stage u bookId jobId) (hstaged : s'.staged = s.staged.insert jobId book)
    (htables : s'.jobs = s.jobs ∧ s'.accepted = s.accepted ∧ s'.userSlots = s.userSlots)
    (htasks : s'.tasks = Function.update s.tasks i (.point u bookId jobId)) : Inv s' := by
  obtain ⟨hjobs, hacc, hslots⟩ := htables
  have hnotFree : ∀ j user, ¬ isFreeing j user (s.tasks i) := by
    intro j user hf
    simp [hpc, isFreeing] at hf
  have hlost : ∀ j, Lost s' j → Lost s j := by
    intro j hl
    unfold Lost at hl
    rwa [hjobs] at hl
  have hmore : ∀ j, (s.staged.get? j).isSome = true → (s'.staged.get? j).isSome = true := by
    intro j hj
    rw [hstaged, Dict.get?_insert]
    split
    · rfl
    · exact hj
  apply inv_move h
  exact
    { tasks := htasks
      rows := by
        intro j row hrow
        refine ⟨row, ?_, rfl, id⟩
        rw [hjobs]
        exact hrow
      works := by
        intro j user hw
        cases hw
      claims := by
        intro j hc
        cases hc
      settles := by
        intro j user status detail sweep heq
        cases heq
      kept := fun j _ hnot => notLost_move htasks (hlost j) id hnot
      stages := fun j hj => absurd hj id
      submitted := by
        intro j hsub
        by_cases hj : j = jobId
        · subst hj
          have hhere : (s'.staged.get? j).isSome = true := by
            rw [hstaged, Dict.get?_insert, if_pos rfl]
            rfl
          have hfiled : filedJob (s.tasks i) = some (j, u.requestedBy) := by
            simp [hpc, filedJob]
          obtain ⟨row, hrow, -⟩ := h.filed i j u.requestedBy hfiled
          have hnot := h.unstaged i j (by simp [hpc, isStaging])
          refine ⟨?_, notLost_move htasks (hlost j) id hnot, fun _ _ _ => hhere, fun _ _ => hhere⟩
          rw [hjobs, hrow]
          rfl
        · have hne : ¬ isPointing j (.point u bookId jobId) := fun heq => hj heq.symm
          have hold : Submitted s j := submitted_move htasks hacc hne hsub
          obtain ⟨hrow, hnot, hpend, htake⟩ := h.submitted j hold
          refine ⟨?_, notLost_move htasks (hlost j) id hnot, ?_, ?_⟩
          · rw [hjobs]
            exact hrow
          · intro row hrow' hst
            rw [hjobs] at hrow'
            exact hmore j (hpend row hrow' hst)
          · intro k hk
            rw [htasks] at hk
            obtain ⟨l, hl⟩ := exists_of_update ⟨k, hk⟩ id
            exact hmore j (htake l hl)
      held := fun user j hh => held_move hjobs htasks hh
      frees := fun j user hf => absurd hf (hnotFree j user)
      files := by
        intro j user hf
        have hfiled : filedJob (s.tasks i) = some (j, user) := by
          rw [hpc]
          exact hf
        rcases held_move hjobs htasks (h.filed i j user hfiled) with hh | hfree
        · exact hh
        · exact absurd hfree (hnotFree j user)
      slots := by
        intro user j hslot
        rw [hslots] at hslot
        apply slots_move h htasks (fun _ _ => held_move hjobs htasks) hslot _ (hnotFree j user)
        intro hholds
        simpa [hpc, holdsSlot] using hholds }

/-- INTERNAL: the slot is pointed at the job and the handle goes out. -/
theorem inv_point (h : Inv s) {u : Upload} {bookId jobId : ℕ} {job : SubmittedJob}
    (hpc : s.tasks i = .point u bookId jobId) (hjob : job.jobId = jobId)
    (hslots : s'.userSlots = s.userSlots.insert u.requestedBy jobId)
    (hacc : s'.accepted = job :: s.accepted)
    (htables : s'.jobs = s.jobs ∧ s'.staged = s.staged)
    (htasks : s'.tasks = Function.update s.tasks i (.finished (.ok (.submitted job)))) :
    Inv s' := by
  obtain ⟨hjobs, hstaged⟩ := htables
  have hnotFree : ∀ j user, ¬ isFreeing j user (s.tasks i) := by
    intro j user hf
    simp [hpc, isFreeing] at hf
  have hlost : ∀ j, Lost s' j → Lost s j := by
    intro j hl
    unfold Lost at hl
    rwa [hjobs] at hl
  have hfiled : filedJob (s.tasks i) = some (jobId, u.requestedBy) := by
    simp [hpc, filedJob]
  apply inv_move h
  exact
    { tasks := htasks
      rows := by
        intro j row hrow
        refine ⟨row, ?_, rfl, id⟩
        rw [hjobs]
        exact hrow
      works := by
        intro j user hw
        cases hw
      claims := by
        intro j hc
        cases hc
      settles := by
        intro j user status detail sweep heq
        cases heq
      kept := fun j _ hnot => notLost_move htasks (hlost j) id hnot
      stages := fun j hj => absurd hj id
      submitted := by
        intro j hsub
        have hold : Submitted s j := by
          rcases hsub with hk | ⟨job', hmem, hj⟩
          · rw [htasks] at hk
            exact .inl (exists_of_update hk id)
          · rw [hacc] at hmem
            rcases List.mem_cons.mp hmem with rfl | hmem
            · left
              refine ⟨i, ?_⟩
              rw [hpc]
              exact hjob.symm.trans hj
            · exact .inr ⟨job', hmem, hj⟩
        obtain ⟨hrow, hnot, hpend, htake⟩ := h.submitted j hold
        refine ⟨?_, notLost_move htasks (hlost j) id hnot, ?_, ?_⟩
        · rw [hjobs]
          exact hrow
        · rw [hjobs, hstaged]
          exact hpend
        · intro k hk
          rw [htasks] at hk
          rw [hstaged]
          obtain ⟨l, hl⟩ := exists_of_update ⟨k, hk⟩ id
          exact htake l hl
      held := fun user j hh => held_move hjobs htasks hh
      frees := fun j user hf => absurd hf (hnotFree j user)
      files := by
        intro j user hf
        cases hf
      slots := by
        intro user j hslot
        rw [hslots, Dict.get?_insert] at hslot
        by_cases huser : user = u.requestedBy
        · rw [if_pos huser, Option.some.injEq] at hslot
          subst hslot
          subst huser
          rcases held_move hjobs htasks (h.filed i jobId u.requestedBy hfiled) with hh | hfree
          · exact .inr hh
          · exact absurd hfree (hnotFree jobId u.requestedBy)
        · rw [if_neg huser] at hslot
          apply slots_move h htasks (fun _ _ => held_move hjobs htasks) hslot _ (hnotFree j user)
          intro hholds
          simp only [hpc, holdsSlot] at hholds
          exact absurd hholds.symm huser }

end Submit

/-! ## The steps of a run -/

section Run

variable {s s' : State} {i : ℕ}

/-- INTERNAL: a row of the job is replaced by another one of its user: what the calls know
of the rows stays true, and so does what is owed to them. -/
theorem rows_replaced {jobId : ℕ} {row row' : IngestJob} (hrow : s.jobs.get? jobId = some row)
    (hjobs : s'.jobs = s.jobs.insert jobId row')
    (huser : row'.requestedByUserId = row.requestedByUserId) (hpending : row'.status ≠ .pending) :
    ∀ j old, s.jobs.get? j = some old → ∃ new, s'.jobs.get? j = some new ∧
      new.requestedByUserId = old.requestedByUserId ∧
      (old.status ≠ .pending → new.status ≠ .pending) := by
  intro j old hold
  rw [hjobs, Dict.get?_insert]
  by_cases hj : j = jobId
  · subst hj
    rw [hrow, Option.some.injEq] at hold
    subst hold
    exact ⟨row', by simp, huser, fun _ => hpending⟩
  · exact ⟨old, by simp [hj, hold], rfl, id⟩

/-- INTERNAL: a job is lost by such a replacement only if the new row says so. -/
theorem lost_replaced {jobId : ℕ} {row' : IngestJob}
    (hjobs : s'.jobs = s.jobs.insert jobId row') {j : ℕ}
    (hnew : j = jobId → ¬ (row'.status = .failed ∧ row'.detail = lostText)) (h : Lost s' j) :
    Lost s j := by
  obtain ⟨row, hrow, hst, hdet⟩ := h
  rw [hjobs, Dict.get?_insert] at hrow
  split at hrow
  · rename_i hj
    cases hrow
    exact absurd ⟨hst, hdet⟩ (hnew hj)
  · exact ⟨row, hrow, hst, hdet⟩

/-- INTERNAL: a job that was there is there still. -/
theorem isSome_replaced {jobId : ℕ} {row' : IngestJob}
    (hjobs : s'.jobs = s.jobs.insert jobId row') {j : ℕ} (h : (s.jobs.get? j).isSome = true) :
    (s'.jobs.get? j).isSome = true := by
  rw [hjobs, Dict.get?_insert]
  split
  · rfl
  · exact h

/-- INTERNAL: the claim lets one run through. -/
theorem inv_claim (h : Inv s) {jobId user : ℕ} {sweep : Sweep} {row : IngestJob}
    (hpc : s.tasks i = .claim jobId user sweep) (hrow : s.jobs.get? jobId = some row)
    (hpending : row.status = .pending)
    (hjobs : s'.jobs = s.jobs.insert jobId { row with status := .running, detail := "" })
    (htables : s'.staged = s.staged ∧ s'.accepted = s.accepted ∧ s'.userSlots = s.userSlots)
    (htasks : s'.tasks = Function.update s.tasks i (.take jobId user sweep)) : Inv s' := by
  obtain ⟨hstaged, hacc, hslots⟩ := htables
  have hnotFree : ∀ j u, ¬ isFreeing j u (s.tasks i) := by
    intro j u hf
    simp [hpc, isFreeing] at hf
  have hrows := rows_replaced hrow hjobs rfl (by simp)
  have hlost : ∀ j, Lost s' j → Lost s j := by
    intro j
    apply lost_replaced hjobs
    simp
  have hself : s'.jobs.get? jobId = some { row with status := .running, detail := "" } := by
    rw [hjobs, Dict.get?_insert, if_pos rfl]
  have hheld : ∀ u j, Held s u j → Held s' u j := by
    rintro u j ⟨old, hold, hu, howed⟩
    by_cases hj : j = jobId
    · subst hj
      rw [hrow, Option.some.injEq] at hold
      subst hold
      exact ⟨_, hself, hu, .inl ⟨by simp, by simp⟩⟩
    · refine ⟨old, ?_, hu, ?_⟩
      · rw [hjobs, Dict.get?_insert, if_neg hj, hold]
      · rcases howed with hopen | hfree
        · exact .inl hopen
        · right
          rw [htasks]
          exact exists_update hfree fun hi => absurd hi (hnotFree j u)
  apply inv_move h
  exact
    { tasks := htasks
      rows := hrows
      works := by
        intro j u hw
        simp only [worksOn, Option.some.injEq, Prod.mk.injEq] at hw
        obtain ⟨rfl, rfl⟩ := hw
        obtain ⟨old, hold, hu⟩ := h.reads i jobId user (by simp [hpc, worksOn])
        rw [hrow, Option.some.injEq] at hold
        subst hold
        exact ⟨_, hself, hu⟩
      claims := by
        intro j hc
        simp only [claimedJob, Option.some.injEq] at hc
        subst hc
        refine ⟨⟨_, hself, by simp⟩, ?_⟩
        -- no run has claimed a pending job
        intro k _ hk
        obtain ⟨old, hold, hst⟩ := h.claimed k jobId hk
        rw [hrow, Option.some.injEq] at hold
        subst hold
        exact hst hpending
      settles := by
        intro j u status detail sw heq
        cases heq
      kept := fun j _ hnot => notLost_move htasks (hlost j) id hnot
      stages := fun j hj => absurd hj id
      submitted := by
        intro j hsub
        have hold : Submitted s j := submitted_move htasks hacc id hsub
        obtain ⟨hsome, hnot, hpend, htake⟩ := h.submitted j hold
        refine ⟨isSome_replaced hjobs hsome, notLost_move htasks (hlost j) id hnot, ?_, ?_⟩
        · intro row' hrow' hst
          rw [hstaged]
          rw [hjobs, Dict.get?_insert] at hrow'
          split at hrow'
          · cases hrow'
            cases hst
          · exact hpend row' hrow' hst
        · intro k hk
          rw [htasks] at hk
          rw [hstaged]
          rcases update_cases s i (.take jobId user sweep) k with ⟨-, hk'⟩ | ⟨-, hk'⟩
          · rw [hk'] at hk
            have hj : jobId = j := hk
            exact hpend row (by rw [← hj]; exact hrow) hpending
          · rw [hk'] at hk
            exact htake k hk
      held := fun u j hh => .inl (hheld u j hh)
      frees := fun j u hf => absurd hf (hnotFree j u)
      files := by
        intro j u hf
        cases hf
      slots := by
        intro u j hslot
        rw [hslots] at hslot
        apply slots_move h htasks (fun u j hh => .inl (hheld u j hh)) hslot _ (hnotFree j u)
        intro hholds
        simp [hpc, holdsSlot] at hholds }

/-- INTERNAL: the run that claimed the job takes its text. -/
theorem inv_take (h : Inv s) {jobId user : ℕ} {sweep : Sweep} {book : StagedBook}
    (hpc : s.tasks i = .take jobId user sweep) (hstaged : s'.staged = s.staged.erase jobId)
    (htables : s'.jobs = s.jobs ∧ s'.accepted = s.accepted ∧ s'.userSlots = s.userSlots)
    (htasks : s'.tasks = Function.update s.tasks i (.ingest jobId user book sweep)) : Inv s' := by
  obtain ⟨hjobs, hacc, hslots⟩ := htables
  have hnotFree : ∀ j u, ¬ isFreeing j u (s.tasks i) := by
    intro j u hf
    simp [hpc, isFreeing] at hf
  have hmine : claimedJob (s.tasks i) = some jobId := by simp [hpc, claimedJob]
  have hlost : ∀ j, Lost s' j → Lost s j := by
    intro j hl
    unfold Lost at hl
    rwa [hjobs] at hl
  apply inv_move h
  exact
    { tasks := htasks
      rows := by
        intro j row hrow
        refine ⟨row, ?_, rfl, id⟩
        rw [hjobs]
        exact hrow
      works := by
        intro j u hw
        rw [hjobs]
        exact h.reads i j u (by simpa [hpc, worksOn] using hw)
      claims := by
        intro j hc
        have hj : claimedJob (s.tasks i) = some j := by simpa [hpc, claimedJob] using hc
        rw [hjobs]
        refine ⟨h.claimed i j hj, ?_⟩
        intro k hki hk
        exact hki (h.alone k i j hk hj)
      settles := by
        intro j u status detail sw heq
        cases heq
      kept := fun j _ hnot => notLost_move htasks (hlost j) id hnot
      stages := fun j hj => absurd hj id
      submitted := by
        intro j hsub
        have hold : Submitted s j := submitted_move htasks hacc id hsub
        obtain ⟨hsome, hnot, hpend, htake⟩ := h.submitted j hold
        rw [hjobs]
        refine ⟨hsome, notLost_move htasks (hlost j) id hnot, ?_, ?_⟩
        · intro row hrow hst
          rw [hjobs] at hrow
          -- the job of the text that goes is claimed already
          have hj : j ≠ jobId := by
            rintro rfl
            obtain ⟨row', hrow', hst'⟩ := h.claimed i j hmine
            rw [hrow, Option.some.injEq] at hrow'
            subst hrow'
            exact hst' hst
          rw [hstaged, Dict.get?_erase, if_neg hj]
          exact hpend row hrow hst
        · intro k hk
          rw [htasks] at hk
          rcases update_cases s i (.ingest jobId user book sweep) k with ⟨-, hk'⟩ | ⟨hki, hk'⟩
          · rw [hk'] at hk
            exact absurd hk id
          · rw [hk'] at hk
            have hclaim : claimedJob (s.tasks k) = some j := by
              cases hpk : s.tasks k with
              | take j' u' sw' =>
                rw [hpk] at hk
                have hjj : j' = j := hk
                simp [claimedJob, hjj]
              | _ =>
                rw [hpk] at hk
                exact absurd hk id
            have hj : j ≠ jobId := by
              rintro rfl
              exact hki (h.alone k i j hclaim hmine)
            rw [hstaged, Dict.get?_erase, if_neg hj]
            exact htake k hk
      held := fun u j hh => held_move hjobs htasks hh
      frees := fun j u hf => absurd hf (hnotFree j u)
      files := by
        intro j u hf
        cases hf
      slots := by
        intro u j hslot
        rw [hslots] at hslot
        apply slots_move h htasks (fun _ _ => held_move hjobs htasks) hslot _ (hnotFree j u)
        intro hholds
        simp [hpc, holdsSlot] at hholds }

/-- INTERNAL: the row is settled and the slot is about to be freed. -/
theorem inv_settle (h : Inv s) {jobId user : ℕ} {status : IngestStatus} {detail : String}
    {sweep : Sweep} (hpc : s.tasks i = .settle jobId user status detail sweep)
    (hjobs : s'.jobs = updateIngestJob s.jobs jobId status detail)
    (htables : s'.staged = s.staged ∧ s'.accepted = s.accepted ∧ s'.userSlots = s.userSlots)
    (htasks : s'.tasks = Function.update s.tasks i (.free jobId user sweep)) : Inv s' := by
  obtain ⟨hstaged, hacc, hslots⟩ := htables
  obtain ⟨row, hrow, huser⟩ := h.reads i jobId user (by simp [hpc, worksOn])
  have hmine : claimedJob (s.tasks i) = some jobId := by simp [hpc, claimedJob]
  have hst : status ≠ .pending := h.settles i jobId user status detail sweep hpc
  have hjobs' : s'.jobs = s.jobs.insert jobId { row with status, detail } := by
    rw [hjobs, updateIngestJob, hrow]
  have hself : s'.jobs.get? jobId = some { row with status, detail } := by
    rw [hjobs', Dict.get?_insert, if_pos rfl]
  have hnotFree : ∀ j u, ¬ isFreeing j u (s.tasks i) := by
    intro j u hf
    simp [hpc, isFreeing] at hf
  have hlost : ∀ j, NotLost s j → Lost s' j → Lost s j := by
    intro j hnot
    apply lost_replaced hjobs'
    rintro rfl ⟨hfailed, hdetail⟩
    apply hnot.2 i
    rw [hpc]
    have hf : status = .failed := hfailed
    subst hf
    exact ⟨rfl, hdetail⟩
  have hheld : ∀ u j, Held s u j → Held s' u j := by
    rintro u j ⟨old, hold, hu, howed⟩
    by_cases hj : j = jobId
    · subst hj
      rw [hrow, Option.some.injEq] at hold
      subst hold
      refine ⟨_, hself, hu, .inr ⟨i, ?_⟩⟩
      rw [htasks, Function.update_self]
      exact ⟨rfl, huser.symm.trans hu⟩
    · refine ⟨old, ?_, hu, ?_⟩
      · rw [hjobs', Dict.get?_insert, if_neg hj, hold]
      · rcases howed with hopen | hfree
        · exact .inl hopen
        · right
          rw [htasks]
          exact exists_update hfree fun hi => absurd hi (hnotFree j u)
  apply inv_move h
  exact
    { tasks := htasks
      rows := rows_replaced hrow hjobs' rfl hst
      works := by
        intro j u hw
        simp only [worksOn, Option.some.injEq, Prod.mk.injEq] at hw
        obtain ⟨rfl, rfl⟩ := hw
        exact ⟨_, hself, huser⟩
      claims := by
        intro j hc
        simp only [claimedJob, Option.some.injEq] at hc
        subst hc
        refine ⟨⟨_, hself, hst⟩, ?_⟩
        intro k hki hk
        exact hki (h.alone k i jobId hk hmine)
      settles := by
        intro j u status detail sw heq
        cases heq
      kept := fun j _ hnot => notLost_move htasks (hlost j hnot) id hnot
      stages := fun j hj => absurd hj id
      submitted := by
        intro j hsub
        have hold : Submitted s j := submitted_move htasks hacc id hsub
        obtain ⟨hsome, hnot, hpend, htake⟩ := h.submitted j hold
        refine ⟨isSome_replaced hjobs' hsome, notLost_move htasks (hlost j hnot) id hnot, ?_, ?_⟩
        · intro row' hrow' hst'
          rw [hstaged]
          rw [hjobs', Dict.get?_insert] at hrow'
          split at hrow'
          · cases hrow'
            exact absurd hst' hst
          · exact hpend row' hrow' hst'
        · intro k hk
          rw [htasks] at hk
          rw [hstaged]
          obtain ⟨l, hl⟩ := exists_of_update ⟨k, hk⟩ id
          exact htake l hl
      held := fun u j hh => .inl (hheld u j hh)
      frees := fun j u hf => absurd hf (hnotFree j u)
      files := by
        intro j u hf
        cases hf
      slots := by
        intro u j hslot
        rw [hslots] at hslot
        apply slots_move h htasks (fun u j hh => .inl (hheld u j hh)) hslot _ (hnotFree j u)
        intro hholds
        simp [hpc, holdsSlot] at hholds }

/-- INTERNAL: a sweep goes on at a plain point that has read no job. -/
theorem plain_next (sweep : Sweep) : Plain sweep.next ∧ worksOn sweep.next = none := by
  cases sweep with
  | single => exact ⟨⟨rfl, rfl⟩, rfl⟩
  | pass rest n => exact ⟨⟨rfl, rfl⟩, rfl⟩

/-- INTERNAL: the slot is freed, of a job whose submit is through. -/
theorem inv_free (h : Inv s) {jobId user : ℕ} {sweep : Sweep}
    (hpc : s.tasks i = .free jobId user sweep)
    (hdone : ∀ k u, filedJob (s.tasks k) ≠ some (jobId, u))
    (htables : s'.jobs = s.jobs ∧ s'.staged = s.staged ∧ s'.accepted = s.accepted)
    (hslots : s'.userSlots = s.userSlots.erase user)
    (htasks : s'.tasks = Function.update s.tasks i sweep.next) : Inv s' := by
  obtain ⟨hplain, hworks⟩ := plain_next sweep
  refine inv_plain h hplain htables htasks ?_ ?_ ?_
  · intro j u hw
    rw [hworks] at hw
    cases hw
  · intro j u hf
    rw [hpc] at hf
    have hj : jobId = j := hf.1
    rw [← hj]
    exact hdone
  · intro u j hslot
    rw [hslots, Dict.get?_erase] at hslot
    by_cases hu : u = user
    · simp [hu] at hslot
    · rw [if_neg hu] at hslot
      apply slots_move h htasks (fun _ _ => held_move htables.1 htasks) hslot
      · intro hholds
        simp [hpc, holdsSlot] at hholds
      · intro hf
        rw [hpc] at hf
        exact hu hf.2.symm

end Run

/-! ## One step -/

/-- INTERNAL: a call moves on and leaves everything else as it is. -/
theorem inv_same {s : State} (h : Inv s) {i : ℕ} {pc : Pc} (hplain : Plain pc)
    (hworks : ∀ jobId user, worksOn pc = some (jobId, user) →
      ∃ row, s.jobs.get? jobId = some row ∧ row.requestedByUserId = user)
    (hholds : ∀ user, holdsSlot user (s.tasks i) → holdsSlot user pc)
    (hfrees : ∀ jobId user, ¬ isFreeing jobId user (s.tasks i)) :
    Inv { s with tasks := Function.update s.tasks i pc } :=
  inv_goto h hplain ⟨rfl, rfl, rfl⟩ rfl rfl hworks hholds hfrees

/-- INTERNAL: an ingest error does not read like a lost text. -/
theorem ingestErrorText_ne_lostText (message : String) : ingestErrorText message ≠ lostText := by
  intro h
  have hfirst := congrArg (fun t : String => t.toList.head?) h
  simp [ingestErrorText, lostText] at hfirst

/-- INTERNAL: a run that has claimed its job goes on to settle it. -/
theorem inv_settling {s s' : State} (h : Inv s) {i jobId user : ℕ} {status : IngestStatus}
    {detail : String} {sweep : Sweep}
    (hmine : claimedJob (s.tasks i) = some jobId ∧ worksOn (s.tasks i) = some (jobId, user))
    (hstatus : status ≠ .pending)
    (hloses : status = .failed → detail = lostText →
      (∀ k, ¬ isStaging jobId (s.tasks k)) ∧ ¬ Submitted s jobId)
    (hnoSlot : (∀ u, ¬ holdsSlot u (s.tasks i)) ∧ ∀ j u, ¬ isFreeing j u (s.tasks i))
    (htables : s'.jobs = s.jobs ∧ s'.staged = s.staged ∧ s'.accepted = s.accepted)
    (hslots : s'.userSlots = s.userSlots)
    (htasks : s'.tasks = Function.update s.tasks i (.settle jobId user status detail sweep)) :
    Inv s' := by
  apply inv_still h
  exact
    { jobs := htables.1
      staged := htables.2.1
      accepted := htables.2.2
      tasks := htasks
      works := by
        intro j u hw
        apply h.reads i j u
        rw [hmine.2]
        exact hw
      claims := by
        intro j hc
        rw [hmine.1]
        exact hc
      settles := by
        intro j u st det sw heq
        cases heq
        exact hstatus
      files := rfl
      takes := fun _ => id
      loses := by
        intro j hl
        cases status with
        | failed =>
          have hj : jobId = j := hl.1
          rw [← hj]
          exact hloses rfl hl.2
        | _ => exact absurd hl id
      frees := fun j u hf => absurd hf (hnoSlot.2 j u)
      slots := by
        intro u j hslot
        rw [hslots] at hslot
        exact slots_move h htasks (fun _ _ => held_move htables.1 htasks) hslot
          (fun hholds => absurd hholds (hnoSlot.1 u)) (hnoSlot.2 j u) }

/-- The points of a submit. -/
def ofSubmit : Pc → Bool
  | .reserve _ | .createBook _ | .createJob _ _ | .stage _ _ _ | .point _ _ _ | .release _ _ => true
  | _ => false

/-- INTERNAL: the steps of a submit, point by point. -/
theorem inv_submitStep {s : State} (h : Inv s) (i : ℕ) (ch : Choice) {pc : Pc}
    (hpc : s.tasks i = pc) (hsub : ofSubmit pc = true) :
    Inv { (submitStep s ch pc).1 with
      tasks := Function.update s.tasks i (submitStep s ch pc).2 } := by
  have hnoFree (hf : ∀ j u, ¬ isFreeing j u pc) (j u : ℕ) : ¬ isFreeing j u (s.tasks i) := by
    rw [hpc]
    exact hf j u
  cases pc with
  | reserve u =>
    simp only [submitStep]
    split
    · refine inv_same h ⟨rfl, rfl⟩ ?_ ?_ (hnoFree fun _ _ => id)
      · intro jobId user hw
        cases hw
      · simp [hpc, holdsSlot]
    · exact inv_reserve h hpc ⟨rfl, rfl, rfl⟩ rfl rfl
  | createBook u =>
    have hholds : ∀ user, holdsSlot user (s.tasks i) → u.requestedBy = user := by
      intro user hholds
      simpa [hpc, holdsSlot] using hholds
    have hrelease (e : WorkerError) :
        Inv { s with tasks := Function.update s.tasks i (.release u.requestedBy e) } := by
      refine inv_same h ⟨rfl, rfl⟩ ?_ hholds (hnoFree fun _ _ => id)
      intro jobId user hw
      cases hw
    simp only [submitStep]
    split
    · exact hrelease _
    · split
      · exact hrelease _
      · split
        · exact hrelease _
        · have hplain : Plain (.createJob u ch.id) := ⟨rfl, rfl⟩
          refine inv_goto h hplain ⟨rfl, rfl, rfl⟩ rfl rfl ?_ hholds (hnoFree fun _ _ => id)
          intro jobId user hw
          cases hw
  | createJob u bookId =>
    simp only [submitStep]
    split
    · refine inv_same h ⟨rfl, rfl⟩ ?_ ?_ (hnoFree fun _ _ => id)
      · intro jobId user hw
        cases hw
      · intro user hholds
        simpa [hpc, holdsSlot] using hholds
    · rename_i hok
      push Not at hok
      have hfresh : s.jobs.get? ch.id = none := by simpa using hok.2
      exact inv_createJob h hpc hfresh rfl rfl rfl ⟨rfl, rfl, rfl⟩ rfl
  | stage u bookId jobId => exact inv_stage h hpc rfl ⟨rfl, rfl, rfl⟩ rfl
  | point u bookId jobId => exact inv_point h hpc rfl rfl rfl ⟨rfl, rfl⟩ rfl
  | release user e => exact inv_release h hpc ⟨rfl, rfl, rfl⟩ rfl rfl
  | _ => cases hsub

/-- INTERNAL: the steps of a run, point by point. -/
theorem inv_runStep {s : State} (h : Inv s) (i : ℕ) (ch : Choice) {pc : Pc}
    (hpc : s.tasks i = pc) (hrun : ofSubmit pc = false) (hok : InTime s (.step i ch)) :
    Inv { (runStep s ch pc).1 with tasks := Function.update s.tasks i (runStep s ch pc).2 } := by
  simp only [InTime, hpc] at hok
  -- most points hold no slot and owe none
  have hgoto (hno : (∀ u, ¬ holdsSlot u pc) ∧ ∀ j u, ¬ isFreeing j u pc) {pc' : Pc}
      (hplain : Plain pc') (hworks : ∀ jobId user, worksOn pc' = some (jobId, user) →
        ∃ row, s.jobs.get? jobId = some row ∧ row.requestedByUserId = user) :
      Inv { s with tasks := Function.update s.tasks i pc' } := by
    rw [← hpc] at hno
    exact inv_same h hplain hworks (fun u hh => absurd hh (hno.1 u)) hno.2
  have hquiet {pc' : Pc} (hplain : Plain pc') (hnone : worksOn pc' = none)
      (hno : (∀ u, ¬ holdsSlot u pc) ∧ ∀ j u, ¬ isFreeing j u pc) :
      Inv { s with tasks := Function.update s.tasks i pc' } := by
    apply hgoto hno hplain
    intro jobId user hw
    rw [hnone] at hw
    cases hw
  cases pc with
  | list =>
    simp only [runStep]
    split
    · exact hquiet ⟨rfl, rfl⟩ rfl ⟨fun _ => id, fun _ _ => id⟩
    · split
      · exact hquiet ⟨rfl, rfl⟩ rfl ⟨fun _ => id, fun _ _ => id⟩
      · exact hquiet ⟨rfl, rfl⟩ rfl ⟨fun _ => id, fun _ _ => id⟩
  | sweep sweep =>
    cases sweep with
    | single => exact hquiet ⟨rfl, rfl⟩ rfl ⟨fun _ => id, fun _ _ => id⟩
    | pass rest n =>
      cases rest with
      | nil => exact hquiet ⟨rfl, rfl⟩ rfl ⟨fun _ => id, fun _ _ => id⟩
      | cons jobId rest => exact hquiet ⟨rfl, rfl⟩ rfl ⟨fun _ => id, fun _ _ => id⟩
  | readJob jobId sweep =>
    obtain ⟨hplain, hnone⟩ := plain_next sweep
    simp only [runStep]
    split
    · exact hquiet ⟨rfl, rfl⟩ rfl ⟨fun _ => id, fun _ _ => id⟩
    · split
      · exact hquiet hplain hnone ⟨fun _ => id, fun _ _ => id⟩
      · rename_i row hrow
        apply hgoto ⟨fun _ => id, fun _ _ => id⟩ ⟨rfl, rfl⟩
        intro j user hw
        simp only [worksOn, Option.some.injEq, Prod.mk.injEq] at hw
        obtain ⟨rfl, rfl⟩ := hw
        exact ⟨row, hrow, rfl⟩
  | claim jobId user sweep =>
    obtain ⟨hplain, hnone⟩ := plain_next sweep
    simp only [runStep]
    split
    · exact hquiet ⟨rfl, rfl⟩ rfl ⟨fun _ => id, fun _ _ => id⟩
    · split
      · exact hquiet hplain hnone ⟨fun _ => id, fun _ _ => id⟩
      · rename_i row hrow
        split
        · rename_i hpending
          exact inv_claim h hpc hrow hpending rfl ⟨rfl, rfl, rfl⟩ rfl
        · exact hquiet hplain hnone ⟨fun _ => id, fun _ _ => id⟩
  | take jobId user sweep =>
    simp only [runStep]
    split
    · rename_i hnone
      refine inv_settling h ?_ ?_ ?_ ?_ ⟨rfl, rfl, rfl⟩ rfl rfl
      · rw [hpc]
        exact ⟨rfl, rfl⟩
      · decide
      · intro _ _
        refine ⟨hok, ?_⟩
        -- the text of a submitted job is there
        intro hsub
        have hthere := (h.submitted jobId hsub).2.2.2 i (by rw [hpc]; rfl)
        rw [hnone] at hthere
        cases hthere
      · rw [hpc]
        exact ⟨fun _ => id, fun _ _ => id⟩
    · exact inv_take h hpc rfl ⟨rfl, rfl, rfl⟩ rfl
  | ingest jobId user book sweep =>
    have hmine : claimedJob (s.tasks i) = some jobId ∧
        worksOn (s.tasks i) = some (jobId, user) := by
      rw [hpc]
      exact ⟨rfl, rfl⟩
    have hno : (∀ u, ¬ holdsSlot u (s.tasks i)) ∧ ∀ j u, ¬ isFreeing j u (s.tasks i) := by
      rw [hpc]
      exact ⟨fun _ => id, fun _ _ => id⟩
    simp only [runStep]
    split
    · refine inv_settling h hmine (by decide) ?_ hno ⟨rfl, rfl, rfl⟩ rfl rfl
      intro hfailed
      cases hfailed
    · rename_i message _
      refine inv_settling h hmine (by decide) ?_ hno ⟨rfl, rfl, rfl⟩ rfl rfl
      intro _ hdetail
      exact absurd hdetail (ingestErrorText_ne_lostText message)
  | settle jobId user status detail sweep =>
    simp only [runStep]
    split
    · exact hquiet ⟨rfl, rfl⟩ rfl ⟨fun _ => id, fun _ _ => id⟩
    · exact inv_settle h hpc rfl ⟨rfl, rfl, rfl⟩ rfl
  | free jobId user sweep => exact inv_free h hpc hok ⟨rfl, rfl, rfl⟩ rfl rfl
  | idle => exact hquiet ⟨rfl, rfl⟩ rfl ⟨fun _ => id, fun _ _ => id⟩
  | finished r => exact hquiet ⟨rfl, rfl⟩ rfl ⟨fun _ => id, fun _ _ => id⟩
  | _ => cases hrun

/-- INTERNAL: a step belongs to the submit or to the run. -/
theorem taskStep_eq (s : State) (ch : Choice) (pc : Pc) :
    taskStep s ch pc = if ofSubmit pc then submitStep s ch pc else runStep s ch pc := by
  cases pc <;> rfl

/-- INTERNAL: a call that starts has nothing yet. -/
theorem plain_begin (call : Call) : Plain call.begin ∧ worksOn call.begin = none := by
  cases call with
  | submit u => exact ⟨⟨rfl, rfl⟩, rfl⟩
  | runJob jobId => exact ⟨⟨rfl, rfl⟩, rfl⟩
  | runPending => exact ⟨⟨rfl, rfl⟩, rfl⟩

theorem inv_step (s : State) (a : Action) (s' : State) (h : Inv s) (hok : InTime s a)
    (hs : step s a = some s') : Inv s' := by
  cases a with
  | start i call =>
    obtain ⟨hplain, hnone⟩ := plain_begin call
    have hgo (hno : (∀ u, ¬ holdsSlot u (s.tasks i)) ∧ ∀ j u, ¬ isFreeing j u (s.tasks i)) :
        Inv { s with tasks := Function.update s.tasks i call.begin } := by
      refine inv_same h hplain ?_ (fun u hh => absurd hh (hno.1 u)) hno.2
      intro jobId user hw
      rw [hnone] at hw
      cases hw
    simp only [step] at hs
    split at hs
    · rename_i hidle
      cases hs
      apply hgo
      rw [hidle]
      exact ⟨fun _ => id, fun _ _ => id⟩
    · rename_i r hfin
      cases hs
      apply hgo
      rw [hfin]
      exact ⟨fun _ => id, fun _ _ => id⟩
    · cases hs
  | step i ch =>
    simp only [step, taskStep_eq] at hs
    cases hsub : ofSubmit (s.tasks i) with
    | true =>
      rw [hsub, if_pos rfl] at hs
      cases hs
      exact inv_submitStep h i ch rfl hsub
    | false =>
      rw [hsub, if_neg (by decide)] at hs
      cases hs
      exact inv_runStep h i ch rfl hsub hok
  | drop i =>
    cases hs
    refine inv_same h ⟨rfl, rfl⟩ ?_ (fun u hh => absurd hh (hok.1 u)) hok.2
    intro jobId user hw
    cases hw

/-! ## Whole runs -/

/-- **Submitted jobs keep their text and slots do not outlive their jobs.** In every run in
which no run takes a text before the submit of its job has staged it, none frees a slot
before that submit has pointed it, and no call is dropped that has a slot to see to: no
job whose submit returned has failed for a lost text, and when no call is in progress
every slot entry belongs to a job that is neither done nor failed. -/
theorem submitted_jobs_kept (books : List BookRow) (jobs : Dict ℕ IngestJob) {as : List Action}
    {t : State} (hrun : exec step (State.boot books jobs) as = some t)
    (hmeets : Meets step InTime (State.boot books jobs) as) :
    (∀ job ∈ t.accepted, ¬ Lost t job.jobId) ∧
      (t.Quiet → ∀ user jobId, t.userSlots.get? user = some jobId → Unsettled t jobId) := by
  have h : Inv t := exec_invariant_of_meets Inv inv_step (inv_boot books jobs) hrun hmeets
  refine ⟨?_, ?_⟩
  · intro job hjob
    exact (h.submitted job.jobId (.inr ⟨job, hjob, rfl⟩)).2.1.1
  · intro hquiet user jobId hslot
    have hidle : ∀ k, ¬ holdsSlot user (t.tasks k) ∧ ¬ isFreeing jobId user (t.tasks k) := by
      intro k
      rcases hquiet k with hk | ⟨r, hk⟩
      · rw [hk]
        exact ⟨id, id⟩
      · rw [hk]
        exact ⟨id, id⟩
    rcases h.slots user jobId hslot with ⟨k, hk⟩ | ⟨row, hrow, -, hopen | ⟨k, hk⟩⟩
    · exact absurd hk (hidle k).1
    · exact ⟨row, hrow, hopen⟩
    · exact absurd hk (hidle k).2

/-- A book of user 5. -/
def upload : Upload where
  bookshelfId := 1
  requestedBy := 5
  slug := "port-guide"
  title := "Port Guide"
  text := "# Ports\n"

/-- The submit up to the job row, which gets the id 7. -/
def filing : List Action :=
  [.start 0 (.submit upload), .step 0 {}, .step 0 {}, .step 0 { id := 7 }]

/-- The rest of the submit. -/
def handingOver : List Action := [.step 0 {}, .step 0 {}]

/-- A run of job 7 that finds no text, and one that finds it. -/
def runningLost : List Action := .start 1 (.runJob 7) :: List.replicate 5 (.step 1 {})

def running : List Action := .start 1 (.runJob 7) :: List.replicate 6 (.step 1 {})

/-- The call an action is about. -/
def caller : Action → ℕ
  | .start i _ | .step i _ | .drop i => i

/-- INTERNAL: a task that no action names stays where it is. -/
theorem tasks_of_not_named {as : List Action} {s t : State} {k : ℕ}
    (hrun : exec step s as = some t) (hnot : ∀ a ∈ as, caller a ≠ k) :
    t.tasks k = s.tasks k := by
  induction as generalizing s with
  | nil =>
    simp only [exec_nil, Option.some.injEq] at hrun
    rw [hrun]
  | cons a as ih =>
    obtain ⟨s', hs, hrest⟩ := exec_cons_eq_some.mp hrun
    rw [ih hrest fun b hb => hnot b (List.mem_cons_of_mem a hb)]
    have ha := hnot a List.mem_cons_self
    cases a with
    | start i call =>
      have hne : k ≠ i := fun h => ha h.symm
      simp only [step] at hs
      split at hs
      · cases hs
        exact Function.update_of_ne hne _ _
      · cases hs
        exact Function.update_of_ne hne _ _
      · cases hs
    | step i ch =>
      have hne : k ≠ i := fun h => ha h.symm
      cases hs
      exact Function.update_of_ne hne _ _
    | drop i =>
      have hne : k ≠ i := fun h => ha h.symm
      cases hs
      exact Function.update_of_ne hne _ _

/-- The call has returned. -/
def ended : Pc → Bool
  | .finished _ => true
  | _ => false

/-- INTERNAL: the calls 0 and 1 have returned and no other one was made. -/
theorem quiet_of_two {books : List BookRow} {jobs : Dict ℕ IngestJob} {as : List Action}
    {t : State} (hrun : exec step (State.boot books jobs) as = some t)
    (hnames : ∀ a ∈ as, caller a < 2)
    (hended : ended (t.tasks 0) = true ∧ ended (t.tasks 1) = true) : t.Quiet := by
  have hfin : ∀ i, ended (t.tasks i) = true → ∃ r, t.tasks i = .finished r := by
    intro i hi
    cases hpc : t.tasks i with
    | finished r => exact ⟨r, rfl⟩
    | _ =>
      rw [hpc] at hi
      cases hi
  intro i
  match i with
  | 0 => exact .inr (hfin 0 hended.1)
  | 1 => exact .inr (hfin 1 hended.2)
  | i + 2 =>
    left
    apply tasks_of_not_named hrun
    intro a ha
    have hlt := hnames a ha
    omega

/-- **A submitted job can be lost.** A pass that claims the job between the creation of its
row and the staging of its text fails it for a lost text; the submit then returns its handle
and points the slot at the failed job, for good. -/
theorem submitted_job_lost :
    ∃ t, exec step (State.boot [] ∅) (filing ++ runningLost ++ handingOver) = some t ∧
      t.Quiet ∧ (∃ job ∈ t.accepted, Lost t job.jobId) ∧
      ∃ jobId, t.userSlots.get? upload.requestedBy = some jobId ∧ ¬ Unsettled t jobId := by
  obtain ⟨t, hrun, hfacts⟩ := Option.map_eq_some_iff.mp
    (show (exec step (State.boot [] ∅) (filing ++ runningLost ++ handingOver)).map
        (fun t => (t.accepted, t.userSlots.get? 5, (t.jobs.get? 7).map fun r =>
          (r.status, r.detail), ended (t.tasks 0) && ended (t.tasks 1))) =
          some ([⟨7, 1, "port-guide"⟩], some 7, some (.failed, lostText), true) by decide)
  simp only [Prod.mk.injEq, Option.map_eq_some_iff, Bool.and_eq_true] at hfacts
  obtain ⟨hacc, hslot, ⟨row, hrow, hst, hdet⟩, hended⟩ := hfacts
  refine ⟨t, hrun, quiet_of_two hrun (by decide) hended, ⟨⟨7, 1, "port-guide"⟩, ?_, ?_⟩, 7, hslot, ?_⟩
  · rw [hacc]
    exact List.mem_singleton_self _
  · exact ⟨row, hrow, hst, hdet⟩
  · rintro ⟨row', hrow', -, hopen⟩
    rw [hrow, Option.some.injEq] at hrow'
    subst hrow'
    exact hopen hst

/-- The submit runs to its end before the run of its job starts. -/
theorem submitted_jobs_kept_inTime :
    ∃ t, exec step (State.boot [] ∅) (filing ++ handingOver ++ running) = some t ∧
      t.userSlots.get? upload.requestedBy = none ∧ (∃ job, job ∈ t.accepted) ∧
      ∀ job ∈ t.accepted, ¬ Lost t job.jobId := by
  obtain ⟨t, hrun, hfacts⟩ := Option.map_eq_some_iff.mp
    (show (exec step (State.boot [] ∅) (filing ++ handingOver ++ running)).map
        (fun t => (t.accepted, t.userSlots.get? 5)) =
          some ([⟨7, 1, "port-guide"⟩], none) by decide)
  simp only [Prod.mk.injEq] at hfacts
  have hmeets : Meets step InTime (State.boot [] ∅) (filing ++ handingOver ++ running) := by
    refine ⟨trivial, trivial, trivial, trivial, trivial, trivial, trivial, trivial, trivial, ?_,
      trivial, trivial, ?_, trivial⟩
    · intro k
      obtain _ | _ | k := k
      · exact id
      · exact id
      · exact id
    · intro k user
      obtain _ | _ | k := k
      · intro hfiled
        cases hfiled
      · intro hfiled
        cases hfiled
      · intro hfiled
        cases hfiled
  refine ⟨t, hrun, hfacts.2, ⟨⟨7, 1, "port-guide"⟩, ?_⟩, ?_⟩
  · rw [hfacts.1]
    exact List.mem_singleton_self _
  · exact (submitted_jobs_kept [] ∅ hrun hmeets).1

end Mycelium.Analysis.IngestSlots
