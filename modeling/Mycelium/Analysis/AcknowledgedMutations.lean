import Mycelium.Lib.StepSystem
import Mycelium.Model.QueueWorker

/-!
# What happens to an acknowledged mutation

An `enqueue_mutation` call returns its receipt only after the blob is on disk and the
row flipped to pending, but every drain pass starts by reconciling the staging rows it
finds, and a staging row without a blob is declared dead. The two meet in the window
between the insert of the row and the write of its blob: a pass that looks at the row
there marks it dead, the enqueuer's `activate` then matches no row, and the receipt is
returned for a mutation nobody will run (`acknowledged_mutation_lost`).

Outside that window nothing is lost (`acknowledged_mutation_kept`). The invariant is
`Inv`: an active row has its blob, a staging row has it unless its enqueuer stands right
before the write, and the blob of a row leaves the disk only after a run has read it.
Each storage step keeps it on its own (`inv_activate`, `inv_settle`, …), and a step of a
task is one of these followed by a move of its program counter.
-/

set_option autoImplicit false

namespace Mycelium.Analysis.AcknowledgedMutations

open Mycelium.Model.MutationQueue Mycelium.Model.QueueWorker StepSystem

/-! ## The property and the condition -/

/-- Some `enqueue_mutation` call has returned `Ok(id)`. -/
def Acknowledged (s : State) (id : Uuid) : Prop := ∃ e, s.enq e = .returnedOk id

/-- The blob was removed when no run of the item had read it. -/
def DeletedUnread (log : List BlobEvent) (id : Uuid) : Prop :=
  ∃ newer older, log = newer ++ .deleted id :: older ∧ .read id ∉ older

/-- The row is not dead for want of its payload, and the payload was not removed before
a run of the item read it. -/
def NotLost (s : State) (id : Uuid) : Prop :=
  (∀ r, lookup s.table id = some r → ¬ (r.status = .dead ∧ r.detail.isPayloadMissing = true)) ∧
    ¬ DeletedUnread s.blobLog id

/-- The step is not a staging check of a row whose payload is not on disk: no drain looks
for the blob of a staging row before its enqueuer has written it. -/
def looksAfterWrite (s : State) : Action → Bool
  | .enqueue _ _ => true
  | .drain d c =>
    match s.drain d with
    | .staging (item :: _) => !c.keyRecovered || (s.blob item.id).isSome
    | _ => true

/-! ## The invariant -/

/-- The phases in which a drain holds the running row. -/
def Holds : ItemPhase → Prop
  | .claimed | .readPayload | .run _ | .fallbackRead _ | .fallbackRun _ _ | .settle _ => True
  | .dropPayload _ | .dropNote => False

/-- The drain at this point holds the running row `id`. -/
def Owns : DrainPc → Uuid → Prop
  | .item phase item _, id => Holds phase ∧ item.id = id
  | _, _ => False

/-- What is known of a claimed item in each phase. -/
def PhaseOk (s : State) (id : Uuid) : ItemPhase → Prop
  | .claimed | .readPayload => statusOf s.table id = some .running
  | .run _ | .fallbackRead _ | .fallbackRun _ _ =>
    statusOf s.table id = some .running ∧ .read id ∈ s.blobLog
  | .settle (.failed _ _) => statusOf s.table id = some .running
  | .settle (.done _ _) => statusOf s.table id = some .running ∧ .read id ∈ s.blobLog
  | .settle (.dead detail cleanup) =>
    statusOf s.table id = some .running ∧ detail.isPayloadMissing = false ∧
      (cleanup ≠ .none → .read id ∈ s.blobLog)
  | .dropPayload _ => (statusOf s.table id = some .done ∨ statusOf s.table id = some .dead) ∧ .read id ∈ s.blobLog
  | .dropNote => True

/-- What is known of a drain at each point of its pass. -/
def PcOk (s : State) : DrainPc → Prop
  | .staging todo => ∀ item ∈ todo, (lookup s.table item.id).isSome
  | .stagingFound item todo =>
    (lookup s.table item.id).isSome ∧ (∀ e req, s.enq e ≠ .inserted req item.id) ∧
      ∀ item ∈ todo, (lookup s.table item.id).isSome
  | .stagingMissing _ _ | .stagingDead _ _ => False
  | .item phase item _ => PhaseOk s item.id phase
  | _ => True

/-- The enqueuer has written the blob of `id` and has yet to activate the row. -/
def Written : EnqueuePc → Uuid → Prop
  | .blobWritten _ id, id' | .noteWritten _ id, id' => id = id'
  | _, _ => False

/-- The invariant of the runs that look only after the write. -/
structure Inv (s : State) : Prop where
  dead : ∀ id r, lookup s.table id = some r → r.status = .dead →
    r.detail.isPayloadMissing = false
  staging : ∀ id, statusOf s.table id = some .staging →
    (s.blob id).isSome ∨ ∃ e req, s.enq e = .inserted req id
  active : ∀ id, statusOf s.table id = some .pending ∨ statusOf s.table id = some .running → (s.blob id).isSome
  inserted : ∀ e req id, s.enq e = .inserted req id →
    statusOf s.table id = some .staging ∧ s.blob id = none
  insertedOnce : ∀ e e' req req' id, s.enq e = .inserted req id → s.enq e' = .inserted req' id →
    e = e'
  written : ∀ e id, Written (s.enq e) id →
    (lookup s.table id).isSome ∧ ∀ e' req, s.enq e' ≠ .inserted req id
  known : ∀ id, (s.blob id).isSome → (lookup s.table id).isSome
  pc : ∀ d, PcOk s (s.drain d)
  owner : ∀ d d' id, Owns (s.drain d) id → Owns (s.drain d') id → d = d'
  log : ∀ id, ¬ DeletedUnread s.blobLog id

/-! ## Statuses after the row updates -/

/-- The status a settlement leaves. -/
def settled : Settle → QueueStatus
  | .done _ _ => .done
  | .failed _ _ => .pending
  | .dead _ _ => .dead

/-- INTERNAL: the status of a fresh row is staging, the others are as they were. -/
theorem statusOf_enqueue {t : Table} {id : Uuid} (id' userId : Uuid) (tool : QueueTool)
    (source : String) (now : Instant) (hfresh : lookup t id = none) :
    statusOf (enqueue t id userId tool source now) id' =
      if id' = id then some .staging else statusOf t id' := by
  unfold statusOf
  rw [lookup_enqueue _ _ _ _ _ _ _ hfresh]
  split <;> rfl

/-- INTERNAL: `activate` moves staging and pending to pending. -/
theorem statusOf_activate (t : Table) (id id' : Uuid) (now : Instant) :
    statusOf (activate t id now) id' = (statusOf t id').map fun st =>
      if id' = id ∧ (st = .staging ∨ st = .pending) then .pending else st := by
  unfold statusOf
  rw [lookup_activate]
  cases lookup t id' with
  | none => rfl
  | some r => by_cases h : id' = id ∧ (r.status = .staging ∨ r.status = .pending) <;> simp [h]

/-- INTERNAL: a claim moves pending to running. -/
theorem statusOf_claim (t : Table) (id id' : Uuid) (now : Instant) :
    statusOf (claim t id now) id' = (statusOf t id').map fun st =>
      if id' = id ∧ st = .pending then .running else st := by
  unfold statusOf
  rw [lookup_claim]
  cases lookup t id' with
  | none => rfl
  | some r => by_cases h : id' = id ∧ r.status = .pending <;> simp [h]

/-- INTERNAL: a settlement sets the status of its row, whatever it was. -/
theorem statusOf_settle (t : Table) (w : Settle) (id id' : Uuid) (now : Instant) :
    statusOf (w.apply t id now) id' = (statusOf t id').map fun st =>
      if id' = id then settled w else st := by
  unfold statusOf
  cases w <;> simp only [Settle.apply, lookup_markDone, lookup_markFailed, lookup_markDead] <;>
    cases lookup t id' <;> by_cases h : id' = id <;> simp [h, settled]

/-- INTERNAL: a row exists as long as it has a status. -/
theorem lookup_isSome_iff (t : Table) (id : Uuid) :
    (lookup t id).isSome ↔ (statusOf t id).isSome := by
  unfold statusOf
  rw [Option.isSome_map]

/-! ## Moves of the program counters -/

/-- INTERNAL: what is known at a point depends on the rows, the enqueuers and the log only. -/
theorem pcOk_congr {s s' : State} {pc : DrainPc} (ht : s'.table = s.table)
    (he : s'.enq = s.enq) (hl : s'.blobLog = s.blobLog) (h : PcOk s pc) : PcOk s' pc := by
  cases pc with
  | item phase item k =>
    cases phase with
    | settle w => cases w <;> simp only [PcOk, PhaseOk, ht, hl] at h ⊢ <;> exact h
    | _ => simp only [PcOk, PhaseOk, ht, hl] at h ⊢ <;> exact h
  | _ => simp only [PcOk, ht, he] at h ⊢ <;> exact h

/-- INTERNAL: moving a drain keeps the invariant when the new point is justified and no
other drain holds the row it holds. -/
theorem inv_setDrain {s : State} {d : ℕ} {pc : DrainPc} (h : Inv s) (hpc : PcOk s pc)
    (hown : ∀ id d', Owns pc id → d' ≠ d → ¬ Owns (s.drain d') id) : Inv (s.setDrain d pc) where
  dead := h.dead
  staging := h.staging
  active := h.active
  inserted := h.inserted
  insertedOnce := h.insertedOnce
  written := h.written
  known := h.known
  pc d' := by
    have hmove : PcOk s (Function.update s.drain d pc d') := by
      by_cases hd : d' = d
      · subst hd; simpa using hpc
      · simpa [hd] using h.pc d'
    exact pcOk_congr rfl rfl rfl hmove
  owner d₁ d₂ id h₁ h₂ := by
    simp only [State.setDrain] at h₁ h₂
    by_cases hd₁ : d₁ = d <;> by_cases hd₂ : d₂ = d
    · rw [hd₁, hd₂]
    · subst hd₁
      simp only [Function.update_self] at h₁
      simp only [Function.update_of_ne hd₂] at h₂
      exact absurd h₂ (hown id d₂ h₁ hd₂)
    · subst hd₂
      simp only [Function.update_self] at h₂
      simp only [Function.update_of_ne hd₁] at h₁
      exact absurd h₁ (hown id d₁ h₂ hd₁)
    · simp only [Function.update_of_ne hd₁] at h₁
      simp only [Function.update_of_ne hd₂] at h₂
      exact h.owner d₁ d₂ id h₁ h₂
  log := h.log

/-- INTERNAL: moving a drain to a point where it holds no row. -/
theorem inv_setDrain_free {s : State} {d : ℕ} {pc : DrainPc} (h : Inv s) (hpc : PcOk s pc)
    (hfree : ∀ id, ¬ Owns pc id) : Inv (s.setDrain d pc) :=
  inv_setDrain h hpc fun id _ ho => absurd ho (hfree id)

/-- INTERNAL: a drain that keeps or drops the row it holds leaves the others alone. -/
theorem inv_setDrain_item {s : State} {d : ℕ} {phase phase' : ItemPhase}
    {item : MutationQueueItem} {k k' : Cont} (h : Inv s) (hd : s.drain d = .item phase item k)
    (hh : Holds phase) (hpc : PhaseOk s item.id phase') :
    Inv (s.setDrain d (.item phase' item k')) := by
  refine inv_setDrain h hpc ?_
  rintro id d' ⟨-, rfl⟩ hne hother
  exact hne (h.owner d' d item.id hother (by rw [hd]; exact ⟨hh, rfl⟩))

/-- INTERNAL: a drain may be taken out of the picture while its data step is applied. -/
theorem inv_idle {s : State} (h : Inv s) (d : ℕ) : Inv (s.setDrain d .idle) :=
  inv_setDrain_free h trivial (fun _ ho => ho)

/-- INTERNAL: a parked drain holds nothing, and no other drain holds its row. -/
theorem not_owns_of_idle {s : State} {d : ℕ} {phase : ItemPhase} {item : MutationQueueItem}
    {k : Cont} (h : Inv s) (hd : s.drain d = .item phase item k) (hh : Holds phase) (d' : ℕ) :
    ¬ Owns ((s.setDrain d .idle).drain d') item.id := by
  intro ho
  by_cases hne : d' = d
  · subst hne
    simp [State.setDrain, Owns] at ho
  · simp only [State.setDrain, Function.update_of_ne hne] at ho
    exact hne (h.owner d' d item.id ho (by rw [hd]; exact ⟨hh, rfl⟩))

/-- INTERNAL: the holder of a row finds it running. -/
theorem running_of_owns {s : State} (h : Inv s) {d : ℕ} {id : Uuid}
    (ho : Owns (s.drain d) id) : statusOf s.table id = some .running := by
  have hp := h.pc d
  cases hd : s.drain d with
  | item phase item k =>
    rw [hd] at ho hp
    obtain ⟨hh, rfl⟩ := ho
    cases phase with
    | settle w =>
      cases w with
      | failed next detail => exact hp
      | done paths detail => exact hp.1
      | dead detail cleanup => exact hp.1
    | claimed | readPayload => exact hp
    | run p | fallbackRead w | fallbackRun p w => exact hp.1
    | dropPayload c | dropNote => exact absurd hh (by simp [Holds])
  | _ => rw [hd] at ho; exact absurd ho (by simp [Owns])

/-! ## The row updates -/

/-- What a row update may do to the status of a row: nothing, or move a row that is still
active and that no task counts on. -/
def MayChange (s : State) (id : Uuid) (new : Option QueueStatus) : Prop :=
  (∃ st, statusOf s.table id = some st ∧ st.terminal = false) ∧
    (∀ d, ¬ Owns (s.drain d) id) ∧ (∀ e req, s.enq e ≠ .inserted req id) ∧
    (new = some .pending ∨ new = some .running → (s.blob id).isSome) ∧
    new ≠ some .staging ∧ new.isSome

/-- INTERNAL: what a drain knows outlasts a step that keeps the rows and inserts no row
that was there. -/
theorem pcOk_mono {s s' : State} {pc : DrainPc} (h : PcOk s pc)
    (hsome : ∀ id, (lookup s.table id).isSome → (lookup s'.table id).isSome)
    (hins : ∀ e req id, (lookup s.table id).isSome → s'.enq e = .inserted req id →
      ∃ e' req', s.enq e' = .inserted req' id)
    (hphase : ∀ phase item k, pc = .item phase item k → PhaseOk s item.id phase →
      PhaseOk s' item.id phase) : PcOk s' pc := by
  cases pc with
  | staging todo =>
    intro item hi
    exact hsome item.id (h item hi)
  | stagingFound item todo =>
    refine ⟨hsome item.id h.1, ?_, fun item' hi => hsome item'.id (h.2.2 item' hi)⟩
    intro e req he
    obtain ⟨e', req', he'⟩ := hins e req item.id h.1 he
    exact h.2.1 e' req' he'
  | stagingMissing item todo | stagingDead item todo => exact h
  | item phase item k => exact hphase phase item k rfl h
  | _ => trivial

/-- INTERNAL: what is known of an item follows its status and the log. -/
theorem phaseOk_mono {s s' : State} {id : Uuid} {phase : ItemPhase} (h : PhaseOk s id phase)
    (hkeep : ∀ st, statusOf s.table id = some st → statusOf s'.table id = some st)
    (hlog : s'.blobLog = s.blobLog) : PhaseOk s' id phase := by
  cases phase with
  | claimed | readPayload => exact hkeep _ h
  | run p | fallbackRead w | fallbackRun p w => exact ⟨hkeep _ h.1, hlog ▸ h.2⟩
  | settle w =>
    cases w with
    | failed next detail => exact hkeep _ h
    | done paths detail => exact ⟨hkeep _ h.1, hlog ▸ h.2⟩
    | dead detail cleanup => exact ⟨hkeep _ h.1, h.2.1, hlog ▸ h.2.2⟩
  | dropPayload c => exact ⟨h.1.imp (hkeep _) (hkeep _), hlog ▸ h.2⟩
  | dropNote => trivial

/-- INTERNAL: what is known in a phase survives the changes a row update may make. -/
theorem phaseOk_table {s : State} {t' : Table} {id : Uuid} {phase : ItemPhase}
    (hchg : statusOf t' id = statusOf s.table id ∨ MayChange s id (statusOf t' id))
    (hfree : Holds phase → ∃ d, Owns (s.drain d) id)
    (h : PhaseOk s id phase) : PhaseOk { s with table := t' } id phase := by
  have hsame : phase ≠ .dropNote → statusOf t' id = statusOf s.table id := by
    intro hne
    rcases hchg with hsame | ⟨⟨st, hst, hterm⟩, hown, -⟩
    · exact hsame
    · cases phase with
      | dropPayload c =>
        rcases h.1 with h1 | h1 <;> rw [hst] at h1 <;> cases h1 <;> simp [QueueStatus.terminal] at hterm
      | dropNote => exact absurd rfl hne
      | _ => exact absurd (hfree trivial).choose_spec (hown _)
  cases phase with
  | dropNote => trivial
  | settle w => cases w <;> simpa only [PhaseOk, hsame (by simp)] using h
  | _ => simpa only [PhaseOk, hsame (by simp)] using h

/-- INTERNAL: **the row-update rule**: a new table keeps the invariant when every row's
status is unchanged or moved as `MayChange` allows, and no row is dead for want of its
payload. -/
theorem inv_table {s : State} {t' : Table} (h : Inv s)
    (hdead : ∀ id r, lookup t' id = some r → r.status = .dead →
      r.detail.isPayloadMissing = false)
    (hchg : ∀ id, statusOf t' id = statusOf s.table id ∨ MayChange s id (statusOf t' id)) :
    Inv { s with table := t' } := by
  have hsome : ∀ id, (lookup s.table id).isSome → (lookup t' id).isSome := by
    intro id hid
    rw [lookup_isSome_iff] at hid ⊢
    rcases hchg id with he | he
    · rwa [he]
    · exact he.2.2.2.2.2
  refine ⟨hdead, ?_, ?_, ?_, h.insertedOnce,
    fun e id hw => ⟨hsome id (h.written e id hw).1, (h.written e id hw).2⟩,
    fun id hb => hsome id (h.known id hb), ?_, h.owner, h.log⟩
  · intro id hst
    rcases hchg id with he | he
    · exact h.staging id (he ▸ hst)
    · exact absurd hst he.2.2.2.2.1
  · intro id hst
    rcases hchg id with he | he
    · exact h.active id (he ▸ hst)
    · exact he.2.2.2.1 hst
  · intro e req id he'
    rcases hchg id with he | he
    · exact ⟨he.trans (h.inserted e req id he').1, (h.inserted e req id he').2⟩
    · exact absurd he' (he.2.2.1 e req)
  · intro d
    refine pcOk_mono (h.pc d) hsome (fun e req _ _ he => ⟨e, req, he⟩) ?_
    intro phase item k hd hp
    exact phaseOk_table (hchg item.id) (fun hh => ⟨d, by rw [hd]; exact ⟨hh, rfl⟩⟩) hp

/-- INTERNAL: `activate` keeps the invariant once the enqueuer is past the blob write. -/
theorem inv_activate {s : State} {id : Uuid} (h : Inv s)
    (hins : ∀ e req, s.enq e ≠ .inserted req id) (now : Instant) :
    Inv { s with table := activate s.table id now } := by
  refine inv_table h ?_ ?_
  · intro id' r hr hdead
    rw [lookup_activate, Option.map_eq_some_iff] at hr
    obtain ⟨r₀, hr₀, rfl⟩ := hr
    split at hdead
    · exact absurd hdead (by simp)
    · rename_i hneg
      rw [if_neg hneg]
      exact h.dead id' r₀ hr₀ hdead
  · intro id'
    rw [statusOf_activate]
    cases hst : statusOf s.table id' with
    | none => exact Or.inl rfl
    | some st =>
      by_cases hc : id' = id ∧ (st = .staging ∨ st = .pending)
      · obtain ⟨rfl, hst' | hst'⟩ := hc
        · right
          subst hst'
          refine ⟨⟨.staging, hst, rfl⟩, ?_, hins, ?_, by simp, by simp⟩
          · intro d ho
            have hrun := running_of_owns h ho
            rw [hst] at hrun
            exact absurd hrun (by simp)
          · intro _
            rcases h.staging id' hst with hb | ⟨e, req, he⟩
            · exact hb
            · exact absurd he (hins e req)
        · subst hst'; left; simp
      · left; simp [hc]

/-- INTERNAL: a claim keeps the invariant: the row was pending, so nobody holds it. -/
theorem inv_claim {s : State} {id : Uuid} (h : Inv s) (now : Instant) :
    Inv { s with table := claim s.table id now } := by
  refine inv_table h ?_ ?_
  · intro id' r hr hdead
    rw [lookup_claim, Option.map_eq_some_iff] at hr
    obtain ⟨r₀, hr₀, rfl⟩ := hr
    split at hdead
    · exact absurd hdead (by simp)
    · rename_i hneg
      rw [if_neg hneg]
      exact h.dead id' r₀ hr₀ hdead
  · intro id'
    rw [statusOf_claim]
    cases hst : statusOf s.table id' with
    | none => exact Or.inl rfl
    | some st =>
      by_cases hc : id' = id ∧ st = .pending
      · obtain ⟨rfl, rfl⟩ := hc
        right
        refine ⟨⟨.pending, hst, rfl⟩, ?_, ?_, fun _ => h.active id' (Or.inl hst), by simp, by simp⟩
        · intro d ho
          have hrun := running_of_owns h ho
          rw [hst] at hrun
          exact absurd hrun (by simp)
        · intro e req he
          have hins := (h.inserted e req id' he).1
          rw [hst] at hins
          exact absurd hins (by simp)
      · left; simp [hc]

/-- INTERNAL: a settlement of a running row that nobody else holds keeps the invariant,
unless it declares the payload missing. -/
theorem inv_settle {s : State} {id : Uuid} {w : Settle} (h : Inv s)
    (hrun : statusOf s.table id = some .running) (hown : ∀ d, ¬ Owns (s.drain d) id)
    (hw : ∀ detail cleanup, w = .dead detail cleanup → detail.isPayloadMissing = false)
    (now : Instant) : Inv { s with table := w.apply s.table id now } := by
  have hins : ∀ e req, s.enq e ≠ .inserted req id := by
    intro e req he
    have hst := (h.inserted e req id he).1
    rw [hrun] at hst
    exact absurd hst (by simp)
  refine inv_table h ?_ ?_
  · intro id' r hr hdead
    cases w with
    | done paths detail =>
      rw [Settle.apply, lookup_markDone, Option.map_eq_some_iff] at hr
      obtain ⟨r₀, hr₀, rfl⟩ := hr
      split at hdead
      · exact absurd hdead (by simp)
      · rename_i hneg
        rw [if_neg hneg]
        exact h.dead id' r₀ hr₀ hdead
    | failed next detail =>
      rw [Settle.apply, lookup_markFailed, Option.map_eq_some_iff] at hr
      obtain ⟨r₀, hr₀, rfl⟩ := hr
      split at hdead
      · exact absurd hdead (by simp)
      · rename_i hneg
        rw [if_neg hneg]
        exact h.dead id' r₀ hr₀ hdead
    | dead detail cleanup =>
      rw [Settle.apply, lookup_markDead, Option.map_eq_some_iff] at hr
      obtain ⟨r₀, hr₀, rfl⟩ := hr
      split
      · exact hw detail cleanup rfl
      · rename_i hneg
        rw [if_neg hneg] at hdead
        exact h.dead id' r₀ hr₀ hdead
  · intro id'
    rw [statusOf_settle]
    by_cases hid : id' = id
    · subst hid
      right
      rw [hrun]
      refine ⟨⟨.running, hrun, rfl⟩, hown, hins, fun _ => h.active id' (Or.inr hrun), ?_, by simp⟩
      cases w <;> simp [settled]
    · left; simp [hid]

/-! ## The blobs -/

/-- INTERNAL: a longer log knows at least the reads of the shorter one. -/
theorem pcOk_log {s : State} {log : List BlobEvent} {pc : DrainPc}
    (hsub : ∀ id, .read id ∈ s.blobLog → .read id ∈ log) (h : PcOk s pc) :
    PcOk { s with blobLog := log } pc := by
  cases pc with
  | item phase item k =>
    cases phase with
    | settle w =>
      cases w with
      | failed next detail => exact h
      | done paths detail => exact ⟨h.1, hsub _ h.2⟩
      | dead detail cleanup => exact ⟨h.1, h.2.1, fun hc => hsub _ (h.2.2 hc)⟩
    | claimed | readPayload | dropNote => exact h
    | run p | fallbackRead w | fallbackRun p w | dropPayload c => exact ⟨h.1, hsub _ h.2⟩
  | _ => exact h

/-- INTERNAL: one more event is harmless unless it removes an unread blob. -/
theorem not_deletedUnread_cons {log : List BlobEvent} {ev : BlobEvent}
    (h : ∀ id, ¬ DeletedUnread log id) (hev : ∀ id, ev = .deleted id → .read id ∈ log) (id : Uuid) :
    ¬ DeletedUnread (ev :: log) id := by
  rintro ⟨newer, older, heq, hold⟩
  cases newer with
  | nil =>
    simp only [List.nil_append, List.cons.injEq] at heq
    exact hold (heq.2 ▸ hev id heq.1)
  | cons x newer =>
    simp only [List.cons_append, List.cons.injEq] at heq
    exact h id ⟨newer, older, heq.2, hold⟩

/-- INTERNAL: a run's read of the payload keeps the invariant. -/
theorem inv_read {s : State} (h : Inv s) (id : Uuid) :
    Inv { s with blobLog := .read id :: s.blobLog } where
  dead := h.dead
  staging := h.staging
  active := h.active
  inserted := h.inserted
  insertedOnce := h.insertedOnce
  written := h.written
  known := h.known
  pc d := pcOk_log (fun _ hr => List.mem_cons_of_mem _ hr) (h.pc d)
  owner := h.owner
  log := not_deletedUnread_cons h.log (fun _ he => by simp at he)

/-- INTERNAL: dropping the blob of a terminal row that a run has read keeps the invariant. -/
theorem inv_deletePayload {s : State} {id : Uuid} (h : Inv s)
    (hterm : statusOf s.table id = some .done ∨ statusOf s.table id = some .dead)
    (hread : .read id ∈ s.blobLog) : Inv (s.deletePayload id) := by
  unfold State.deletePayload
  cases hb : s.blob id with
  | none => exact h
  | some payload =>
    have hother : ∀ id', id' ≠ id →
        (s.blob id').isSome → (Function.update s.blob id none id').isSome := by
      intro id' hne hsome
      rwa [Function.update_of_ne hne]
    have hne : ∀ id' st, st.terminal = false → statusOf s.table id' = some st → id' ≠ id := by
      rintro id' st hst hs rfl
      rcases hterm with ht | ht <;> rw [ht] at hs <;> cases hs <;> simp [QueueStatus.terminal] at hst
    refine ⟨h.dead, ?_, ?_, ?_, h.insertedOnce, h.written, ?_, ?_, h.owner, ?_⟩
    · intro id' hst
      rcases h.staging id' hst with hsome | hins
      · exact Or.inl (hother id' (hne id' _ rfl hst) hsome)
      · exact Or.inr hins
    · intro id' hst
      refine hother id' ?_ (h.active id' hst)
      rcases hst with hst | hst <;> exact hne id' _ rfl hst
    · intro e req id' he
      refine ⟨(h.inserted e req id' he).1, ?_⟩
      show Function.update s.blob id none id' = none
      rw [Function.update_of_ne (hne id' _ rfl (h.inserted e req id' he).1)]
      exact (h.inserted e req id' he).2
    · intro id' hsome
      by_cases hid : id' = id
      · subst hid
        exact h.known id' (by simp [hb])
      · exact h.known id' (by simpa [hid] using hsome)
    · intro d
      exact pcOk_log (fun _ hr => List.mem_cons_of_mem _ hr) (pcOk_congr rfl rfl rfl (h.pc d))
    · refine not_deletedUnread_cons h.log ?_
      intro id' he
      cases he
      exact hread

/-! ## The enqueuer's steps -/

/-- INTERNAL: moving an enqueuer that does not stand at the window, and does not enter it. -/
theorem inv_setEnq {s : State} {e : ℕ} {pc : EnqueuePc} (h : Inv s)
    (hold : ∀ req id, s.enq e ≠ .inserted req id) (hnew : ∀ req id, pc ≠ .inserted req id)
    (hw : ∀ id, Written pc id → Written (s.enq e) id) : Inv (s.setEnq e pc) := by
  have hins : ∀ e' req id, Function.update s.enq e pc e' = .inserted req id →
      s.enq e' = .inserted req id := by
    intro e' req id he'
    by_cases hee : e' = e
    · subst hee
      exact absurd (by simpa using he') (hnew req id)
    · simpa [hee] using he'
  refine ⟨h.dead, ?_, h.active, fun e' req id he' => h.inserted e' req id (hins e' req id he'),
    fun e₁ e₂ r₁ r₂ id h₁ h₂ => h.insertedOnce e₁ e₂ r₁ r₂ id (hins _ _ _ h₁) (hins _ _ _ h₂),
    ?_, h.known, ?_, h.owner, h.log⟩
  · intro id hst
    rcases h.staging id hst with hb | ⟨e', req, he'⟩
    · exact Or.inl hb
    · refine Or.inr ⟨e', req, ?_⟩
      have hee : e' ≠ e := by
        rintro rfl
        exact hold req id he'
      show Function.update s.enq e pc e' = .inserted req id
      rw [Function.update_of_ne hee]
      exact he'
  · intro e' id hwr
    have hold' : Written (s.enq e') id := by
      by_cases hee : e' = e
      · subst hee
        exact hw id (by simpa [State.setEnq] using hwr)
      · simpa [State.setEnq, hee] using hwr
    exact ⟨(h.written e' id hold').1, fun e'' req he'' => (h.written e' id hold').2 e'' req (hins _ _ _ he'')⟩
  · intro d
    refine pcOk_mono (h.pc d) (fun _ hl => hl) ?_ ?_
    · intro e' req id _ he'
      exact ⟨e', req, hins e' req id he'⟩
    · intro phase item k _ hp
      exact phaseOk_mono hp (fun _ hst => hst) rfl

/-- INTERNAL: the insert of a fresh row opens the window. -/
theorem inv_enqueue {s : State} {e : ℕ} {req : Request} {id : Uuid} (h : Inv s)
    (hpc : s.enq e = .counted req) (hfresh : lookup s.table id = none) (now : Instant) :
    Inv ({ s with table := enqueue s.table id req.userId req.tool req.source now }.setEnq e
      (.inserted req id)) := by
  have hstat : ∀ id', statusOf (enqueue s.table id req.userId req.tool req.source now) id' =
      if id' = id then some .staging else statusOf s.table id' :=
    fun id' => statusOf_enqueue id' _ _ _ _ hfresh
  have hno : statusOf s.table id = none := by simp [statusOf, hfresh]
  have hsome : ∀ id', (lookup s.table id').isSome →
      (lookup (enqueue s.table id req.userId req.tool req.source now) id').isSome := by
    intro id' hs
    rw [lookup_enqueue _ _ _ _ _ _ _ hfresh]
    split
    · rfl
    · exact hs
  have hins : ∀ e' req' id', Function.update s.enq e (.inserted req id) e' = .inserted req' id' →
      (e' = e ∧ id' = id) ∨ (e' ≠ e ∧ s.enq e' = .inserted req' id' ∧ id' ≠ id) := by
    intro e' req' id' he'
    by_cases hee : e' = e
    · subst hee
      rw [Function.update_self] at he'
      cases he'
      exact Or.inl ⟨rfl, rfl⟩
    · rw [Function.update_of_ne hee] at he'
      refine Or.inr ⟨hee, he', ?_⟩
      rintro rfl
      have hst := (h.inserted e' req' _ he').1
      rw [hno] at hst
      exact absurd hst (by simp)
  refine ⟨?_, ?_, ?_, ?_, ?_, ?_, fun id' hb => hsome id' (h.known id' hb), ?_, h.owner, h.log⟩
  · intro id' r hr hdead
    change lookup (enqueue s.table id req.userId req.tool req.source now) id' = some r at hr
    rw [lookup_enqueue _ _ _ _ _ _ _ hfresh] at hr
    split at hr
    · cases hr
      exact absurd hdead (by simp [stagingRow])
    · exact h.dead id' r hr hdead
  · intro id' hst
    change statusOf (enqueue s.table id req.userId req.tool req.source now) id' = _ at hst
    rw [hstat] at hst
    by_cases hid : id' = id
    · subst hid
      exact Or.inr ⟨e, req, by simp [State.setEnq]⟩
    · rw [if_neg hid] at hst
      rcases h.staging id' hst with hb | ⟨e', req', he'⟩
      · exact Or.inl hb
      · refine Or.inr ⟨e', req', ?_⟩
        have hee : e' ≠ e := by
          rintro rfl
          rw [hpc] at he'
          cases he'
        simpa [State.setEnq, hee] using he'
  · intro id' hst
    change statusOf (enqueue s.table id req.userId req.tool req.source now) id' = _ ∨
      statusOf (enqueue s.table id req.userId req.tool req.source now) id' = _ at hst
    rw [hstat] at hst
    split at hst
    · simp at hst
    · exact h.active id' hst
  · intro e' req' id' he'
    change statusOf (enqueue s.table id req.userId req.tool req.source now) id' = _ ∧ _
    rw [hstat]
    rcases hins e' req' id' he' with ⟨-, rfl⟩ | ⟨-, hold, hid⟩
    · refine ⟨by simp, ?_⟩
      by_contra hb
      have hk := h.known id' (Option.isSome_iff_ne_none.mpr hb)
      rw [hfresh] at hk
      exact absurd hk (by simp)
    · rw [if_neg hid]
      exact h.inserted e' req' id' hold
  · intro e₁ e₂ r₁ r₂ id' h₁ h₂
    rcases hins e₁ r₁ id' h₁ with ⟨he₁, hid₁⟩ | ⟨-, hold₁, hid₁⟩ <;>
      rcases hins e₂ r₂ id' h₂ with ⟨he₂, hid₂⟩ | ⟨-, hold₂, hid₂⟩
    · rw [he₁, he₂]
    · exact absurd hid₁ hid₂
    · exact absurd hid₂ hid₁
    · exact h.insertedOnce e₁ e₂ r₁ r₂ id' hold₁ hold₂
  · intro e' id' hw
    have hw' : Written (s.enq e') id' := by
      by_cases hee : e' = e
      · subst hee
        simp [State.setEnq, Written] at hw
      · simpa [State.setEnq, hee] using hw
    obtain ⟨hl, hnone⟩ := h.written e' id' hw'
    refine ⟨hsome id' hl, ?_⟩
    intro e'' req' he''
    rcases hins e'' req' id' he'' with ⟨-, hid⟩ | ⟨-, hold, -⟩
    · rw [hid, hfresh] at hl
      exact absurd hl (by simp)
    · exact hnone e'' req' hold
  · intro d
    refine pcOk_mono (h.pc d) hsome ?_ ?_
    · intro e' req' id' hl he'
      rcases hins e' req' id' he' with ⟨-, hid⟩ | ⟨-, hold, -⟩
      · rw [hid, hfresh] at hl
        exact absurd hl (by simp)
      · exact ⟨e', req', hold⟩
    · intro phase item k _ hp
      refine phaseOk_mono hp ?_ rfl
      intro st hst
      show statusOf (enqueue s.table id req.userId req.tool req.source now) item.id = some st
      rw [hstat, if_neg]
      · exact hst
      · intro hid
        rw [hid, hno] at hst
        cases hst

/-- INTERNAL: the blob write closes the window. -/
theorem inv_writePayload {s : State} {e : ℕ} {req : Request} {id : Uuid} (h : Inv s)
    (hpc : s.enq e = .inserted req id) (payload : MutationPayload) :
    Inv ({ s with blob := Function.update s.blob id (some payload) }.setEnq e
      (.blobWritten req id)) := by
  have hmono : ∀ id', (s.blob id').isSome →
      (Function.update s.blob id (some payload) id').isSome := by
    intro id' hb
    by_cases hid : id' = id
    · subst hid; simp
    · rwa [Function.update_of_ne hid]
  have hins : ∀ e' req' id',
      Function.update s.enq e (.blobWritten req id) e' = .inserted req' id' →
      s.enq e' = .inserted req' id' ∧ id' ≠ id := by
    intro e' req' id' he'
    by_cases hee : e' = e
    · subst hee
      rw [Function.update_self] at he'
      cases he'
    · rw [Function.update_of_ne hee] at he'
      refine ⟨he', ?_⟩
      rintro rfl
      exact hee (h.insertedOnce e' e req' req _ he' hpc)
  refine ⟨h.dead, ?_, fun id' hst => hmono id' (h.active id' hst), ?_, ?_, ?_, ?_, ?_,
    h.owner, h.log⟩
  · intro id' hst
    rcases h.staging id' hst with hb | ⟨e', req', he'⟩
    · exact Or.inl (hmono id' hb)
    · by_cases hee : e' = e
      · subst hee
        rw [hpc] at he'
        cases he'
        left
        simp [State.setEnq]
      · refine Or.inr ⟨e', req', ?_⟩
        simpa [State.setEnq, hee] using he'
  · intro e' req' id' he'
    obtain ⟨hold, hid⟩ := hins e' req' id' he'
    refine ⟨(h.inserted e' req' id' hold).1, ?_⟩
    show Function.update s.blob id (some payload) id' = none
    rw [Function.update_of_ne hid]
    exact (h.inserted e' req' id' hold).2
  · intro e₁ e₂ r₁ r₂ id' h₁ h₂
    exact h.insertedOnce e₁ e₂ r₁ r₂ id' (hins _ _ _ h₁).1 (hins _ _ _ h₂).1
  · intro e' id' hw
    by_cases hee : e' = e
    · subst hee
      have hid : id = id' := by simpa [State.setEnq, Written] using hw
      subst hid
      refine ⟨?_, fun e'' req' he'' => (hins e'' req' _ he'').2 rfl⟩
      show (lookup s.table id).isSome
      rw [lookup_isSome_iff, (h.inserted e' req id hpc).1]
      rfl
    · have hw' : Written (s.enq e') id' := by simpa [State.setEnq, hee] using hw
      exact ⟨(h.written e' id' hw').1,
        fun e'' req' he'' => (h.written e' id' hw').2 e'' req' (hins e'' req' _ he'').1⟩
  · intro id' hb
    by_cases hid : id' = id
    · subst hid
      show (lookup s.table id').isSome
      rw [lookup_isSome_iff, (h.inserted e req id' hpc).1]
      rfl
    · refine h.known id' ?_
      simpa [State.setEnq, hid] using hb
  · intro d
    refine pcOk_mono (h.pc d) (fun _ hl => hl) ?_ ?_
    · intro e' req' id' _ he'
      exact ⟨e', req', (hins e' req' id' he').1⟩
    · intro phase item k _ hp
      exact phaseOk_mono hp (fun _ hst => hst) rfl

/-- INTERNAL: the invariant says nothing of the staging notes. -/
theorem inv_notes {s : State} (h : Inv s) (notes : List StagingNote) :
    Inv { s with notes } where
  dead := h.dead
  staging := h.staging
  active := h.active
  inserted := h.inserted
  insertedOnce := h.insertedOnce
  written := h.written
  known := h.known
  pc d := pcOk_congr rfl rfl rfl (h.pc d)
  owner := h.owner
  log := h.log

/-- INTERNAL: every step of an enqueue call keeps the invariant. -/
theorem inv_enqueueStep {s s' : State} {e : ℕ} {c : EnqueueChoice} (h : Inv s)
    (hs : enqueueStep s e c = some s') : Inv s' := by
  unfold enqueueStep at hs
  cases hpc : s.enq e with
  | idle =>
    simp only [hpc] at hs
    split at hs <;> cases hs <;>
      exact inv_setEnq h (by simp [hpc]) (by simp) (by simp [Written])
  | counted req =>
    simp only [hpc] at hs
    split at hs
    · rename_i hfresh
      cases hs
      exact inv_enqueue h hpc hfresh _
    · cases hs
  | inserted req id =>
    simp only [hpc] at hs
    cases hs
    exact inv_writePayload h hpc _
  | blobWritten req id =>
    have hwin := (h.written e id (by rw [hpc]; rfl)).2
    simp only [hpc] at hs
    split at hs
    · cases hs
      exact inv_setEnq (inv_notes h _) (by simp [hpc]) (by simp) (by simp [hpc, Written])
    · cases hs
      exact inv_setEnq (inv_activate h hwin _) (by simp [hpc]) (by simp) (by simp [Written])
  | noteWritten req id =>
    have hwin := (h.written e id (by rw [hpc]; rfl)).2
    simp only [hpc] at hs
    cases hs
    exact inv_setEnq (inv_activate h hwin _) (by simp [hpc]) (by simp) (by simp [Written])
  | activated req id =>
    simp only [hpc] at hs
    cases hs
    exact inv_setEnq h (by simp [hpc]) (by simp) (by simp [Written])
  | returnedOk id | returnedCapacity =>
    simp only [hpc] at hs
    cases hs

/-! ## The drain's steps -/

/-- INTERNAL: a data step of a parked drain, then its move. -/
theorem setDrain_table_idle (s : State) (d : ℕ) (t : Table) (pc : DrainPc) :
    { s with table := t }.setDrain d pc =
      State.setDrain { s.setDrain d .idle with table := t } d pc := by
  simp [State.setDrain]

/-- INTERNAL: the same for the blobs. -/
theorem setDrain_deletePayload_idle (s : State) (d : ℕ) (id : Uuid) (pc : DrainPc) :
    (s.deletePayload id).setDrain d pc = ((s.setDrain d .idle).deletePayload id).setDrain d pc := by
  unfold State.deletePayload State.setDrain
  cases s.blob id <;> simp

/-- INTERNAL: what follows an agent run is justified. -/
theorem phaseOk_afterRun {s : State} {lim : QueueLimits} {now : Instant}
    {item : MutationQueueItem} (hrun : statusOf s.table item.id = some .running)
    (hread : .read item.id ∈ s.blobLog) (o : AgentOutcome) :
    PhaseOk s item.id (afterRun lim now item o) := by
  cases o with
  | ok files summary => exact ⟨hrun, hread⟩
  | err e =>
    simp only [afterRun]
    split
    · exact hrun
    · split <;> exact ⟨hrun, hread⟩

/-- INTERNAL: what follows the deterministic fallback is justified. -/
theorem phaseOk_afterFallback {s : State} {item : MutationQueueItem} {why : String}
    (hrun : statusOf s.table item.id = some .running) (hread : .read item.id ∈ s.blobLog)
    (o : FallbackOutcome) : PhaseOk s item.id (afterFallback why o) := by
  cases o with
  | ok paths => exact ⟨hrun, hread⟩
  | err error => exact ⟨hrun, rfl, fun _ => hread⟩

/-- INTERNAL: after the blob is dropped the drain holds nothing. -/
theorem afterDrop_free (s s' : State) (c : DrainChoice) (cleanup : Cleanup)
    (item : MutationQueueItem) (k : Cont) :
    PcOk s (afterDrop s' c cleanup item k) ∧ ∀ id, ¬ Owns (afterDrop s' c cleanup item k) id := by
  cases cleanup with
  | none | blob => exact ⟨trivial, fun _ ho => ho⟩
  | blobThenNote => exact ⟨trivial, fun _ ho => ho.1⟩
  | blobThenReconcile => simp only [afterDrop]; split <;> exact ⟨trivial, fun _ ho => ho⟩

/-- INTERNAL: the settlement of a held item keeps the invariant. -/
theorem inv_settleStep {s : State} {d : ℕ} {w : Settle} {item : MutationQueueItem} {k : Cont}
    (h : Inv s) (hd : s.drain d = .item (.settle w) item k) (now : Instant) :
    Inv ({ s with table := w.apply s.table item.id now }.setDrain d
      (match w.cleanup with
        | .none => .users k.processed
        | cleanup => .item (.dropPayload cleanup) item k)) := by
  have hp : PhaseOk s item.id (.settle w) := by simpa [hd, PcOk] using h.pc d
  have hown : Owns (s.drain d) item.id := by rw [hd]; exact ⟨trivial, rfl⟩
  have hrun := running_of_owns h hown
  have hw : ∀ detail cleanup, w = .dead detail cleanup → detail.isPayloadMissing = false := by
    rintro detail cleanup rfl
    exact hp.2.1
  have hs := inv_settle (inv_idle h d) hrun (not_owns_of_idle h hd trivial) hw now
  have hst : statusOf (w.apply s.table item.id now) item.id = some (settled w) := by
    rw [statusOf_settle, hrun]
    simp
  rw [setDrain_table_idle]
  cases w with
  | failed next detail => exact inv_setDrain_free hs trivial (fun _ ho => ho)
  | done paths detail => exact inv_setDrain_free hs ⟨Or.inl hst, hp.2⟩ (fun _ ho => ho.1)
  | dead detail cleanup =>
    cases cleanup with
    | none => exact inv_setDrain_free hs trivial (fun _ ho => ho)
    | _ => exact inv_setDrain_free hs ⟨Or.inr hst, hp.2.2 (by simp)⟩ (fun _ ho => ho.1)

/-- INTERNAL: every step of a claimed item keeps the invariant. -/
theorem inv_itemStep {s : State} {lim : QueueLimits} {d : ℕ} {c : DrainChoice}
    {phase : ItemPhase} {item : MutationQueueItem} {k : Cont} (h : Inv s)
    (hd : s.drain d = .item phase item k) : Inv (itemStep lim s d c phase item k) := by
  have hp : PhaseOk s item.id phase := by simpa [hd, PcOk] using h.pc d
  cases phase with
  | claimed =>
    simp only [itemStep]
    split
    · exact inv_setDrain_item h hd trivial hp
    · split
      · exact inv_setDrain_item h hd trivial ⟨hp, rfl, by simp⟩
      · exact inv_setDrain_item h hd trivial hp
  | readPayload =>
    simp only [itemStep]
    have hb := h.active item.id (Or.inr hp)
    split
    · rename_i hnone
      simp [hnone] at hb
    · have hr := inv_read h item.id
      split
      · exact inv_setDrain_item hr hd trivial ⟨hp, List.mem_cons_self ..⟩
      · exact inv_setDrain_item hr hd trivial ⟨hp, List.mem_cons_self ..⟩
  | run payload => exact inv_setDrain_item h hd trivial (phaseOk_afterRun hp.1 hp.2 _)
  | fallbackRead why =>
    simp only [itemStep]
    have hb := h.active item.id (Or.inr hp.1)
    split
    · rename_i hnone
      simp [hnone] at hb
    · exact inv_setDrain_item (inv_read h item.id) hd trivial ⟨hp.1, List.mem_cons_self ..⟩
  | fallbackRun payload why =>
    exact inv_setDrain_item h hd trivial (phaseOk_afterFallback hp.1 hp.2 _)
  | settle w => exact inv_settleStep h hd c.now
  | dropPayload cleanup =>
    simp only [itemStep]
    have hs : Inv ((s.setDrain d .idle).deletePayload item.id) :=
      inv_deletePayload (inv_idle h d) hp.1 hp.2
    rw [setDrain_deletePayload_idle]
    exact inv_setDrain_free hs (afterDrop_free _ _ c cleanup item k).1
      (afterDrop_free s _ c cleanup item k).2
  | dropNote => exact inv_setDrain_free (inv_notes h _) trivial (fun _ ho => ho)

/-- INTERNAL: every step of a drain pass keeps the invariant, unless it is a staging check
of a row whose blob is not on disk. -/
theorem inv_drainStep {s : State} {lim : QueueLimits} {d : ℕ} {c : DrainChoice} (h : Inv s)
    (hok : looksAfterWrite s (.drain d c) = true) : Inv (drainStep lim s d c) := by
  have hp := h.pc d
  unfold drainStep
  cases hd : s.drain d with
  | idle =>
    refine inv_setDrain_free h ?_ (fun _ ho => ho)
    intro item hi
    exact lookup_isSome_of_mem (mem_of_mem_stagingRows hi)
  | staging todo =>
    rw [hd] at hp
    cases todo with
    | nil => exact inv_setDrain_free h trivial (fun _ ho => ho)
    | cons item todo =>
      have htodo : ∀ item' ∈ todo, (lookup s.table item'.id).isSome :=
        fun item' hi => hp item' (List.mem_cons_of_mem _ hi)
      simp only
      split
      · rename_i hkey
        have hb : (s.blob item.id).isSome = true := by
          simp only [looksAfterWrite, hd, hkey] at hok
          exact hok
        rw [if_pos hb]
        refine inv_setDrain_free h ⟨hp item (List.mem_cons_self ..), ?_, htodo⟩ (fun _ ho => ho)
        intro e req he
        have hnone := (h.inserted e req item.id he).2
        simp [hnone] at hb
      · exact inv_setDrain_free h htodo (fun _ ho => ho)
  | stagingFound item todo =>
    rw [hd] at hp
    have ha := inv_activate h hp.2.1 c.now
    have hpa := ha.pc d
    simp only [hd] at hpa
    exact inv_setDrain_free ha hpa.2.2 (fun _ ho => ho)
  | stagingMissing item todo | stagingDead item todo =>
    rw [hd] at hp
    exact absurd hp (by simp [PcOk])
  | loopTop => simp only; split <;> exact inv_setDrain_free h trivial (fun _ ho => ho)
  | users k =>
    obtain ⟨users, progress⟩ := k
    cases users with
    | nil => simp only; split <;> exact inv_setDrain_free h trivial (fun _ ho => ho)
    | cons uid users => simp only; split <;> exact inv_setDrain_free h trivial (fun _ ho => ho)
  | reconcile uid todo after k =>
    cases todo with
    | nil => cases after <;> exact inv_setDrain_free h trivial (fun _ ho => ho)
    | cons id todo => simp only; split <;> exact inv_setDrain_free h trivial (fun _ ho => ho)
  | reconcileNote id uid todo after k =>
    exact inv_setDrain_free (inv_notes h _) trivial (fun _ ho => ho)
  | process uid k => simp only; split <;> exact inv_setDrain_free h trivial (fun _ ho => ho)
  | claiming uid candidates k =>
    cases candidates with
    | nil => exact inv_setDrain_free h trivial (fun _ ho => ho)
    | cons id candidates =>
      simp only
      split
      · rename_i hcl
        obtain ⟨r, hr, hst⟩ : ∃ r, lookup s.table id = some r ∧ r.status = .pending := by
          simpa [claimable, Option.any_eq_true] using hcl
        have hpend : statusOf s.table id = some .pending := by simp [statusOf, hr, hst]
        split
        · exact h
        · rename_i item hitem
          have hid : item.id = id := id_of_lookup hitem
          have hrun : statusOf (claim s.table id c.now) item.id = some .running := by
            rw [hid, statusOf_claim, hpend]
            simp
          refine inv_setDrain (inv_claim h c.now) hrun ?_
          rintro id' d' ⟨-, rfl⟩ - ho
          have hold := running_of_owns h ho
          rw [hid, hpend] at hold
          exact absurd hold (by simp)
      · exact inv_setDrain_free h trivial (fun _ ho => ho)
  | item phase item k => exact inv_itemStep h hd

/-! ## Whole runs -/

/-- INTERNAL: the invariant holds of the empty queue. -/
theorem inv_init : Inv State.init where
  dead _ _ hr := by simp [State.init, lookup] at hr
  staging _ hst := by simp [State.init, statusOf, lookup] at hst
  active _ hst := by simp [State.init, statusOf, lookup] at hst
  inserted _ _ _ he := by simp [State.init] at he
  insertedOnce _ _ _ _ _ he := by simp [State.init] at he
  written _ _ hw := by simp [State.init, Written] at hw
  known _ hb := by simp [State.init] at hb
  pc _ := trivial
  owner _ _ _ ho := by simp [State.init, Owns] at ho
  log _ hl := by
    obtain ⟨newer, older, heq, -⟩ := hl
    simp [State.init] at heq

/-- In every run in which no drain pass checks a staging row before its payload is on
disk, no acknowledged mutation is lost: whenever `enqueue_mutation` has returned `Ok(id)`,
the row is not dead for want of its payload and the payload was not removed before a run
of the item read it. The run is any interleaving of any number of enqueue calls and of
drain passes. SOURCE: tools.rs:447-530, queue_worker.rs:209-324 -/
theorem acknowledged_mutation_kept (lim : QueueLimits) (as : List Action) (s : State)
    (hrun : exec (step lim) State.init as = some s)
    (hok : Meets (step lim) (fun s a => looksAfterWrite s a = true) State.init as) (id : Uuid)
    (_hack : Acknowledged s id) : NotLost s id := by
  have hinv : Inv s := by
    refine exec_invariant_of_meets Inv ?_ inv_init hrun hok
    intro s a s' h hok hs
    cases a with
    | enqueue e c => exact inv_enqueueStep h hs
    | drain d c =>
      cases hs
      exact inv_drainStep h hok
  refine ⟨?_, hinv.log id⟩
  rintro r hr ⟨hdead, hmiss⟩
  rw [hinv.dead id r hr hdead] at hmiss
  exact absurd hmiss (by simp)

/-- A `memory_add` call of user 1. -/
def addRequest : Request where
  userId := 1
  tool := .add
  content := "the build runs on port 8080"
  argsJson := "null"
  source := "mcp:laptop"
  depthCap := 50

/-- A step of the call numbered 0, whose row gets the identifier 7. -/
def callStep (now : Instant) : Action := .enqueue 0 { req := addRequest, id := 7, now }

/-- A step of the pass numbered 0. -/
def passStep (now : Instant) : Action := .drain 0 { now }

/-- The call runs to its receipt and a pass then claims, runs and settles the item. -/
def servedRun : List Action :=
  [callStep 1, callStep 2, callStep 3, callStep 4, callStep 5, callStep 6] ++
    (List.range 14).map fun n => passStep (n + 7)

/-- The pass looks for the payload between the insert of the row and the blob write. -/
def racedRun : List Action :=
  [callStep 1, callStep 2, passStep 3, passStep 3, callStep 3, passStep 4, passStep 4, callStep 5,
    callStep 5, callStep 6]

/-- The condition is met by a call that is served in full. -/
theorem acknowledged_mutation_kept_served :
    ∃ s, exec (step {}) State.init servedRun = some s ∧ Acknowledged s 7 ∧
      statusOf s.table 7 = some .done ∧ NotLost s 7 := by
  refine ⟨_, rfl, ⟨0, rfl⟩, rfl, ?_⟩
  exact acknowledged_mutation_kept {} servedRun _ rfl (by decide) 7 ⟨0, rfl⟩

/-- The receipt of a lost mutation: the pass finds no blob and marks the row dead, the
call's `activate` then matches no row, and the blob it wrote is removed unread. -/
theorem acknowledged_mutation_lost :
    ∃ s, exec (step {}) State.init racedRun = some s ∧ Acknowledged s 7 ∧ ¬ NotLost s 7 ∧
      DeletedUnread s.blobLog 7 := by
  have hdel : DeletedUnread [.deleted 7] 7 := ⟨[], [], rfl, by simp⟩
  exact ⟨_, rfl, ⟨0, rfl⟩, fun h => h.2 hdel, hdel⟩

end Mycelium.Analysis.AcknowledgedMutations
