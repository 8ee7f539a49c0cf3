import Mycelium.Analysis.AcknowledgedMutations
import Mycelium.Model.QueueLifecycle

/-!
# Terminal rows and the owner of a running row

Only one drain at a time believes it holds a row, in every run: a claim takes a pending
row, and while a drain holds a row nothing brings that row back to pending but the
drain's own settlement (`Inv`). That `done` and `dead` are final is another matter.
`mark_done`, `mark_failed` and `mark_dead` are keyed by the identifier alone, and two
callers use `mark_dead` on a row they do not hold: `abandon_row`, for a call whose
staging note could not be written, and the staging reconciliation, whose look at the
disk may be old by then. If a drain has meanwhile taken the row, its settlement
overwrites the verdict, and if it has already integrated it, the verdict overwrites
`done` (`abandon_overwrites_done`).

Where no such verdict falls on a row that is done or held by a drain, terminal rows stay
as they are (`terminal_rows_and_one_owner`).
-/

set_option autoImplicit false

namespace Mycelium.Analysis.QueueOwnership

open Mycelium.Model.MutationQueue Mycelium.Model.QueueLifecycle StepSystem
open Mycelium.Model.QueueWorker (DrainPc DrainChoice EnqueueChoice ItemPhase QueueLimits Request
  Settle Cleanup Cont afterDrop drainStep enqueueStep itemStep)
open Mycelium.Analysis.AcknowledgedMutations (Holds Owns settled statusOf_enqueue statusOf_activate
  statusOf_claim statusOf_settle)

/-! ## The property and the condition -/

/-- At most one drain believes it holds a row. -/
def OneOwner (s : State) : Prop :=
  ∀ d d' id, Owns (s.queue.drain d) id → Owns (s.queue.drain d') id → d = d'

/-- Every row that is done or dead in `s` has the same status in `s'`. -/
def TerminalKept (s s' : State) : Prop :=
  ∀ id st, statusOf s.queue.table id = some st → st.terminal = true →
    statusOf s'.queue.table id = some st

/-- The row a drain in this place declares dead without having claimed it. -/
def stagingVerdict : DrainPc → Option Uuid
  | .stagingMissing item _ => some item.id
  | _ => none

/-- The row this step declares dead without having claimed it: the `mark_dead` of
`abandon_row` and the one of `recover_staging`. -/
def verdict (s : State) : Action → Option Uuid
  | .abandon e _ true =>
    match s.abandon e with
    | .markDead id _ => some id
    | _ => none
  | .drain d _ => stagingVerdict (s.queue.drain d)
  | .boot _ => if s.boot = .sweeping then stagingVerdict (s.queue.drain 0) else none
  | _ => none

/-- The step declares no row dead that is done or that a drain holds. -/
def sparesClaimed (s : State) (a : Action) : Prop :=
  ∀ id, verdict s a = some id →
    statusOf s.queue.table id ≠ some .done ∧ ∀ d, ¬ Owns (s.queue.drain d) id

/-! ## What a step does to the rows and to who holds them -/

/-- No drain but those that did before holds a row. -/
def NoNewOwner (s s' : State) : Prop :=
  ∀ d id, Owns (s'.queue.drain d) id → Owns (s.queue.drain d) id

/-- Everything a step can do to the statuses and to the holders of the rows. -/
inductive Effect (s : State) (a : Action) (s' : State) : Prop
  | keep (ht : s'.queue.table = s.queue.table) (hown : NoNewOwner s s')
  | insert (id userId : Uuid) (tool : QueueTool) (source : String) (now : Instant)
      (hfresh : lookup s.queue.table id = none)
      (ht : s'.queue.table = enqueue s.queue.table id userId tool source now)
      (hown : NoNewOwner s s')
  | activate (id : Uuid) (now : Instant)
      (ht : s'.queue.table = activate s.queue.table id now) (hown : NoNewOwner s s')
  | repair (id : Uuid) (now : Instant) (hboot : s.boot ≠ .serving)
      (ht : s'.queue.table = repairRunning s.queue.table id now) (hown : NoNewOwner s s')
  | declare (id : Uuid) (detail : Detail) (now : Instant) (hverdict : verdict s a = some id)
      (ht : s'.queue.table = markDead s.queue.table id detail now) (hown : NoNewOwner s s')
  | claim (d : ℕ) (id : Uuid) (now : Instant)
      (hpending : statusOf s.queue.table id = some .pending)
      (ht : s'.queue.table = claim s.queue.table id now)
      (hother : ∀ d', d' ≠ d → s'.queue.drain d' = s.queue.drain d')
      (hown : ∀ id', Owns (s'.queue.drain d) id' → id' = id)
  | settle (d : ℕ) (w : Settle) (id : Uuid) (now : Instant) (hheld : Owns (s.queue.drain d) id)
      (ht : s'.queue.table = w.apply s.queue.table id now)
      (hother : ∀ d', d' ≠ d → s'.queue.drain d' = s.queue.drain d')
      (hown : ∀ id', ¬ Owns (s'.queue.drain d) id')

/-- INTERNAL: a move of one drain to a place where it holds nothing new. -/
theorem noNewOwner_of_move {s s' : State} (d : ℕ) (pc : DrainPc)
    (hd : s'.queue.drain = Function.update s.queue.drain d pc)
    (hpc : ∀ id, Owns pc id → Owns (s.queue.drain d) id) : NoNewOwner s s' := by
  intro d' id h
  rw [hd] at h
  by_cases hdd : d' = d
  · subst hdd
    rw [Function.update_self] at h
    exact hpc id h
  · rwa [Function.update_of_ne hdd] at h

/-- INTERNAL: the claim's UPDATE affects a pending row only. -/
theorem statusOf_of_claimable {t : Table} {id : Uuid} (h : claimable t id = true) :
    statusOf t id = some .pending := by
  unfold claimable at h
  unfold statusOf
  cases hr : lookup t id with
  | none =>
    rw [hr] at h
    cases h
  | some r =>
    rw [hr] at h
    rw [Option.map_some, eq_of_beq h]

/-- INTERNAL: a drain that moves without touching the rows. -/
theorem effect_move {s s' : State} {a : Action} (d : ℕ) (pc : DrainPc)
    (ht : s'.queue.table = s.queue.table)
    (hd : s'.queue.drain = Function.update s.queue.drain d pc)
    (hpc : ∀ id, Owns pc id → Owns (s.queue.drain d) id) : Effect s a s' :=
  .keep ht (noNewOwner_of_move d pc hd hpc)

/-- INTERNAL: removing a blob touches neither the rows nor the tasks. -/
theorem deletePayload_frame (q : Model.QueueWorker.State) (id : Uuid) :
    (q.deletePayload id).table = q.table ∧ (q.deletePayload id).drain = q.drain := by
  unfold Model.QueueWorker.State.deletePayload
  cases q.blob id with
  | none => exact ⟨rfl, rfl⟩
  | some payload => exact ⟨rfl, rfl⟩

/-- INTERNAL: after the blob is dropped the drain holds nothing. -/
theorem not_owns_afterDrop (q : Model.QueueWorker.State) (c : DrainChoice) (cleanup : Cleanup)
    (item : MutationQueueItem) (k : Cont) (id : Uuid) :
    ¬ Owns (afterDrop q c cleanup item k) id := by
  intro h
  unfold afterDrop at h
  cases cleanup with
  | none => exact h
  | blob => exact h
  | blobThenNote => exact h.1
  | blobThenReconcile =>
    simp only at h
    split at h
    · exact h
    · exact h

/-- What a step of a claimed item does: it settles the row it holds, or leaves the rows
alone. -/
theorem effect_itemStep (lim : QueueLimits) {s : State} {a : Action} {d : ℕ} (c : DrainChoice)
    {phase : ItemPhase} {item : MutationQueueItem} {k : Cont}
    (hd : s.queue.drain d = .item phase item k) :
    Effect s a { s with queue := itemStep lim s.queue d c phase item k } := by
  have hstay : ∀ {phase' : ItemPhase}, Holds phase →
      ∀ id, Owns (.item phase' item k) id → Owns (s.queue.drain d) id := by
    intro phase' hphase id h
    rw [hd]
    exact ⟨hphase, h.2⟩
  cases phase with
  | claimed =>
    simp only [itemStep]
    split
    · exact effect_move d _ rfl rfl (hstay trivial)
    · split
      · exact effect_move d _ rfl rfl (hstay trivial)
      · exact effect_move d _ rfl rfl (hstay trivial)
  | readPayload =>
    simp only [itemStep]
    split
    · exact effect_move d _ rfl rfl (hstay trivial)
    · exact effect_move d _ rfl rfl (hstay trivial)
  | run payload =>
    simp only [itemStep]
    exact effect_move d _ rfl rfl (hstay trivial)
  | fallbackRead why =>
    simp only [itemStep]
    split
    · exact effect_move d _ rfl rfl (hstay trivial)
    · exact effect_move d _ rfl rfl (hstay trivial)
  | fallbackRun payload why =>
    simp only [itemStep]
    exact effect_move d _ rfl rfl (hstay trivial)
  | settle w =>
    refine .settle d w item.id c.now ?_ rfl ?_ ?_
    · rw [hd]
      exact ⟨trivial, rfl⟩
    · intro d' hne
      exact Function.update_of_ne hne _ _
    · intro id h
      simp only [itemStep, Model.QueueWorker.State.setDrain, Function.update_self] at h
      split at h
      · exact h
      · exact h.1
  | dropPayload cleanup =>
    obtain ⟨ht, hdr⟩ := deletePayload_frame s.queue item.id
    refine effect_move d (afterDrop (s.queue.deletePayload item.id) c cleanup item k) ht ?_ ?_
    · show Function.update (s.queue.deletePayload item.id).drain d _ = _
      rw [hdr]
    · intro id h
      exact absurd h (not_owns_afterDrop _ _ _ _ _ _)
  | dropNote =>
    exact effect_move d (.users k.processed) rfl rfl (fun id h => h.elim)

/-- What a step of a drain pass does. -/
theorem effect_drainStep (lim : QueueLimits) {s : State} {a : Action} (d : ℕ) (c : DrainChoice)
    (hverdict : ∀ id, stagingVerdict (s.queue.drain d) = some id → verdict s a = some id) :
    Effect s a { s with queue := drainStep lim s.queue d c } := by
  cases hd : s.queue.drain d with
  | idle =>
    simp only [drainStep, hd]
    exact effect_move d _ rfl rfl (fun id h => h.elim)
  | staging todo =>
    cases todo with
    | nil =>
      simp only [drainStep, hd]
      exact effect_move d _ rfl rfl (fun id h => h.elim)
    | cons item todo =>
      simp only [drainStep, hd]
      split
      · split
        · exact effect_move d _ rfl rfl (fun id h => h.elim)
        · exact effect_move d _ rfl rfl (fun id h => h.elim)
      · exact effect_move d _ rfl rfl (fun id h => h.elim)
  | stagingFound item todo =>
    simp only [drainStep, hd]
    exact .activate item.id c.now rfl (noNewOwner_of_move d _ rfl (fun id h => h.elim))
  | stagingMissing item todo =>
    have hv : verdict s a = some item.id := hverdict item.id (by rw [hd]; rfl)
    simp only [drainStep, hd]
    exact .declare item.id _ c.now hv rfl (noNewOwner_of_move d _ rfl (fun id h => h.elim))
  | stagingDead item todo =>
    obtain ⟨ht, hdr⟩ := deletePayload_frame s.queue item.id
    simp only [drainStep, hd]
    refine effect_move d (.staging todo) ht ?_ (fun id h => h.elim)
    show Function.update (s.queue.deletePayload item.id).drain d _ = _
    rw [hdr]
  | loopTop =>
    simp only [drainStep, hd]
    split
    · exact effect_move d _ rfl rfl (fun id h => h.elim)
    · exact effect_move d _ rfl rfl (fun id h => h.elim)
  | users k =>
    obtain ⟨users, progress⟩ := k
    cases users with
    | nil =>
      simp only [drainStep, hd]
      refine effect_move d _ rfl rfl ?_
      intro id h
      split at h
      · exact h.elim
      · exact h.elim
    | cons uid users =>
      simp only [drainStep, hd]
      refine effect_move d _ rfl rfl ?_
      intro id h
      split at h
      · exact h.elim
      · exact h.elim
  | reconcile uid todo after k =>
    cases todo with
    | nil =>
      cases after with
      | process =>
        simp only [drainStep, hd]
        exact effect_move d _ rfl rfl (fun id h => h.elim)
      | finish =>
        simp only [drainStep, hd]
        exact effect_move d _ rfl rfl (fun id h => h.elim)
    | cons id todo =>
      simp only [drainStep, hd]
      split
      · exact effect_move d _ rfl rfl (fun id h => h.elim)
      · exact effect_move d _ rfl rfl (fun id h => h.elim)
  | reconcileNote id uid todo after k =>
    simp only [drainStep, hd]
    exact effect_move d _ rfl rfl (fun id h => h.elim)
  | process uid k =>
    simp only [drainStep, hd]
    split
    · exact effect_move d _ rfl rfl (fun id h => h.elim)
    · exact effect_move d _ rfl rfl (fun id h => h.elim)
  | claiming uid candidates k =>
    cases candidates with
    | nil =>
      simp only [drainStep, hd]
      exact effect_move d _ rfl rfl (fun id h => h.elim)
    | cons id candidates =>
      simp only [drainStep, hd]
      split
      · rename_i hclaim
        cases hrow : lookup (claim s.queue.table id c.now) id with
        | none => exact .keep rfl fun d id h => h
        | some item =>
          refine .claim d id c.now (statusOf_of_claimable hclaim) rfl ?_ ?_
          · intro d' hne
            exact Function.update_of_ne hne _ _
          · intro id' h
            simp only [Model.QueueWorker.State.setDrain, Function.update_self] at h
            have hid : item.id = id := id_of_lookup hrow
            rw [← h.2, hid]
      · exact effect_move d _ rfl rfl (fun id h => h.elim)
  | item phase item k =>
    simp only [drainStep, hd]
    exact effect_itemStep lim c hd

/-- INTERNAL: an enqueuer inserts its row, activates it, or leaves the rows alone. -/
theorem effect_enqueueStep {s : State} {a : Action} {e : ℕ} {c : EnqueueChoice}
    {q : Model.QueueWorker.State} (h : enqueueStep s.queue e c = some q) :
    Effect s a { s with queue := q } := by
  unfold enqueueStep at h
  split at h
  · split at h
    · cases h
      exact .keep rfl fun d id h => h
    · cases h
      exact .keep rfl fun d id h => h
  · split at h
    · rename_i req _ hfresh
      cases h
      exact .insert c.id req.userId req.tool req.source c.now hfresh rfl fun d id h => h
    · cases h
  · cases h
    exact .keep rfl fun d id h => h
  · rename_i req id _
    split at h
    · cases h
      exact .keep rfl fun d id h => h
    · cases h
      exact .activate id c.now rfl fun d id h => h
  · rename_i req id _
    cases h
    exact .activate id c.now rfl fun d id h => h
  · cases h
    exact .keep rfl fun d id h => h
  · cases h
  · cases h

/-- INTERNAL: `abandon_row` declares its row dead, or leaves the rows alone. -/
theorem effect_abandonStep {s s' : State} {e : ℕ} {now : Instant} {succeeds : Bool}
    (h : abandonStep s e now succeeds = some s') : Effect s (.abandon e now succeeds) s' := by
  unfold abandonStep at h
  split at h
  · rename_i id why hpc
    cases succeeds with
    | true =>
      cases h
      refine .declare id why now ?_ rfl fun d id h => h
      simp only [verdict, hpc]
    | false =>
      cases h
      exact .keep rfl fun d id h => h
  · rename_i id hpc
    cases succeeds with
    | true =>
      obtain ⟨ht, hdr⟩ := deletePayload_frame s.queue id
      cases h
      refine .keep ht ?_
      intro d id' h
      have hsame : (s.queue.deletePayload id).drain d = s.queue.drain d := by rw [hdr]
      rw [← hsame]
      exact h
    | false =>
      cases h
      exact .keep rfl fun d id h => h
  · cases h
  · cases h

/-- INTERNAL: a step of the boot sweep. -/
theorem effect_bootStep {lim : QueueLimits} {s s' : State} {c : DrainChoice}
    (h : bootStep lim s c = some s') : Effect s (.boot c) s' := by
  unfold bootStep at h
  split at h
  · cases h
    exact .keep rfl fun d id h => h
  · rename_i item todo hboot
    cases h
    refine .repair item.id c.now ?_ rfl fun d id h => h
    rw [hboot]
    intro hne
    cases hne
  · cases h
    exact effect_move 0 _ rfl rfl (fun id h => h.elim)
  · rename_i hboot
    split at h
    · cases h
      exact effect_move 0 _ rfl rfl (fun id h => h.elim)
    · cases h
      apply effect_drainStep
      intro id hv
      simp only [verdict, hboot, if_true, hv]
  · cases h

/-- Every step has one of the effects. -/
theorem effect_of_step {lim : QueueLimits} {s s' : State} {a : Action}
    (h : step lim s a = some s') : Effect s a s' := by
  cases a with
  | restart =>
    cases h
    exact .keep rfl fun d id h => h.elim
  | boot c => exact effect_bootStep h
  | bootFails =>
    simp only [step] at h
    split at h
    · cases h
    · cases h
      exact effect_move 0 _ rfl rfl (fun id h => h.elim)
  | enqueue e c =>
    simp only [step, serveStep] at h
    split at h
    · split at h
      · obtain ⟨q, hq, rfl⟩ := Option.map_eq_some_iff.mp h
        exact effect_enqueueStep hq
      · cases h
    · cases h
  | enqueueFails e =>
    simp only [step, serveStep] at h
    split at h
    · split at h
      · obtain ⟨pc, _, rfl⟩ := Option.map_eq_some_iff.mp h
        exact .keep rfl fun d id h => h
      · cases h
    · cases h
  | abandon e now succeeds =>
    simp only [step, serveStep] at h
    split at h
    · exact effect_abandonStep h
    · cases h
  | drain d c =>
    simp only [step, serveStep] at h
    split at h
    · cases h
      exact effect_drainStep lim d c fun id hv => hv
    · cases h
  | drainFails d =>
    simp only [step, serveStep] at h
    split at h
    · cases h
      exact effect_move d _ rfl rfl (fun id h => h.elim)
    · cases h
  | payloadUnreadable d error =>
    simp only [step, serveStep] at h
    split at h
    · split at h
      · rename_i item k hd
        cases h
        refine effect_move d _ rfl rfl ?_
        intro id h
        rw [hd]
        exact ⟨trivial, h.2⟩
      · cases h
    · cases h

/-! ## The sweep runs alone -/

/-- The drain has claimed nothing yet in this pass. -/
def Sweeps : DrainPc → Prop
  | .idle | .staging _ | .stagingFound _ _ | .stagingMissing _ _ | .stagingDead _ _ => True
  | _ => False

/-- INTERNAL: such a drain holds no row. -/
theorem not_owns_of_sweeps {pc : DrainPc} (h : Sweeps pc) (id : Uuid) : ¬ Owns pc id := by
  intro ho
  cases pc with
  | item phase item k => exact h
  | _ => exact ho

/-- INTERNAL: a walk over the staging rows goes on until the list is empty. -/
theorem sweeps_drainStep (lim : QueueLimits) {q : Model.QueueWorker.State} {d : ℕ}
    (c : DrainChoice) (h : Sweeps (q.drain d)) (hne : q.drain d ≠ .staging []) :
    ∃ pc, (drainStep lim q d c).drain = Function.update q.drain d pc ∧ Sweeps pc := by
  cases hd : q.drain d with
  | idle =>
    simp only [drainStep, hd]
    exact ⟨_, rfl, trivial⟩
  | staging todo =>
    cases todo with
    | nil => exact absurd hd hne
    | cons item todo =>
      simp only [drainStep, hd]
      split
      · split
        · exact ⟨_, rfl, trivial⟩
        · exact ⟨_, rfl, trivial⟩
      · exact ⟨_, rfl, trivial⟩
  | stagingFound item todo =>
    simp only [drainStep, hd]
    exact ⟨_, rfl, trivial⟩
  | stagingMissing item todo =>
    simp only [drainStep, hd]
    exact ⟨_, rfl, trivial⟩
  | stagingDead item todo =>
    simp only [drainStep, hd]
    refine ⟨.staging todo, ?_, trivial⟩
    show Function.update (q.deletePayload item.id).drain d _ = _
    rw [(deletePayload_frame q item.id).2]
  | loopTop | users k | reconcile uid todo after k | reconcileNote id uid todo after k
  | process uid k | claiming uid candidates k | item phase item k =>
    rw [hd] at h
    exact h.elim

/-- During the sweep no drain has claimed anything. -/
def SweepAlone (s : State) : Prop := s.boot ≠ .serving → ∀ d, Sweeps (s.queue.drain d)

/-- INTERNAL: a drain moved within the sweep leaves all of them sweeping. -/
theorem sweeps_update {drain : ℕ → DrainPc} {d : ℕ} {pc : DrainPc} (h : ∀ d, Sweeps (drain d))
    (hpc : Sweeps pc) (d' : ℕ) : Sweeps (Function.update drain d pc d') := by
  by_cases hdd : d' = d
  · rw [hdd, Function.update_self]
    exact hpc
  · rw [Function.update_of_ne hdd]
    exact h d'

/-- INTERNAL: a step of the boot sweep keeps the drains sweeping. -/
theorem sweeps_bootStep {lim : QueueLimits} {s s' : State} {c : DrainChoice} (hs : SweepAlone s)
    (h : bootStep lim s c = some s') (d : ℕ) : Sweeps (s'.queue.drain d) := by
  have hall : ∀ d, Sweeps (s.queue.drain d) := by
    apply hs
    intro hserving
    unfold bootStep at h
    rw [hserving] at h
    cases h
  unfold bootStep at h
  split at h
  · cases h
    exact hall d
  · cases h
    exact hall d
  · cases h
    have hpc : Sweeps (.staging (stagingRows s.queue.table)) := trivial
    exact sweeps_update hall hpc d
  · split at h
    · cases h
      have hpc : Sweeps .idle := trivial
      exact sweeps_update hall hpc d
    · rename_i hne
      cases h
      obtain ⟨pc, hdrain, hpc⟩ := sweeps_drainStep lim c (hall 0) hne
      show Sweeps ((drainStep lim s.queue 0 c).drain d)
      rw [hdrain]
      exact sweeps_update hall hpc d
  · cases h

/-- INTERNAL: the other steps of a serving process keep it serving. -/
theorem serving_of_serveStep {lim : QueueLimits} {s s' : State} {a : Action}
    (hserving : s.boot = .serving) (h : serveStep lim s a = some s') : s'.boot = .serving := by
  cases a with
  | restart => cases h
  | boot c => cases h
  | bootFails => cases h
  | enqueue e c =>
    simp only [serveStep] at h
    split at h
    · obtain ⟨q, _, rfl⟩ := Option.map_eq_some_iff.mp h
      exact hserving
    · cases h
  | enqueueFails e =>
    simp only [serveStep] at h
    split at h
    · obtain ⟨pc, _, rfl⟩ := Option.map_eq_some_iff.mp h
      exact hserving
    · cases h
  | abandon e now succeeds =>
    simp only [serveStep, abandonStep] at h
    split at h
    · cases h
      exact hserving
    · cases h
      exact hserving
    · cases h
    · cases h
  | drain d c =>
    cases h
    exact hserving
  | drainFails d =>
    cases h
    exact hserving
  | payloadUnreadable d error =>
    simp only [serveStep] at h
    split at h
    · cases h
      exact hserving
    · cases h

theorem sweepAlone_step {lim : QueueLimits} {s s' : State} {a : Action} (hs : SweepAlone s)
    (h : step lim s a = some s') : SweepAlone s' := by
  have hserve : ∀ {a : Action}, (if s.boot = .serving then serveStep lim s a else none) = some s' →
      SweepAlone s' := by
    intro a h hboot
    split at h
    · rename_i hserving
      exact absurd (serving_of_serveStep hserving h) hboot
    · cases h
  cases a with
  | restart =>
    cases h
    intro _ d
    trivial
  | boot c =>
    intro _ d
    exact sweeps_bootStep hs h d
  | bootFails =>
    simp only [step] at h
    split at h
    · cases h
    · cases h
      intro hboot
      exact absurd rfl hboot
  | _ => exact hserve h

/-! ## Who holds a row, and in which status -/

/-- Every row a drain holds has a status with the property. -/
def HeldIn (p : QueueStatus → Prop) (s : State) : Prop :=
  ∀ d id, Owns (s.queue.drain d) id → ∃ st, statusOf s.queue.table id = some st ∧ p st

/-- INTERNAL: `mark_dead` sets the status of its row, whatever it was. -/
theorem statusOf_markDead (t : Table) (id id' : Uuid) (detail : Detail) (now : Instant) :
    statusOf (markDead t id detail now) id' = (statusOf t id').map fun st =>
      if id' = id then .dead else st :=
  statusOf_settle t (.dead detail .none) id id' now

/-- INTERNAL: the boot repair moves running to pending. -/
theorem statusOf_repairRunning (t : Table) (id id' : Uuid) (now : Instant) :
    statusOf (repairRunning t id now) id' = (statusOf t id').map fun st =>
      if id' = id ∧ st = .running then .pending else st := by
  unfold statusOf
  rw [lookup_repairRunning]
  cases lookup t id' with
  | none => rfl
  | some r => by_cases h : id' = id ∧ r.status = .running <;> simp [h]

/-- INTERNAL: a row with a status is not the row an insert adds. -/
theorem ne_of_fresh {t : Table} {id id' : Uuid} {st : QueueStatus} (hfresh : lookup t id = none)
    (h : statusOf t id' = some st) : id' ≠ id := by
  intro he
  unfold statusOf at h
  rw [he, hfresh] at h
  cases h

/-- The statuses of held rows are kept in `p` as long as nothing but a settlement takes
a held row out of it. -/
theorem heldIn_of_effect {p : QueueStatus → Prop} {s s' : State} {a : Action}
    (hrunning : p .running) (hactive : ∀ st, p st → st ≠ .staging ∧ st ≠ .pending)
    (hdead : ∀ id, verdict s a = some id → p .dead ∨ ∀ d, ¬ Owns (s.queue.drain d) id)
    (hsweep : SweepAlone s) (howner : OneOwner s) (hheld : HeldIn p s) (h : Effect s a s') :
    HeldIn p s' := by
  intro d' id' ho
  cases h with
  | keep ht hown =>
    rw [ht]
    exact hheld d' id' (hown d' id' ho)
  | insert id userId tool source now hfresh ht hown =>
    obtain ⟨st, hst, hp⟩ := hheld d' id' (hown d' id' ho)
    have hne : id' ≠ id := ne_of_fresh hfresh hst
    refine ⟨st, ?_, hp⟩
    rw [ht, statusOf_enqueue id' userId tool source now hfresh, if_neg hne, hst]
  | activate id now ht hown =>
    obtain ⟨st, hst, hp⟩ := hheld d' id' (hown d' id' ho)
    obtain ⟨hstaging, hpending⟩ := hactive st hp
    refine ⟨st, ?_, hp⟩
    rw [ht, statusOf_activate, hst]
    simp only [Option.map_some, hstaging, hpending, or_self, and_false, if_false]
  | repair id now hboot ht hown =>
    exact absurd (hown d' id' ho) (not_owns_of_sweeps (hsweep hboot d') id')
  | declare id detail now hverdict ht hown =>
    obtain ⟨st, hst, hp⟩ := hheld d' id' (hown d' id' ho)
    rw [ht, statusOf_markDead, hst]
    by_cases hid : id' = id
    · subst hid
      rcases hdead id' hverdict with hp' | hfree
      · exact ⟨.dead, by simp, hp'⟩
      · exact absurd (hown d' id' ho) (hfree d')
    · exact ⟨st, by simp [hid], hp⟩
  | claim d id now hpending ht hother hown =>
    rw [ht, statusOf_claim]
    by_cases hd : d' = d
    · subst hd
      have hid : id' = id := hown id' ho
      subst hid
      exact ⟨.running, by simp [hpending], hrunning⟩
    · rw [hother d' hd] at ho
      obtain ⟨st, hst, hp⟩ := hheld d' id' ho
      obtain ⟨_, hne⟩ := hactive st hp
      exact ⟨st, by simp [hst, hne], hp⟩
  | settle d w id now hown₀ ht hother hown =>
    by_cases hd : d' = d
    · subst hd
      exact absurd ho (hown id')
    · rw [hother d' hd] at ho
      obtain ⟨st, hst, hp⟩ := hheld d' id' ho
      have hid : id' ≠ id := by
        intro he
        subst he
        exact hd (howner d' d id' ho hown₀)
      refine ⟨st, ?_, hp⟩
      rw [ht, statusOf_settle, hst]
      simp only [Option.map_some, hid, if_false]

/-- INTERNAL: a drain that holds what it held before shares it with nobody. -/
theorem oneOwner_of_noNewOwner {s s' : State} (h : OneOwner s) (hown : NoNewOwner s s') :
    OneOwner s' :=
  fun d d' id ho ho' => h d d' id (hown d id ho) (hown d' id ho')

/-- INTERNAL: one owner is kept as long as no held row is pending. -/
theorem oneOwner_of_effect {s s' : State} {a : Action} (howner : OneOwner s)
    (hheld : HeldIn (· ≠ .pending) s) (h : Effect s a s') : OneOwner s' := by
  cases h with
  | keep ht hown => exact oneOwner_of_noNewOwner howner hown
  | insert id userId tool source now hfresh ht hown => exact oneOwner_of_noNewOwner howner hown
  | activate id now ht hown => exact oneOwner_of_noNewOwner howner hown
  | repair id now hboot ht hown => exact oneOwner_of_noNewOwner howner hown
  | declare id detail now hverdict ht hown => exact oneOwner_of_noNewOwner howner hown
  | claim d id now hpending ht hother hown =>
    have hfree : ∀ d', ¬ Owns (s.queue.drain d') id := by
      intro d' ho
      obtain ⟨st, hst, hne⟩ := hheld d' id ho
      rw [hpending, Option.some.injEq] at hst
      exact hne hst.symm
    intro d₁ d₂ id' h₁ h₂
    by_cases hd₁ : d₁ = d <;> by_cases hd₂ : d₂ = d
    · rw [hd₁, hd₂]
    · rw [hd₁] at h₁
      rw [hother d₂ hd₂, hown id' h₁] at h₂
      exact absurd h₂ (hfree d₂)
    · rw [hd₂] at h₂
      rw [hother d₁ hd₁, hown id' h₂] at h₁
      exact absurd h₁ (hfree d₁)
    · rw [hother d₁ hd₁] at h₁
      rw [hother d₂ hd₂] at h₂
      exact howner d₁ d₂ id' h₁ h₂
  | settle d w id now hheld ht hother hown =>
    apply oneOwner_of_noNewOwner howner
    intro d' id' ho
    by_cases hd : d' = d
    · rw [hd] at ho
      exact absurd ho (hown id')
    · rwa [hother d' hd] at ho

/-- The statuses a held row can be in: a verdict may fall on it, and nothing else may. -/
def Taken (st : QueueStatus) : Prop := st = .running ∨ st = .dead

/-- INTERNAL: a taken row is not one a claim could take. -/
theorem taken_not_waiting {st : QueueStatus} (h : Taken st) : st ≠ .staging ∧ st ≠ .pending := by
  rcases h with rfl | rfl
  · exact ⟨nofun, nofun⟩
  · exact ⟨nofun, nofun⟩

/-- What holds in every run. -/
structure Inv (s : State) : Prop where
  sweep : SweepAlone s
  owner : OneOwner s
  held : HeldIn Taken s

theorem inv_init : Inv State.init where
  sweep _ _ := trivial
  owner _ _ _ ho := ho.elim
  held _ _ ho := ho.elim

theorem inv_step {lim : QueueLimits} {s s' : State} {a : Action} (h : Inv s)
    (hstep : step lim s a = some s') : Inv s' := by
  have heffect := effect_of_step hstep
  refine ⟨sweepAlone_step h.sweep hstep, ?_, ?_⟩
  · apply oneOwner_of_effect h.owner _ heffect
    intro d id ho
    obtain ⟨st, hst, htaken⟩ := h.held d id ho
    exact ⟨st, hst, (taken_not_waiting htaken).2⟩
  · apply heldIn_of_effect (Or.inl rfl) _ _ h.sweep h.owner h.held heffect
    · intro st htaken
      exact taken_not_waiting htaken
    · intro id _
      exact Or.inl (Or.inr rfl)

/-! ## Terminal rows -/

/-- Under the condition every row a drain holds is running. -/
theorem heldRunning_step {lim : QueueLimits} {s s' : State} {a : Action} (hinv : Inv s)
    (hok : sparesClaimed s a) (h : HeldIn (· = .running) s) (hstep : step lim s a = some s') :
    HeldIn (· = .running) s' := by
  apply heldIn_of_effect (p := (· = .running)) rfl _ _ hinv.sweep hinv.owner h (effect_of_step hstep)
  · rintro st rfl
    exact ⟨nofun, nofun⟩
  · intro id hv
    exact Or.inr (hok id hv).2

/-- One step that meets the condition leaves the terminal rows as they are. -/
theorem terminalKept_step {lim : QueueLimits} {s s' : State} {a : Action}
    (hok : sparesClaimed s a) (h : HeldIn (· = .running) s) (hstep : step lim s a = some s') :
    TerminalKept s s' := by
  intro id' st hst hterminal
  have hstaging : st ≠ .staging := by rintro rfl; cases hterminal
  have hpending : st ≠ .pending := by rintro rfl; cases hterminal
  have hrunning : st ≠ .running := by rintro rfl; cases hterminal
  cases effect_of_step hstep with
  | keep ht hown => rw [ht, hst]
  | insert id userId tool source now hfresh ht hown =>
    have hne : id' ≠ id := ne_of_fresh hfresh hst
    rw [ht, statusOf_enqueue id' userId tool source now hfresh, if_neg hne, hst]
  | activate id now ht hown =>
    rw [ht, statusOf_activate, hst]
    simp only [Option.map_some, hstaging, hpending, or_self, and_false, if_false]
  | repair id now hboot ht hown =>
    rw [ht, statusOf_repairRunning, hst]
    simp only [Option.map_some, hrunning, and_false, if_false]
  | declare id detail now hverdict ht hown =>
    rw [ht, statusOf_markDead, hst]
    by_cases hid : id' = id
    · -- the row is terminal and not done, so it was dead already
      subst hid
      have hdone : st ≠ .done := by
        rintro rfl
        exact (hok id' hverdict).1 hst
      cases st with
      | dead => simp
      | done => exact absurd rfl hdone
      | staging => exact absurd rfl hstaging
      | pending => exact absurd rfl hpending
      | running => exact absurd rfl hrunning
    · simp only [Option.map_some, hid, if_false]
  | claim d id now hpending' ht hother hown =>
    rw [ht, statusOf_claim, hst]
    simp only [Option.map_some, hpending, and_false, if_false]
  | settle d w id now hheld ht hother hown =>
    have hid : id' ≠ id := by
      intro he
      subst he
      obtain ⟨st', hst', hrun⟩ := h d id' hheld
      rw [hst, Option.some.injEq] at hst'
      exact hrunning (hst'.trans hrun)
    rw [ht, statusOf_settle, hst]
    simp only [Option.map_some, hid, if_false]

/-- INTERNAL: the invariant of the runs that meet the condition. -/
theorem inv_and_heldRunning_of_run {lim : QueueLimits} {as : List Action} {s t : State}
    (h0 : Inv s ∧ HeldIn (· = .running) s) (hrun : exec (step lim) s as = some t)
    (hok : Meets (step lim) sparesClaimed s as) : Inv t ∧ HeldIn (· = .running) t := by
  apply exec_invariant_of_meets (fun s => Inv s ∧ HeldIn (· = .running) s) _ h0 hrun hok
  intro s a s' h hok hstep
  exact ⟨inv_step h.1 hstep, heldRunning_step h.1 hok h.2 hstep⟩

/-- INTERNAL: and along such a run the terminal rows stay as they are. -/
theorem terminalKept_of_run {lim : QueueLimits} {as : List Action} {s t : State}
    (h0 : Inv s ∧ HeldIn (· = .running) s) (hrun : exec (step lim) s as = some t)
    (hok : Meets (step lim) sparesClaimed s as) : TerminalKept s t := by
  induction as generalizing s with
  | nil =>
    simp only [exec_nil, Option.some.injEq] at hrun
    subst hrun
    intro id st hst _
    exact hst
  | cons a as ih =>
    obtain ⟨s', hs, hrest⟩ := exec_cons_eq_some.mp hrun
    have hok' := hok.2
    rw [hs] at hok'
    have h' : Inv s' ∧ HeldIn (· = .running) s' :=
      ⟨inv_step h0.1 hs, heldRunning_step h0.1 hok.1 h0.2 hs⟩
    have hfirst : TerminalKept s s' := terminalKept_step hok.1 h0.2 hs
    have hlast : TerminalKept s' t := ih h' hrest hok'
    intro id st hst hterminal
    exact hlast id st (hfirst id st hst hterminal) hterminal

/-- **Terminal rows and one owner.** In every run at most one drain believes it holds a
row; and in every run in which no verdict falls on a row that is done or held, a row that
has become done or dead keeps its status from there on. -/
theorem terminal_rows_and_one_owner (lim : QueueLimits) (as bs : List Action) (s t : State)
    (has : exec (step lim) State.init as = some s) (hbs : exec (step lim) s bs = some t) :
    OneOwner t ∧
      (Meets (step lim) sparesClaimed State.init (as ++ bs) → TerminalKept s t) := by
  have hs : Inv s := exec_invariant Inv (fun _ _ _ h hstep => inv_step h hstep) inv_init has
  have ht : Inv t := exec_invariant Inv (fun _ _ _ h hstep => inv_step h hstep) hs hbs
  refine ⟨ht.owner, ?_⟩
  intro hok
  obtain ⟨hfirst, hlast⟩ := meets_append has hok
  have h0 : Inv State.init ∧ HeldIn (· = .running) State.init :=
    ⟨inv_init, fun _ _ ho => ho.elim⟩
  exact terminalKept_of_run (inv_and_heldRunning_of_run h0 has hfirst) hbs hlast

/-- A step of the boot sweep. -/
def sweepStep : Action := .boot { now := 0 }

/-- A step of a `memory_add` call of user 1, numbered like its row. -/
def addStep (id : Uuid) (now : Instant) : Action :=
  .enqueue id { req := Mycelium.Analysis.AcknowledgedMutations.addRequest, id, now }

/-- A step of the drain worker. -/
def drainAt (now : Instant) : Action := .drain 0 { now }

/-- The process boots, and a call has written its payload when the worker wakes: the
staging reconciliation activates the row, and the pass claims, runs and settles it. -/
def integratedEarly : List Action :=
  [sweepStep, sweepStep, sweepStep, addStep 7 1, addStep 7 2, addStep 7 3] ++
    (List.range 13).map fun n => drainAt (n + 4)

/-- A second call inserts its row and cannot write its payload. -/
def blobUnwritable : List Action := [addStep 8 20, addStep 8 21, .enqueueFails 8]

/-- INTERNAL: a verdict on a staging row spares the claimed ones. -/
theorem sparesClaimed_of_staging {s : State} {a : Action} (h : HeldIn (· = .running) s)
    (hstaging : ∀ id, verdict s a = some id → statusOf s.queue.table id = some .staging) :
    sparesClaimed s a := by
  intro id hv
  rw [hstaging id hv]
  refine ⟨nofun, ?_⟩
  intro d ho
  obtain ⟨st, hst, hrun⟩ := h d id ho
  rw [hstaging id hv, Option.some.injEq] at hst
  rw [← hst] at hrun
  cases hrun

/-- INTERNAL: what holds after a run holds after its last part. -/
theorem continued_status {lim : QueueLimits} {as : List Action} {s : State} (bs : List Action)
    (id : Uuid) (st : QueueStatus) (has : exec (step lim) State.init as = some s)
    (hst : (exec (step lim) State.init (as ++ bs)).map (fun t => statusOf t.queue.table id) =
      some (some st)) :
    ∃ t, exec (step lim) s bs = some t ∧ statusOf t.queue.table id = some st := by
  rw [exec_append, has, Option.bind_some] at hst
  exact Option.map_eq_some_iff.mp hst

/-- The condition is met where an item is integrated and a later call abandons its own
staging row: the first row stays done, the second one is dead. -/
theorem terminal_rows_and_one_owner_abandoned :
    ∃ s t, exec (step {}) State.init integratedEarly = some s ∧
      exec (step {}) s (blobUnwritable ++ [.abandon 8 22 true]) = some t ∧
      statusOf s.queue.table 7 = some .done ∧ statusOf t.queue.table 8 = some .dead ∧
      OneOwner t ∧ TerminalKept s t := by
  obtain ⟨s, has, hdone⟩ : ∃ s, exec (step {}) State.init integratedEarly = some s ∧
      statusOf s.queue.table 7 = some .done :=
    continued_status integratedEarly 7 .done (exec_nil _ _) (by decide)
  obtain ⟨t, hbs, hdead⟩ := continued_status (blobUnwritable ++ [.abandon 8 22 true]) 8 .dead has
    (by decide)
  obtain ⟨u, hu, hverdict⟩ :
      ∃ u, exec (step {}) State.init (integratedEarly ++ blobUnwritable) = some u ∧
        (verdict u (.abandon 8 22 true), statusOf u.queue.table 8) = (some 8, some .staging) :=
    Option.map_eq_some_iff.mp (by decide)
  have hbefore : Meets (step {}) sparesClaimed State.init (integratedEarly ++ blobUnwritable) := by
    have hnone : Meets (step {}) (fun s a => verdict s a = none) State.init
        (integratedEarly ++ blobUnwritable) := by decide
    apply meets_mono _ hnone
    intro s a h id hv
    rw [h] at hv
    cases hv
  have h0 : Inv State.init ∧ HeldIn (· = .running) State.init :=
    ⟨inv_init, fun _ _ ho => ho.elim⟩
  have hmeets : Meets (step {}) sparesClaimed State.init
      (integratedEarly ++ (blobUnwritable ++ [.abandon 8 22 true])) := by
    rw [← List.append_assoc]
    apply meets_snoc hu hbefore
    apply sparesClaimed_of_staging (inv_and_heldRunning_of_run h0 hu hbefore).2
    intro id hv
    rw [(Prod.mk.inj hverdict).1, Option.some.injEq] at hv
    rw [← hv]
    exact (Prod.mk.inj hverdict).2
  have hmain := terminal_rows_and_one_owner {} integratedEarly _ s t has hbs
  exact ⟨s, t, has, hbs, hdone, hdead, hmain.1, hmain.2 hmeets⟩

/-- A done row turns dead: the call's staging note cannot be written once its row has
been activated, run and settled by the drain, and `abandon_row` marks it dead. -/
theorem abandon_overwrites_done :
    ∃ s t, exec (step {}) State.init integratedEarly = some s ∧
      exec (step {}) s [.enqueueFails 7, .abandon 7 20 true] = some t ∧
      statusOf s.queue.table 7 = some .done ∧ statusOf t.queue.table 7 = some .dead ∧
      ¬ TerminalKept s t := by
  obtain ⟨s, has, hdone⟩ : ∃ s, exec (step {}) State.init integratedEarly = some s ∧
      statusOf s.queue.table 7 = some .done :=
    continued_status integratedEarly 7 .done (exec_nil _ _) (by decide)
  obtain ⟨t, hbs, hdead⟩ := continued_status [.enqueueFails 7, .abandon 7 20 true] 7 .dead has
    (by decide)
  refine ⟨s, t, has, hbs, hdone, hdead, ?_⟩
  intro h
  have hkept := h 7 .done hdone rfl
  rw [hdead] at hkept
  cases hkept

end Mycelium.Analysis.QueueOwnership
