import Mycelium.Lib.StepSystem
import Mycelium.Model.StoreTasks

/-!
# What the undo log holds

Every call that changes a concept records a revision row before its effect. What it
records is the pre-state it read some steps earlier, so the log is complete exactly as
long as nothing else happens at the path in between.

When calls run one at a time nothing does, and the content a call destroys is the one it
recorded, whatever crashes came before (`undo_log_complete_across_crashes`). Two
overlapping updates both record the same old content, and the one that writes first is
overwritten without a row (`undo_log_loses_overlapping_update`); the runs in which every
destructive step still finds the content its call read are again complete
(`undo_log_complete`).
-/

set_option autoImplicit false

namespace Mycelium.Analysis.UndoLog

open Mycelium.Model.Concepts Mycelium.Model.Revisions Mycelium.Model.ConceptStore
open Mycelium.Model.StoreTasks StepSystem

/-! ## The property -/

/-- The content at a path: the path is registered and this is its file. -/
def live (s : Store) (path : String) : Option String :=
  if s.registered path then s.files path else none

/-- A later record of the same path pushed the row out: it is older than the newest
rows the retention in force then kept. -/
def FellOut (history : List (Revision × ℕ)) (r : Revision) : Prop :=
  ∃ e ∈ history, e.1.path = r.path ∧ r.revisionNo + e.2 ≤ e.1.revisionNo

/-- Some revision row of the path was recorded with this payload. -/
def Recorded (history : List (Revision × ℕ)) (path content : String) : Prop :=
  ∃ e ∈ history, e.1.path = path ∧ e.1.payload = content

/-- The content is the payload of a revision row of the path, which is in the chain
unless it fell out of the retention. -/
def Undoable (s : Store) (path content : String) : Prop :=
  ∃ e ∈ s.history, e.1.path = path ∧ e.1.payload = content ∧
    (e.1 ∈ s.revisions ∨ FellOut s.history e.1)

instance (history : List (Revision × ℕ)) (path content : String) :
    Decidable (Recorded history path content) :=
  inferInstanceAs (Decidable (∃ e ∈ history, e.1.path = path ∧ e.1.payload = content))

/-- At a step that overwrites or removes the content of a path, nothing is live there or
what is live is the pre-state the call has read. -/
def findsWhatItRead (s : Store) : Pc → Bool
  | .writeFile c _ pre _ _ =>
    isQueuePath c.sourcePath || live s c.sourcePath = none || live s c.sourcePath = pre
  | .deleteEntry path pre | .deleteFile path pre =>
    isQueuePath path || live s path = none || live s path = some pre
  | _ => true

/-- The condition on the steps of a run. -/
def undisturbed (s : State) : Action → Bool
  | .step i _ => findsWhatItRead s.store (s.tasks i)
  | _ => true

/-! ## Live content under the storage steps -/

theorem live_eq_some {s : Store} {path content : String} :
    live s path = some content ↔ s.registered path = true ∧ s.files path = some content := by
  unfold live
  by_cases h : s.registered path = true <;> simp [h]

/-- INTERNAL: a store with the same registry and the same file has the same live content. -/
theorem live_congr {s s' : Store} {path : String} (hr : s'.registry = s.registry)
    (hf : s'.files path = s.files path) : live s' path = live s path := by
  unfold live Store.registered
  rw [hr, hf]

theorem live_write {s s' : Store} {path content p : String} (hw : s.write path content = .ok s')
    (hp : p ≠ path) : live s' p = live s p := by
  unfold Store.write at hw
  split at hw
  · cases hw
    exact live_congr rfl (by simp [hp])
  · cases hw

theorem live_register {s : Store} {p content : String} (c : Concept) (now : String)
    (h : live s p = some content) : live (s.register c now) p = some content := by
  obtain ⟨hr, hf⟩ := live_eq_some.mp h
  obtain ⟨-, -, hfiles, -⟩ := register_fields s c now
  refine live_eq_some.mpr ⟨?_, ?_⟩
  · rw [registered_register, hr, Bool.true_or]
  · rw [hfiles, hf]

theorem live_unregister {s : Store} {path p : String} (hp : p ≠ path) :
    live (s.unregister path) p = live s p := by
  have hr := registered_unregister s path p
  unfold live
  rw [hr]
  simp [hp, Store.unregister]

theorem live_deleteFile {s : Store} {path p : String} (hp : p ≠ path) :
    live (s.deleteFile path) p = live s p :=
  live_congr rfl (by simp [Store.deleteFile, hp])

/-! ## The invariant -/

/-- Rows leave the log only through its retention, and no reserved name is registered. -/
structure StoreOk (s : Store) : Prop where
  retained : ∀ e ∈ s.history, e.1 ∈ s.revisions ∨ FellOut s.history e.1
  entries : ∀ p, s.registered p = true → isReserved p = false

/-- No concept of a batch has a reserved name. -/
def BatchOk (cs : List Concept) : Prop := ∀ c ∈ cs, isReserved c.sourcePath = false

/-- What a call knows at its point: its concepts have ordinary names, what it will record
or has recorded is the pre-state it read, and the files it regenerates are reserved. -/
def PcOk (history : List (Revision × ℕ)) : Pc → Prop
  | .next todo _ => BatchOk todo
  | .lookup c _ todo _ | .readPre c _ todo _ | .register c todo _ | .addIndex c todo _
  | .enqueueVector c todo _ => BatchOk (c :: todo)
  | .record c _ _ payload pre todo _ =>
    BatchOk (c :: todo) ∧ ∀ v, pre = some v → payload = v
  | .writeFile c _ pre todo _ =>
    BatchOk (c :: todo) ∧
      (isQueuePath c.sourcePath = false → ∀ v, pre = some v → Recorded history c.sourcePath v)
  | .deleteEntry path pre | .deleteIndex path pre | .deleteFile path pre =>
    isQueuePath path = false → Recorded history path pre
  | .regenWrite pending _ => ∀ f ∈ pending, isReserved f.1 = true
  | _ => True

structure Inv (s : State) : Prop where
  store : StoreOk s.store
  pcs : ∀ i, PcOk s.store.history (s.tasks i)

theorem recorded_mono {h h' : List (Revision × ℕ)} (hsub : h ⊆ h') {path content : String}
    (hr : Recorded h path content) : Recorded h' path content := by
  obtain ⟨e, he, hp⟩ := hr
  exact ⟨e, hsub he, hp⟩

theorem fellOut_mono {h h' : List (Revision × ℕ)} (hsub : h ⊆ h') {r : Revision}
    (hr : FellOut h r) : FellOut h' r := by
  obtain ⟨e, he, hp⟩ := hr
  exact ⟨e, hsub he, hp⟩

/-- INTERNAL: recording more rows keeps what a call knows. -/
theorem pcOk_mono {h h' : List (Revision × ℕ)} (hsub : h ⊆ h') {pc : Pc} (hpc : PcOk h pc) :
    PcOk h' pc := by
  cases pc with
  | writeFile c md pre todo job =>
    exact ⟨hpc.1, fun hq v hv => recorded_mono hsub (hpc.2 hq v hv)⟩
  | deleteEntry path pre => exact fun hq => recorded_mono hsub (hpc hq)
  | deleteIndex path pre => exact fun hq => recorded_mono hsub (hpc hq)
  | deleteFile path pre => exact fun hq => recorded_mono hsub (hpc hq)
  | _ => exact hpc

/-- INTERNAL: the store invariant reads the log, its history and the registry only. -/
theorem storeOk_congr {s s' : Store} (h : StoreOk s) (hh : s'.history = s.history)
    (hv : s'.revisions = s.revisions) (hr : s'.registry = s.registry) : StoreOk s' := by
  refine ⟨?_, ?_⟩
  · rw [hh, hv]
    exact h.retained
  · intro p hp
    unfold Store.registered at hp
    rw [hr] at hp
    exact h.entries p hp

theorem storeOk_record {s : Store} (h : StoreOk s) (d : Draft) (retention : ℕ) (now : String) :
    StoreOk (s.record d retention now) := by
  refine ⟨?_, h.entries⟩
  intro e he
  have hsub : s.history ⊆ (s.record d retention now).history :=
    fun _ hx => List.mem_cons_of_mem _ hx
  rcases List.mem_cons.mp he with rfl | he
  · exact Or.inl (row_mem_recordOnce _ _ _ _)
  · rcases h.retained e he with hin | hout
    · rcases mem_recordOnce_of_mem hin d retention now with hkept | ⟨hp, hno⟩
      · exact Or.inl hkept
      · exact Or.inr ⟨_, List.mem_cons_self, hp.symm, hno⟩
    · exact Or.inr (fellOut_mono hsub hout)

theorem storeOk_register {s : Store} (h : StoreOk s) {c : Concept} (now : String)
    (hc : isReserved c.sourcePath = false) : StoreOk (s.register c now) := by
  obtain ⟨hhist, hrev, -, -⟩ := register_fields s c now
  refine ⟨?_, ?_⟩
  · rw [hhist, hrev]
    exact h.retained
  · intro p hp
    rw [registered_register, Bool.or_eq_true, decide_eq_true_eq] at hp
    rcases hp with hp | rfl
    · exact h.entries p hp
    · exact hc

theorem storeOk_unregister {s : Store} (h : StoreOk s) (path : String) :
    StoreOk (s.unregister path) := by
  refine ⟨h.retained, ?_⟩
  intro p hp
  rw [registered_unregister, Bool.and_eq_true] at hp
  exact h.entries p hp.1

/-- INTERNAL: a batch enters its loop with ordinary names. -/
theorem pcOk_putBatchWithRevision (history : List (Revision × ℕ)) (cx : Codec)
    (cs : List Concept) (job : Job) (clock : ℕ → String) :
    PcOk history (putBatchWithRevision cx cs job clock) := by
  apply putBatchWithRevision_cases
  · intro r
    trivial
  · intro stamped hst
    exact not_reserved_of_stampAll hst

theorem pcOk_begin (history : List (Revision × ℕ)) (cx : Codec) (h : Handle)
    (clock : ℕ → String) (call : Call) : PcOk history (call.begin cx h clock) := by
  apply begin_cases
  · intro r
    trivial
  · intro cs
    exact pcOk_putBatchWithRevision history cx cs _ clock
  · intro path no
    trivial
  · intro path
    trivial
  · intro path _
    trivial

theorem recorded_record (s : Store) (d : Draft) (retention : ℕ) (now : String) :
    Recorded (s.record d retention now).history d.path d.payload :=
  ⟨_, List.mem_cons_self, rfl, rfl⟩

/-- What one step of a call leaves behind: a sound store, a call that knows what it did,
and at least the rows recorded before. -/
structure StepOk (s : Store) (r : Store × Pc) : Prop where
  store : StoreOk r.1
  pc : PcOk r.1.history r.2
  history : s.history ⊆ r.1.history

/-- INTERNAL: a step that leaves the store as it is. -/
theorem stepOk_same {s : Store} {pc : Pc} (h : StoreOk s) (hpc : PcOk s.history pc) :
    StepOk s (s, pc) :=
  ⟨h, hpc, List.Subset.refl _⟩

/-- INTERNAL: a step that touches neither the log nor the registry. -/
theorem stepOk_frame {s s' : Store} {pc : Pc} (h : StoreOk s) (hh : s'.history = s.history)
    (hv : s'.revisions = s.revisions) (hr : s'.registry = s.registry)
    (hpc : PcOk s.history pc) : StepOk s (s', pc) := by
  refine ⟨storeOk_congr h hh hv hr, ?_, ?_⟩
  · rw [hh]
    exact hpc
  · rw [hh]
    exact List.Subset.refl _

theorem stepOk_record {s : Store} {pc : Pc} (h : StoreOk s) (d : Draft) (retention : ℕ)
    (now : String) (hpc : PcOk (s.record d retention now).history pc) :
    StepOk s (s.record d retention now, pc) :=
  ⟨storeOk_record h d retention now, hpc, fun _ hx => List.mem_cons_of_mem _ hx⟩

/-- INTERNAL: one step of a call keeps the invariant, point by point. -/
theorem stepOk_taskStep (cx : Codec) {s : Store} (h : StoreOk s) (ch : Choice) {pc : Pc}
    (hpc : PcOk s.history pc) : StepOk s (taskStep cx s ch pc) := by
  cases pc with
  | idle => exact stepOk_same h trivial
  | restoreGet path no hd =>
    simp only [taskStep]
    split
    · exact stepOk_same h trivial
    · split
      · exact stepOk_same h trivial
      · exact stepOk_same h (pcOk_putBatchWithRevision _ _ _ _ _)
  | next todo job =>
    cases todo with
    | nil => exact stepOk_same h trivial
    | cons c todo =>
      have hb : BatchOk (c :: todo) := hpc
      simp only [taskStep]
      split
      · exact stepOk_same h trivial
      · split
        · exact stepOk_same h ⟨hb, fun _ _ hv => absurd hv (by simp)⟩
        · split
          · exact stepOk_same h hb
          · exact stepOk_same h ⟨hb, fun _ hv => absurd hv (by simp)⟩
          · exact stepOk_same h hb
  | lookup c md todo job =>
    simp only [taskStep]
    split
    · exact stepOk_same h hpc
    · exact stepOk_same h ⟨hpc, fun _ hv => absurd hv (by simp)⟩
  | readPre c md todo job =>
    simp only [taskStep]
    split
    · exact stepOk_same h trivial
    · exact stepOk_same h ⟨hpc, fun _ hv => by cases hv; rfl⟩
    · split <;> exact stepOk_same h ⟨hpc, fun _ hv => absurd hv (by simp)⟩
  | record c md op payload pre todo job =>
    obtain ⟨hb, hpre⟩ := hpc
    simp only [taskStep]
    split
    · exact stepOk_same h trivial
    · rename_i d hd
      obtain ⟨hpath, hpay⟩ := putDraft_eq_ok hd
      refine stepOk_record h d _ _ ⟨hb, fun _ v hv => ?_⟩
      have hrec := recorded_record s d ch.retention (ch.clock 0)
      rwa [hpath, hpay, hpre v hv] at hrec
  | writeFile c md pre todo job =>
    simp only [taskStep]
    split
    · exact stepOk_same h trivial
    · rename_i s' hw
      rw [write_eq_ok hw]
      exact stepOk_frame h rfl rfl rfl hpc.1
  | register c todo job =>
    obtain ⟨hhist, -, -, -⟩ := register_fields s c (ch.clock 0)
    refine ⟨storeOk_register h _ (hpc c List.mem_cons_self), hpc, ?_⟩
    rw [taskStep, hhist]
    exact List.Subset.refl _
  | addIndex c todo job => exact stepOk_frame h rfl rfl rfl hpc
  | enqueueVector c todo job =>
    obtain ⟨hh, hv, hr, -⟩ := enqueueVector_fields s c.sourcePath
    exact stepOk_frame h hh hv hr (fun d hd => hpc d (List.mem_cons_of_mem _ hd))
  | regenList deleted => exact stepOk_same h (fun f hf => isReserved_of_mem_indexFiles hf)
  | regenWrite pending deleted =>
    cases pending with
    | nil => cases deleted <;> exact stepOk_same h trivial
    | cons f rest =>
      obtain ⟨path, content⟩ := f
      simp only [taskStep]
      split
      · exact stepOk_same h trivial
      · rename_i s' hw
        rw [write_eq_ok hw]
        exact stepOk_frame h rfl rfl rfl (fun f hf => hpc f (List.mem_cons_of_mem _ hf))
  | removeVector path => exact stepOk_frame h rfl rfl rfl trivial
  | invalidate => exact stepOk_frame h rfl rfl rfl trivial
  | deleteRead path hd =>
    simp only [taskStep]
    split
    · exact stepOk_same h trivial
    · exact stepOk_same h trivial
    · split
      · rename_i hq
        exact stepOk_same h (fun hq' => absurd hq (by simp [hq']))
      · exact stepOk_same h trivial
  | deleteRecord path pre hd =>
    exact stepOk_record h _ _ _ (fun _ => recorded_record s (deleteDraft path pre hd) _ _)
  | deleteEntry path pre => exact ⟨storeOk_unregister h path, hpc, List.Subset.refl _⟩
  | deleteIndex path pre => exact stepOk_frame h rfl rfl rfl hpc
  | deleteFile path pre => exact stepOk_frame h rfl rfl rfl trivial
  | reindexRead path =>
    simp only [taskStep]
    split
    · exact stepOk_same h trivial
    · exact stepOk_same h trivial
    · split <;> exact stepOk_same h trivial
  | reindexAdd c => exact stepOk_frame h rfl rfl rfl trivial
  | finished r => exact stepOk_same h trivial

/-! ## No content is destroyed unrecorded -/

/-- The content is still there, or a row with it has been recorded. -/
def KeptOrRecorded (s : Store) (path content : String) : Prop :=
  live s path = some content ∨ Recorded s.history path content

/-- INTERNAL: a step that touches neither the registry nor the file keeps the content. -/
theorem kept_frame {s s' : Store} {p content : String} (hlive : live s p = some content)
    (hr : s'.registry = s.registry) (hf : s'.files = s.files) : KeptOrRecorded s' p content :=
  Or.inl (by rw [live_congr hr (by rw [hf]), hlive])

/-- INTERNAL: the content a destructive step finds has been recorded, when it is the one
its call read. -/
theorem recorded_of_found {s : Store} {path content : String} {pre : Option String}
    (hrec : isQueuePath path = false → ∀ v, pre = some v → Recorded s.history path v)
    (hfound : (isQueuePath path || live s path = none || live s path = pre) = true)
    (hq : isQueuePath path = false) (hlive : live s path = some content) :
    Recorded s.history path content := by
  have hpre : pre = some content := by
    rw [hq, hlive] at hfound
    simpa [eq_comm] using hfound
  exact hrec hq content hpre

/-- INTERNAL: a delete has always read something. -/
theorem recorded_of_deleted {s : Store} {path content pre : String}
    (hrec : isQueuePath path = false → Recorded s.history path pre)
    (hfound : (isQueuePath path || live s path = none || live s path = some pre) = true)
    (hq : isQueuePath path = false) (hlive : live s path = some content) :
    Recorded s.history path content := by
  refine recorded_of_found ?_ hfound hq hlive
  intro hq v hv
  cases hv
  exact hrec hq

/-- INTERNAL: one step of a call destroys no unrecorded content. Only three points touch
live content: the file write of a put, and the two deletions of a delete. -/
theorem kept_taskStep (cx : Codec) {s : Store} (h : StoreOk s) (ch : Choice) {pc : Pc}
    (hpc : PcOk s.history pc) (hfound : findsWhatItRead s pc = true) {p content : String}
    (hq : isQueuePath p = false) (hlive : live s p = some content) :
    KeptOrRecorded (taskStep cx s ch pc).1 p content := by
  have hsame : KeptOrRecorded s p content := Or.inl hlive
  cases pc with
  | idle => exact hsame
  | restoreGet path no hd =>
    simp only [taskStep]
    split
    · exact hsame
    · split <;> exact hsame
  | next todo job =>
    cases todo with
    | nil => exact hsame
    | cons c todo =>
      simp only [taskStep]
      split
      · exact hsame
      · split
        · exact hsame
        · split <;> exact hsame
  | lookup c md todo job => simp only [taskStep]; split <;> exact hsame
  | readPre c md todo job =>
    simp only [taskStep]
    split
    · exact hsame
    · exact hsame
    · split <;> exact hsame
  | record c md op payload pre todo job =>
    simp only [taskStep]
    split
    · exact hsame
    · exact kept_frame hlive rfl rfl
  | writeFile c md pre todo job =>
    simp only [taskStep]
    split
    · exact hsame
    · rename_i s' hw
      by_cases hp : p = c.sourcePath
      · subst hp
        right
        have hrec := recorded_of_found hpc.2 hfound hq hlive
        rw [write_eq_ok hw]
        exact hrec
      · exact Or.inl ((live_write hw hp).trans hlive)
  | register c todo job => exact Or.inl (live_register c _ hlive)
  | addIndex c todo job => exact kept_frame hlive rfl rfl
  | enqueueVector c todo job =>
    obtain ⟨-, -, hr, hf, -⟩ := enqueueVector_fields s c.sourcePath
    exact kept_frame hlive hr hf
  | regenList deleted => exact hsame
  | regenWrite pending deleted =>
    cases pending with
    | nil => cases deleted <;> exact hsame
    | cons f rest =>
      obtain ⟨path, content'⟩ := f
      have hres : isReserved path = true := hpc (path, content') List.mem_cons_self
      simp only [taskStep]
      split
      · exact hsame
      · rename_i s' hw
        -- an index.md is never a registered path
        have hp : p ≠ path := by
          rintro rfl
          have hnot := h.entries p (live_eq_some.mp hlive).1
          rw [hres] at hnot
          cases hnot
        exact Or.inl ((live_write hw hp).trans hlive)
  | removeVector path => exact kept_frame hlive rfl rfl
  | invalidate => exact kept_frame hlive rfl rfl
  | deleteRead path hd =>
    simp only [taskStep]
    split
    · exact hsame
    · exact hsame
    · split <;> exact hsame
  | deleteRecord path pre hd => exact kept_frame hlive rfl rfl
  | deleteEntry path pre =>
    by_cases hp : p = path
    · subst hp
      have hrec : Recorded s.history p content := recorded_of_deleted hpc hfound hq hlive
      exact Or.inr hrec
    · exact Or.inl ((live_unregister hp).trans hlive)
  | deleteIndex path pre => exact kept_frame hlive rfl rfl
  | deleteFile path pre =>
    by_cases hp : p = path
    · subst hp
      have hrec : Recorded s.history p content := recorded_of_deleted hpc hfound hq hlive
      exact Or.inr hrec
    · exact Or.inl ((live_deleteFile hp).trans hlive)
  | reindexRead path =>
    simp only [taskStep]
    split
    · exact hsame
    · exact hsame
    · split <;> exact hsame
  | reindexAdd c => exact kept_frame hlive rfl rfl
  | finished r => exact hsame

/-! ## The system -/

/-- INTERNAL: a task moves and the others keep what they know. -/
theorem inv_setTask {s : State} {store : Store} {i : ℕ} {pc : Pc} (h : Inv s)
    (hs : StoreOk store) (hsub : s.store.history ⊆ store.history) (hpc : PcOk store.history pc) :
    Inv ({ s with store := store }.setTask i pc) := by
  refine ⟨hs, ?_⟩
  intro j
  by_cases hj : j = i
  · simpa [State.setTask, hj] using hpc
  · simpa [State.setTask, hj] using pcOk_mono hsub (h.pcs j)

theorem inv_step (cx : Codec) {s s' : State} {a : Action} (h : Inv s)
    (hs : step cx s a = some s') : Inv s' ∧ s.store.history ⊆ s'.store.history := by
  have hrefl : s.store.history ⊆ s.store.history := List.Subset.refl _
  cases a with
  | start i hd call ch =>
    have hgo : some (s.setTask i (call.begin cx hd ch.clock)) = some s' := by
      simp only [step] at hs
      split at hs
      · exact hs
      · exact hs
      · cases hs
    cases hgo
    exact ⟨inv_setTask h h.store hrefl (pcOk_begin _ _ _ _ _), hrefl⟩
  | step i ch =>
    have hstep := stepOk_taskStep cx h.store ch (h.pcs i)
    cases hs
    exact ⟨inv_setTask h hstep.store hstep.history hstep.pc, hstep.history⟩
  | abort i =>
    cases hs
    exact ⟨inv_setTask h h.store hrefl trivial, hrefl⟩
  | crash =>
    cases hs
    exact ⟨⟨storeOk_congr h.store rfl rfl rfl, fun _ => trivial⟩, hrefl⟩

theorem kept_step (cx : Codec) {s s' : State} {a : Action} (h : Inv s)
    (hs : step cx s a = some s') (hok : undisturbed s a = true) {p content : String}
    (hq : isQueuePath p = false) (hlive : live s.store p = some content) :
    KeptOrRecorded s'.store p content := by
  cases a with
  | start i hd call ch =>
    simp only [step] at hs
    split at hs
    · cases hs
      exact Or.inl hlive
    · cases hs
      exact Or.inl hlive
    · cases hs
  | step i ch =>
    cases hs
    exact kept_taskStep cx h.store ch (h.pcs i) hok hq hlive
  | abort i =>
    cases hs
    exact Or.inl hlive
  | crash =>
    cases hs
    exact kept_frame hlive rfl rfl

theorem inv_init (scopeId : String) : Inv (State.init scopeId) := by
  refine ⟨⟨?_, ?_⟩, fun _ => trivial⟩
  · intro e he
    cases he
  · intro p hp
    cases hp

/-- INTERNAL: a run keeps the invariant and the rows recorded. -/
theorem inv_exec (cx : Codec) {s t : State} {as : List Action} (h : Inv s)
    (hrun : exec (step cx) s as = some t) : Inv t ∧ s.store.history ⊆ t.store.history := by
  refine exec_invariant (fun t => Inv t ∧ s.store.history ⊆ t.store.history) ?_
    ⟨h, List.Subset.refl _⟩ hrun
  rintro u a u' ⟨hu, hsub⟩ hs
  obtain ⟨hu', hsub'⟩ := inv_step cx hu hs
  exact ⟨hu', List.Subset.trans hsub hsub'⟩

/-- INTERNAL: over an undisturbed run a live content is kept or recorded. -/
theorem kept_exec (cx : Codec) {s t : State} {as : List Action} (h : Inv s)
    (hrun : exec (step cx) s as = some t)
    (hok : Meets (step cx) (fun s a => undisturbed s a = true) s as) {p content : String}
    (hq : isQueuePath p = false) (hlive : live s.store p = some content) :
    KeptOrRecorded t.store p content := by
  have hboth : Inv t ∧ KeptOrRecorded t.store p content := by
    refine exec_invariant_of_meets (fun t => Inv t ∧ KeptOrRecorded t.store p content) ?_
      ⟨h, Or.inl hlive⟩ hrun hok
    rintro u a u' ⟨hu, hkept⟩ hoku hs
    obtain ⟨hu', hsub⟩ := inv_step cx hu hs
    refine ⟨hu', ?_⟩
    rcases hkept with hlive | hrec
    · exact kept_step cx hu hs hoku hq hlive
    · exact Or.inr (recorded_mono hsub hrec)
  exact hboth.2

/-- INTERNAL: a recorded content is undoable: its row is in the chain or fell out. -/
theorem undoable_of_recorded {s : Store} (h : StoreOk s) {p content : String}
    (hrec : Recorded s.history p content) : Undoable s p content := by
  obtain ⟨e, he, hp, hc⟩ := hrec
  exact ⟨e, he, hp, hc, h.retained e he⟩

theorem recorded_of_undoable {s : Store} {p content : String} (h : Undoable s p content) :
    Recorded s.history p content := by
  obtain ⟨e, he, hp, hc, -⟩ := h
  exact ⟨e, he, hp, hc⟩

/-- Undo-log completeness under concurrency. Along every interleaving of any number of
puts, batches, restores and deletes (crashes and dropped calls included), a content that
was live at a path and is live there no longer is undoable from then on, provided every
step in between that overwrites or removes a path's content finds what its call had read
there. SOURCE: concept_store.rs:291-413, 434-454, 612-665 -/
theorem undo_log_complete (cx : Codec) (scopeId : String) (as bs cs : List Action)
    (s₁ s₂ s₃ : State) (hrun₁ : exec (step cx) (State.init scopeId) as = some s₁)
    (hrun₂ : exec (step cx) s₁ bs = some s₂) (hrun₃ : exec (step cx) s₂ cs = some s₃)
    (hok : Meets (step cx) (fun s a => undisturbed s a = true) s₁ bs) (path content : String)
    (hq : isQueuePath path = false) (hlive : live s₁.store path = some content)
    (hgone : live s₂.store path ≠ some content) : Undoable s₃.store path content := by
  have h₁ := (inv_exec cx (inv_init scopeId) hrun₁).1
  have h₂ := (inv_exec cx h₁ hrun₂).1
  obtain ⟨h₃, hsub⟩ := inv_exec cx h₂ hrun₃
  rcases kept_exec cx h₁ hrun₂ hok hq hlive with hkept | hrec
  · exact absurd hkept hgone
  · exact undoable_of_recorded h₃.store (recorded_mono hsub hrec)

/-- The YAML of a frontmatter that has a type and a confirmation time only. -/
def plainCodec : Codec where
  toYaml fm :=
    .ok ("type: " ++ fm.conceptType ++ "\nconfirmed_at: " ++ fm.confirmedAt.getD "" ++ "\n")
  fromYaml _ := .error "not a mapping"
  isRfc3339 _ := true

/-- A note at `/port.md`. -/
def note (body : String) : Concept where
  frontmatter := { conceptType := "note" }
  body := body
  sourcePath := "/port.md"

/-- The file of the note. -/
def noteFile (body : String) : String :=
  "---\ntype: note\nconfirmed_at: 2026-01-01T00:00:00+00:00\n---\n" ++ body

def newYear : Choice where
  clock _ := "2026-01-01T00:00:00+00:00"

def startPut (i : ℕ) (body : String) : Action := .start i {} (.put (note body)) newYear

def steps (i n : ℕ) : List Action := List.replicate n (.step i newYear)

/-- The note is created, and two updates of it have recorded it before the first of them
writes. -/
def overlapping : List Action :=
  startPut 0 "8080" :: steps 0 12 ++ startPut 1 "8081" :: startPut 2 "8082" :: steps 1 4 ++
    steps 2 4 ++ steps 1 1

/-- The first update runs to its end before the second starts. -/
def successive : List Action :=
  startPut 0 "8080" :: steps 0 12 ++ startPut 1 "8081" :: steps 1 13

/-- The condition is met by two updates that do not overlap: the overwritten content is
in the log. -/
theorem undo_log_complete_successive :
    ∃ s₁ s₂, exec (step plainCodec) (State.init "user:1") successive = some s₁ ∧
      exec (step plainCodec) s₁ (startPut 2 "8082" :: steps 2 5) = some s₂ ∧
      live s₂.store "/port.md" = some (noteFile "8082") ∧
      Undoable s₂.store "/port.md" (noteFile "8081") := by
  refine ⟨_, _, rfl, rfl, by decide, ?_⟩
  exact undo_log_complete plainCodec "user:1" successive (startPut 2 "8082" :: steps 2 5) [] _ _ _
    rfl rfl rfl (by decide) "/port.md" _ (by decide) (by decide) (by decide)

/-- Two overlapping updates: both record the first content, the second then overwrites
what the first has written, and no row holds it. -/
theorem undo_log_loses_overlapping_update :
    ∃ s₁ s₂, exec (step plainCodec) (State.init "user:1") overlapping = some s₁ ∧
      exec (step plainCodec) s₁ (steps 2 1) = some s₂ ∧
      live s₁.store "/port.md" = some (noteFile "8081") ∧
      live s₂.store "/port.md" = some (noteFile "8082") ∧
      ¬ Undoable s₂.store "/port.md" (noteFile "8081") := by
  refine ⟨_, _, rfl, rfl, by decide, by decide, ?_⟩
  intro hundo
  exact absurd (recorded_of_undoable hundo) (by decide)

/-! ## One call at a time -/

/-- The actions of a scope whose untagged calls run one after the other. -/
def OneAtATime : Action → Prop
  | .start i h _ _ => i = 0 ∧ h.revisionOp = none
  | .step i _ | .abort i => i = 0
  | .crash => True

/-- Nothing is live at the path or the call has read what is. -/
def Found (s : Store) (path : String) (pre : Option String) : Prop :=
  live s path = none ∨ live s path = pre

/-- What the only call in flight can rely on: from the read of the pre-state on, the live
content is the one it read. -/
def Alone (s : Store) : Pc → Prop
  | .next _ job | .lookup _ _ _ job | .readPre _ _ _ job | .register _ _ job | .addIndex _ _ job
  | .enqueueVector _ _ job => job.tag ≠ some .create
  | .record c _ _ _ pre _ job => job.tag ≠ some .create ∧ Found s c.sourcePath pre
  | .writeFile c _ pre _ job =>
    job.tag ≠ some .create ∧ (isQueuePath c.sourcePath = true ∨ Found s c.sourcePath pre)
  | .deleteRecord path pre _ | .deleteEntry path pre | .deleteIndex path pre
  | .deleteFile path pre => Found s path (some pre)
  | _ => True

theorem found_congr {s s' : Store} {path : String} {pre : Option String}
    (h : Found s path pre) (hr : s'.registry = s.registry) (hf : s'.files = s.files) :
    Found s' path pre := by
  unfold Found
  rw [live_congr hr (by rw [hf])]
  exact h

theorem found_of_unregistered {s : Store} {path : String} (pre : Option String)
    (h : s.registered path = false) : Found s path pre :=
  Or.inl (by simp [live, h])

/-- INTERNAL: a call that has just read the file has found what is live. -/
theorem found_of_read {s : Store} {path : String} {pre : Option String}
    (h : s.read path = .ok pre) : Found s path pre := by
  unfold Store.read at h
  split at h
  · cases h
    unfold Found live
    split
    · exact Or.inr rfl
    · exact Or.inl rfl
  · cases h

theorem alone_putBatchWithRevision (s : Store) (cx : Codec) (cs : List Concept) {job : Job}
    (clock : ℕ → String) (hjob : job.tag ≠ some .create) :
    Alone s (putBatchWithRevision cx cs job clock) := by
  apply putBatchWithRevision_cases
  · intro r
    trivial
  · intro stamped _
    exact hjob

theorem alone_begin (s : Store) (cx : Codec) {h : Handle} (clock : ℕ → String) (call : Call)
    (hop : h.revisionOp = none) : Alone s (call.begin cx h clock) := by
  apply begin_cases
  · intro r
    trivial
  · intro cs
    exact alone_putBatchWithRevision s cx cs clock (by simp [hop])
  · intro path no
    trivial
  · intro path
    trivial
  · intro path _
    trivial

/-- INTERNAL: the only call in flight keeps finding what it read. -/
theorem alone_taskStep (cx : Codec) {s : Store} (ch : Choice) {pc : Pc} (h : Alone s pc) :
    Alone (taskStep cx s ch pc).1 (taskStep cx s ch pc).2 := by
  cases pc with
  | idle => trivial
  | restoreGet path no hd =>
    simp only [taskStep]
    split
    · trivial
    · split
      · trivial
      · dsimp only
        refine alone_putBatchWithRevision s cx _ ch.clock ?_
        intro htag
        cases htag
  | next todo job =>
    cases todo with
    | nil => trivial
    | cons c todo =>
      simp only [taskStep]
      split
      · trivial
      · split
        · rename_i hq
          exact ⟨h, Or.inl hq⟩
        · split
          · exact h
          · rename_i htag
            exact absurd htag h
          · exact h
  | lookup c md todo job =>
    simp only [taskStep]
    split
    · exact h
    · rename_i hreg
      exact ⟨h, found_of_unregistered _ (by simpa using hreg)⟩
  | readPre c md todo job =>
    simp only [taskStep]
    split
    · trivial
    · rename_i pre hread
      exact ⟨h, found_of_read hread⟩
    · rename_i hread
      split <;> exact ⟨h, found_of_read hread⟩
  | record c md op payload pre todo job =>
    simp only [taskStep]
    split
    · trivial
    · exact ⟨h.1, Or.inr (found_congr h.2 rfl rfl)⟩
  | writeFile c md pre todo job =>
    simp only [taskStep]
    split
    · trivial
    · exact h.1
  | register c todo job => exact h
  | addIndex c todo job => exact h
  | enqueueVector c todo job => exact h
  | regenList deleted => trivial
  | regenWrite pending deleted =>
    cases pending with
    | nil => cases deleted <;> trivial
    | cons f rest => simp only [taskStep]; split <;> trivial
  | removeVector path => trivial
  | invalidate => trivial
  | deleteRead path hd =>
    simp only [taskStep]
    split
    · trivial
    · trivial
    · rename_i pre hread
      have hfound := found_of_read hread
      split <;> exact hfound
  | deleteRecord path pre hd => exact found_congr h rfl rfl
  | deleteEntry path pre =>
    refine found_of_unregistered _ ?_
    rw [taskStep, registered_unregister]
    simp
  | deleteIndex path pre => exact found_congr h rfl rfl
  | deleteFile path pre => trivial
  | reindexRead path =>
    simp only [taskStep]
    split
    · trivial
    · trivial
    · split <;> trivial
  | reindexAdd c => trivial
  | finished r => trivial

theorem findsWhatItRead_of_alone {s : Store} {pc : Pc} (h : Alone s pc) :
    findsWhatItRead s pc = true := by
  cases pc with
  | writeFile c md pre todo job =>
    rcases h.2 with hq | hn | he
    · simp [findsWhatItRead, hq]
    · simp [findsWhatItRead, hn]
    · simp [findsWhatItRead, he]
  | deleteEntry path pre => rcases h with hn | he <;> simp [findsWhatItRead, *]
  | deleteFile path pre => rcases h with hn | he <;> simp [findsWhatItRead, *]
  | _ => rfl

theorem alone_step (cx : Codec) {s s' : State} {a : Action} (h : Alone s.store (s.tasks 0))
    (ha : OneAtATime a) (hs : step cx s a = some s') : Alone s'.store (s'.tasks 0) := by
  cases a with
  | start i hd call ch =>
    obtain ⟨rfl, hop⟩ := ha
    have hgo : some (s.setTask 0 (call.begin cx hd ch.clock)) = some s' := by
      simp only [step] at hs
      split at hs
      · exact hs
      · exact hs
      · cases hs
    cases hgo
    simpa [State.setTask] using alone_begin s.store cx ch.clock call hop
  | step i ch =>
    cases ha
    cases hs
    simpa [State.setTask] using alone_taskStep cx ch h
  | abort i =>
    cases ha
    cases hs
    simp [State.setTask, Alone]
  | crash =>
    cases hs
    trivial

/-- INTERNAL: calls that run one at a time are undisturbed. -/
theorem meets_of_oneAtATime (cx : Codec) {s : State} {as : List Action}
    (h : Alone s.store (s.tasks 0)) (ha : ∀ a ∈ as, OneAtATime a) :
    Meets (step cx) (fun s a => undisturbed s a = true) s as := by
  induction as generalizing s with
  | nil => trivial
  | cons a as ih =>
    have ha₀ : OneAtATime a := ha a List.mem_cons_self
    refine ⟨?_, ?_⟩
    · cases a with
      | step i ch =>
        cases ha₀
        exact findsWhatItRead_of_alone h
      | _ => rfl
    · cases hs : step cx s a with
      | none => trivial
      | some s' =>
        exact ih (alone_step cx h ha₀ hs) (fun b hb => ha b (List.mem_cons_of_mem _ hb))

theorem alone_exec (cx : Codec) {s t : State} {as : List Action}
    (h : Alone s.store (s.tasks 0)) (ha : ∀ a ∈ as, OneAtATime a)
    (hrun : exec (step cx) s as = some t) : Alone t.store (t.tasks 0) := by
  induction as generalizing s with
  | nil =>
    cases hrun
    exact h
  | cons a as ih =>
    obtain ⟨s', hs, hrest⟩ := exec_cons_eq_some.mp hrun
    exact ih (alone_step cx h (ha a List.mem_cons_self) hs)
      (fun b hb => ha b (List.mem_cons_of_mem _ hb)) hrest

/-- Undo-log completeness across crashes. When untagged puts, batches, restores and
deletes run one at a time, with a crash after any storage step, every content that was
live at a path and was later overwritten or deleted is the payload of a revision row of
the path from then on, unless that row fell out of the retention.
SOURCE: concept_store.rs:291-413, 434-454, 612-665, revisions.rs:706-781 -/
theorem undo_log_complete_across_crashes (cx : Codec) (scopeId : String)
    (as bs cs : List Action) (s₁ s₂ s₃ : State)
    (hrun₁ : exec (step cx) (State.init scopeId) as = some s₁)
    (hrun₂ : exec (step cx) s₁ bs = some s₂) (hrun₃ : exec (step cx) s₂ cs = some s₃)
    (hseq : ∀ a ∈ as ++ bs ++ cs, OneAtATime a) (path content : String)
    (hq : isQueuePath path = false) (hlive : live s₁.store path = some content)
    (hgone : live s₂.store path ≠ some content) : Undoable s₃.store path content := by
  have h₁ := (inv_exec cx (inv_init scopeId) hrun₁).1
  have h₂ := (inv_exec cx h₁ hrun₂).1
  obtain ⟨h₃, hsub⟩ := inv_exec cx h₂ hrun₃
  have halone : Alone s₁.store (s₁.tasks 0) :=
    alone_exec cx (s := State.init scopeId) trivial (fun a ha => hseq a (by simp [ha])) hrun₁
  have hok := meets_of_oneAtATime cx halone (fun a (ha : a ∈ bs) => hseq a (by simp [ha]))
  rcases kept_exec cx h₁ hrun₂ hok hq hlive with hkept | hrec
  · exact absurd hkept hgone
  · exact undoable_of_recorded h₃.store (recorded_mono hsub hrec)

/-- A put that crashes between its file and its registry row, and one that succeeds. -/
def crashedThenPut : List Action :=
  startPut 0 "8080" :: steps 0 4 ++ .crash :: startPut 0 "8081" :: steps 0 12

/-- An update that crashes right after its file write. -/
def crashedUpdate : List Action := startPut 0 "8082" :: steps 0 5 ++ [.crash]

/-- The orphan file of the crashed put is overwritten as a create, and the content that
the crashed update overwrites is in the log. -/
theorem undo_log_complete_across_crashes_update :
    ∃ s₁ s₂, exec (step plainCodec) (State.init "user:1") crashedThenPut = some s₁ ∧
      exec (step plainCodec) s₁ crashedUpdate = some s₂ ∧
      live s₂.store "/port.md" = some (noteFile "8082") ∧
      Undoable s₂.store "/port.md" (noteFile "8081") := by
  refine ⟨_, _, rfl, rfl, by decide, ?_⟩
  refine undo_log_complete_across_crashes plainCodec "user:1" crashedThenPut crashedUpdate []
    _ _ _ rfl rfl rfl ?_ "/port.md" _ (by decide) (by decide) (by decide)
  intro a ha
  simp only [crashedThenPut, crashedUpdate, startPut, steps, List.mem_append, List.mem_cons,
    List.mem_replicate, List.not_mem_nil, or_false] at ha
  rcases ha with (((rfl | ⟨-, rfl⟩) | rfl | rfl | ⟨-, rfl⟩) | (rfl | ⟨-, rfl⟩) | rfl) <;>
    simp [OneAtATime]

end Mycelium.Analysis.UndoLog
