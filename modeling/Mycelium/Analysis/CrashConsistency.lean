import Mycelium.Analysis.UndoLog

/-!
# Crash consistency of the concept store

A put writes its file before it registers and indexes the path, and a delete takes the
path out of the registry and the index before it removes the file. So when calls run one
at a time, whatever the registry or the index names has a file, at every single step and
hence across crashes; and the file is one that a put wrote, because nothing else writes at
a path without a reserved name.

What was written is read off the run: `WrittenIn` says that one of its steps was the file
write of a put, with the markdown of its concept.
-/

set_option autoImplicit false

namespace Mycelium.Analysis.CrashConsistency

open Mycelium.Model.Concepts Mycelium.Model.Revisions Mycelium.Model.ConceptStore
open Mycelium.Model.StoreTasks StepSystem
open Mycelium.Analysis.UndoLog (BatchOk)

/-! ## The property -/

/-- The registry or the search index has the path. -/
def Known (s : Store) (path : String) : Prop :=
  s.registered path = true ∨ (s.index path).isSome = true

/-- A step of the run wrote the markdown of a concept of this path to its file. -/
def WrittenIn (cx : Codec) (s₀ : State) (as : List Action) (path markdown : String) : Prop :=
  ∃ before i ch after s c pre todo job, as = before ++ .step i ch :: after ∧
    exec (step cx) s₀ before = some s ∧ s.tasks i = .writeFile c markdown pre todo job ∧
    c.sourcePath = path ∧ c.toMarkdown cx = .ok markdown

/-- The calls that change concepts. -/
def isMutation : Call → Bool
  | .reindex _ => false
  | _ => true

/-- The actions of a scope whose mutating calls run one after the other. -/
def OneMutation : Action → Prop
  | .start i _ call _ => i = 0 ∧ isMutation call = true
  | .step i _ | .abort i => i = 0
  | .crash => True

instance decidableOneMutation : DecidablePred OneMutation
  | .start i _ call _ => inferInstanceAs (Decidable (i = 0 ∧ isMutation call = true))
  | .step i _ | .abort i => inferInstanceAs (Decidable (i = 0))
  | .crash => isTrue trivial

/-! ## The invariant -/

section Invariant

variable (cx : Codec) (written : String → String → Prop)

/-- The file of the path is one of the written ones. -/
def Backed (s : Store) (path : String) : Prop :=
  ∃ markdown, s.files path = some markdown ∧ written path markdown

def StoreOk (s : Store) : Prop :=
  ∀ path, Known s path → isReserved path = false ∧ Backed written s path

/-- What the call in flight relies on: the names it will use are ordinary, the markdown is
the one of its concept, the file it registers is there, and the path whose file it removes
is no longer known. -/
def PcOk (s : Store) : Pc → Prop
  | .next todo _ => BatchOk todo
  | .lookup c markdown todo _ | .readPre c markdown todo _ | .record c markdown _ _ _ todo _
  | .writeFile c markdown _ todo _ => BatchOk (c :: todo) ∧ c.toMarkdown cx = .ok markdown
  | .register c todo _ | .addIndex c todo _ => BatchOk (c :: todo) ∧ Backed written s c.sourcePath
  | .enqueueVector c todo _ => BatchOk (c :: todo)
  | .regenWrite pending _ => ∀ f ∈ pending, isReserved f.1 = true
  | .deleteIndex path _ => s.registered path = false
  | .deleteFile path _ => ¬ Known s path
  | .reindexRead _ | .reindexAdd _ => False
  | _ => True

/-- The store and the call in flight after a step. -/
def Good (r : Store × Pc) : Prop := StoreOk written r.1 ∧ PcOk cx written r.1 r.2

variable {cx written}

/-- INTERNAL: a batch enters its loop with ordinary names. -/
theorem pcOk_putBatchWithRevision (s : Store) (cs : List Concept) (job : Job)
    (clock : ℕ → String) : PcOk cx written s (putBatchWithRevision cx cs job clock) := by
  apply putBatchWithRevision_cases
  · intro r
    trivial
  · intro stamped hst
    exact not_reserved_of_stampAll hst

theorem pcOk_begin (s : Store) (h : Handle) (clock : ℕ → String) {call : Call}
    (hcall : isMutation call = true) : PcOk cx written s (call.begin cx h clock) := by
  apply begin_cases
  · intro r
    trivial
  · intro cs
    exact pcOk_putBatchWithRevision s cs _ clock
  · intro path no
    trivial
  · intro path
    trivial
  · rintro path rfl
    cases hcall

/-- INTERNAL: the paths known to the store are read off its registry and its index. -/
theorem known_congr {s s' : Store} {path : String} (hr : s'.registry = s.registry)
    (hi : s'.index = s.index) : Known s' path ↔ Known s path := by
  unfold Known Store.registered
  rw [hr, hi]

/-- INTERNAL: a step that touches neither files, nor registry, nor index. -/
theorem storeOk_frame {s s' : Store} (h : StoreOk written s) (hf : s'.files = s.files)
    (hr : s'.registry = s.registry) (hi : s'.index = s.index) : StoreOk written s' := by
  intro path hknown
  have hold := h path ((known_congr hr hi).mp hknown)
  refine ⟨hold.1, ?_⟩
  unfold Backed
  rw [hf]
  exact hold.2

/-- INTERNAL: a file written by a put keeps every known path backed. -/
theorem backed_write {s s' : Store} {path content p : String}
    (hw : s.write path content = .ok s') (hwritten : written path content)
    (h : Backed written s p) : Backed written s' p := by
  rw [write_eq_ok hw]
  by_cases hp : p = path
  · subst hp
    exact ⟨content, by simp, hwritten⟩
  · obtain ⟨markdown, hfile, hwas⟩ := h
    exact ⟨markdown, by simp [hp, hfile], hwas⟩

/-- INTERNAL: a file with a reserved name backs no known path. -/
theorem storeOk_write_reserved {s s' : Store} {path content : String} (h : StoreOk written s)
    (hw : s.write path content = .ok s') (hres : isReserved path = true) : StoreOk written s' := by
  rw [write_eq_ok hw]
  intro p hknown
  have hold := h p hknown
  refine ⟨hold.1, ?_⟩
  obtain ⟨markdown, hfile, hwas⟩ := hold.2
  have hne : p ≠ path := by
    rintro rfl
    rw [hres] at hold
    exact absurd hold.1 (by decide)
  exact ⟨markdown, by simp [hne, hfile], hwas⟩

/-! ## One step of a call -/

theorem good_register {s : Store} (h : StoreOk written s) {c : Concept} (now : String)
    {todo : List Concept} {job : Job} (hpc : PcOk cx written s (.register c todo job)) :
    Good cx written (s.register c now, .addIndex c todo job) := by
  obtain ⟨hbatch, hbacked⟩ := hpc
  obtain ⟨-, -, hfiles, hindex⟩ := register_fields s c now
  refine ⟨?_, hbatch, ?_⟩
  · intro path hknown
    have hsame : Backed written (s.register c now) path ↔ Backed written s path := by
      unfold Backed
      rw [hfiles]
    rw [hsame]
    rcases hknown with hreg | hidx
    · rw [registered_register, Bool.or_eq_true, decide_eq_true_eq] at hreg
      rcases hreg with hreg | rfl
      · exact h path (.inl hreg)
      · exact ⟨hbatch c List.mem_cons_self, hbacked⟩
    · rw [hindex] at hidx
      exact h path (.inr hidx)
  · unfold Backed
    rw [hfiles]
    exact hbacked

theorem good_addIndex {s : Store} (h : StoreOk written s) {c : Concept} {todo : List Concept}
    {job : Job} (hpc : PcOk cx written s (.addIndex c todo job)) :
    Good cx written (s.addIndex c, .enqueueVector c todo job) := by
  obtain ⟨hbatch, hbacked⟩ := hpc
  refine ⟨?_, hbatch⟩
  intro path hknown
  by_cases hp : path = c.sourcePath
  · subst hp
    exact ⟨hbatch c List.mem_cons_self, hbacked⟩
  · have hknown' : Known s path := by
      rcases hknown with hreg | hidx
      · exact .inl hreg
      · right
        simpa [Store.addIndex, hp] using hidx
    exact h path hknown'

/-- INTERNAL: taking a path out of the registry. -/
theorem good_deleteEntry {s : Store} (h : StoreOk written s) (path pre : String) :
    Good cx written (s.unregister path, .deleteIndex path pre) := by
  refine ⟨?_, ?_⟩
  · intro p hknown
    apply h p
    rcases hknown with hreg | hidx
    · rw [registered_unregister, Bool.and_eq_true] at hreg
      exact .inl hreg.1
    · exact .inr hidx
  · show (s.unregister path).registered path = false
    rw [registered_unregister]
    simp

/-- INTERNAL: and out of the index, after which it is not known any more. -/
theorem good_deleteIndex {s : Store} (h : StoreOk written s) {path pre : String}
    (hpc : PcOk cx written s (.deleteIndex path pre)) :
    Good cx written (s.removeIndex path, .deleteFile path pre) := by
  refine ⟨?_, ?_⟩
  · intro p hknown
    apply h p
    rcases hknown with hreg | hidx
    · exact .inl hreg
    · right
      by_cases hp : p = path
      · simp [Store.removeIndex, hp] at hidx
      · simpa [Store.removeIndex, hp] using hidx
  · rintro (hreg | hidx)
    · have hnot : s.registered path = false := hpc
      have hyes : s.registered path = true := hreg
      rw [hnot] at hyes
      cases hyes
    · simp [Store.removeIndex] at hidx

/-- INTERNAL: then its file may go. -/
theorem good_deleteFile {s : Store} (h : StoreOk written s) {path pre : String}
    (hpc : PcOk cx written s (.deleteFile path pre)) :
    Good cx written (s.deleteFile path, .regenList (some path)) := by
  refine ⟨?_, trivial⟩
  intro p hknown
  have hold := h p hknown
  have hne : p ≠ path := by
    rintro rfl
    exact hpc hknown
  refine ⟨hold.1, ?_⟩
  obtain ⟨markdown, hfile, hwas⟩ := hold.2
  exact ⟨markdown, by simp [Store.deleteFile, hne, hfile], hwas⟩

/-- INTERNAL: one step of the only call in flight, point by point. -/
theorem good_taskStep {s : Store} (h : StoreOk written s) (ch : Choice) {pc : Pc}
    (hpc : PcOk cx written s pc)
    (hwrites : ∀ c markdown pre todo job, pc = .writeFile c markdown pre todo job →
      c.toMarkdown cx = .ok markdown → written c.sourcePath markdown) :
    Good cx written (taskStep cx s ch pc) := by
  have hend (r : Except StoreError Unit) : Good cx written (s, .finished r) := ⟨h, trivial⟩
  cases pc with
  | idle => exact ⟨h, trivial⟩
  | restoreGet path no hd =>
    simp only [taskStep]
    split
    · exact hend _
    · split
      · exact hend _
      · refine ⟨h, ?_⟩
        dsimp only
        apply pcOk_putBatchWithRevision
  | next todo job =>
    cases todo with
    | nil => exact ⟨h, trivial⟩
    | cons c todo =>
      simp only [taskStep]
      split
      · exact hend _
      · rename_i markdown hmd
        split
        · exact ⟨h, hpc, hmd⟩
        · split <;> exact ⟨h, hpc, hmd⟩
  | lookup c markdown todo job =>
    simp only [taskStep]
    split <;> exact ⟨h, hpc⟩
  | readPre c markdown todo job =>
    simp only [taskStep]
    split
    · exact hend _
    · exact ⟨h, hpc⟩
    · split <;> exact ⟨h, hpc⟩
  | record c markdown op payload pre todo job =>
    simp only [taskStep]
    split
    · exact hend _
    · exact ⟨storeOk_frame h rfl rfl rfl, hpc⟩
  | writeFile c markdown pre todo job =>
    obtain ⟨hbatch, hmd⟩ := hpc
    have hwritten := hwrites c markdown pre todo job rfl hmd
    simp only [taskStep]
    split
    · exact hend _
    · rename_i s' hw
      refine ⟨?_, hbatch, ?_⟩
      · intro p hknown
        have hsame : Known s' p ↔ Known s p := by
          rw [write_eq_ok hw]
          exact known_congr rfl rfl
        have hold := h p (hsame.mp hknown)
        exact ⟨hold.1, backed_write hw hwritten hold.2⟩
      · rw [write_eq_ok hw]
        exact ⟨markdown, by simp, hwritten⟩
  | register c todo job => exact good_register h _ hpc
  | addIndex c todo job => exact good_addIndex h hpc
  | enqueueVector c todo job =>
    obtain ⟨-, -, hr, hf, hi⟩ := enqueueVector_fields s c.sourcePath
    exact ⟨storeOk_frame h hf hr hi, fun d hd => hpc d (List.mem_cons_of_mem c hd)⟩
  | regenList deleted => exact ⟨h, fun f hf => isReserved_of_mem_indexFiles hf⟩
  | regenWrite pending deleted =>
    cases pending with
    | nil => cases deleted <;> exact ⟨h, trivial⟩
    | cons f rest =>
      obtain ⟨path, content⟩ := f
      simp only [taskStep]
      split
      · exact hend _
      · rename_i s' hw
        have hres : isReserved path = true := hpc (path, content) List.mem_cons_self
        exact ⟨storeOk_write_reserved h hw hres, fun f hf => hpc f (List.mem_cons_of_mem _ hf)⟩
  | removeVector path => exact ⟨storeOk_frame h rfl rfl rfl, trivial⟩
  | invalidate => exact ⟨storeOk_frame h rfl rfl rfl, trivial⟩
  | deleteRead path hd =>
    simp only [taskStep]
    split
    · exact hend _
    · exact hend _
    · split <;> exact ⟨h, trivial⟩
  | deleteRecord path pre hd => exact ⟨storeOk_frame h rfl rfl rfl, trivial⟩
  | deleteEntry path pre => exact good_deleteEntry h path pre
  | deleteIndex path pre => exact good_deleteIndex h hpc
  | deleteFile path pre => exact good_deleteFile h hpc
  | reindexRead path => exact absurd hpc id
  | reindexAdd c => exact absurd hpc id
  | finished r => exact hend r

/-- INTERNAL: what was written stays written. -/
theorem good_mono {written' : String → String → Prop}
    (hsub : ∀ path markdown, written path markdown → written' path markdown) {s : Store} {pc : Pc}
    (h : Good cx written (s, pc)) : Good cx written' (s, pc) := by
  have hback : ∀ path, Backed written s path → Backed written' s path := by
    rintro path ⟨markdown, hfile, hwas⟩
    exact ⟨markdown, hfile, hsub path markdown hwas⟩
  refine ⟨fun path hknown => ⟨(h.1 path hknown).1, hback path (h.1 path hknown).2⟩, ?_⟩
  have hpc := h.2
  cases pc with
  | register c todo job => exact ⟨hpc.1, hback _ hpc.2⟩
  | addIndex c todo job => exact ⟨hpc.1, hback _ hpc.2⟩
  | _ => exact hpc

end Invariant

/-! ## Whole runs -/

/-- INTERNAL: a write of a run is a write of every longer one. -/
theorem writtenIn_snoc {cx : Codec} {s₀ : State} {as : List Action} {path markdown : String}
    (a : Action) (h : WrittenIn cx s₀ as path markdown) :
    WrittenIn cx s₀ (as ++ [a]) path markdown := by
  obtain ⟨before, i, ch, after, s, c, pre, todo, job, rfl, hrest⟩ := h
  exact ⟨before, i, ch, after ++ [a], s, c, pre, todo, job, by simp, hrest⟩

/-- INTERNAL: one step of a run in which one mutating call runs at a time. -/
theorem good_step (cx : Codec) (s₀ : State) {as : List Action} {s s' : State} {a : Action}
    (hrun : exec (step cx) s₀ as = some s)
    (h : Good cx (WrittenIn cx s₀ as) (s.store, s.tasks 0)) (ha : OneMutation a)
    (hs : step cx s a = some s') :
    Good cx (WrittenIn cx s₀ (as ++ [a])) (s'.store, s'.tasks 0) := by
  have hlater : Good cx (WrittenIn cx s₀ (as ++ [a])) (s.store, s.tasks 0) :=
    good_mono (fun _ _ hw => writtenIn_snoc a hw) h
  cases a with
  | start i hd call ch =>
    obtain ⟨rfl, hcall⟩ := ha
    have hgo : some (s.setTask 0 (call.begin cx hd ch.clock)) = some s' := by
      simp only [step] at hs
      split at hs
      · exact hs
      · exact hs
      · cases hs
    cases hgo
    refine ⟨hlater.1, ?_⟩
    simp only [State.setTask, ↓reduceIte]
    exact pcOk_begin s.store hd ch.clock hcall
  | step i ch =>
    have hi : i = 0 := ha
    subst hi
    cases hs
    have hstep := good_taskStep hlater.1 ch hlater.2 ?_
    · simpa [State.setTask] using hstep
    · intro c markdown pre todo job hpc hmd
      exact ⟨as, 0, ch, [], s, c, pre, todo, job, rfl, hrun, hpc, rfl, hmd⟩
  | abort i =>
    have hi : i = 0 := ha
    subst hi
    cases hs
    exact ⟨hlater.1, by simp [State.setTask, PcOk]⟩
  | crash =>
    cases hs
    exact ⟨storeOk_frame hlater.1 rfl rfl rfl, trivial⟩

/-- **Crash consistency.** Along every run of puts, batches, restores and deletes one at a
time, with crashes and dropped calls after any storage step, each path of the registry or
of the search index has a stored file, and its bytes are the markdown that the put of a
concept of this path wrote there. SOURCE: concept_store.rs:291-421, 612-665 -/
theorem known_path_has_written_file (cx : Codec) (scopeId : String) {as : List Action}
    {t : State} (hrun : exec (step cx) (State.init scopeId) as = some t)
    (hone : ∀ a ∈ as, OneMutation a) {path : String} (hknown : Known t.store path) :
    ∃ markdown, t.store.files path = some markdown ∧
      WrittenIn cx (State.init scopeId) as path markdown := by
  have hgood : (∀ a ∈ as, OneMutation a) →
      Good cx (WrittenIn cx (State.init scopeId) as) (t.store, t.tasks 0) := by
    refine exec_trace_invariant (fun as t => (∀ a ∈ as, OneMutation a) →
      Good cx (WrittenIn cx (State.init scopeId) as) (t.store, t.tasks 0)) ?_ ?_ hrun
    · intro _
      refine ⟨?_, trivial⟩
      rintro path (hreg | hidx)
      · simp [State.init, Store.empty, Store.registered] at hreg
      · simp [State.init, Store.empty] at hidx
    · intro as s a s' hs ih hstep hall
      apply good_step cx (State.init scopeId) hs _ (hall a (by simp)) hstep
      exact ih fun b hb => hall b (List.mem_append_left [a] hb)
  exact ((hgood hone).1 path hknown).2

/-- A put that crashes once it has written its file, and once it has registered it. -/
def crashing : List Action :=
  UndoLog.startPut 0 "8080" :: UndoLog.steps 0 4 ++ [.crash] ++
    UndoLog.startPut 0 "8081" :: UndoLog.steps 0 5 ++ [.crash]

theorem known_path_has_written_file_crashing :
    ∃ t, exec (step UndoLog.plainCodec) (State.init "user:1") crashing = some t ∧
      t.store.files "/port.md" = some (UndoLog.noteFile "8081") ∧
      ∃ markdown, t.store.files "/port.md" = some markdown ∧
        WrittenIn UndoLog.plainCodec (State.init "user:1") crashing "/port.md" markdown := by
  obtain ⟨t, hrun, hfacts⟩ := Option.map_eq_some_iff.mp
    (show (exec (step UndoLog.plainCodec) (State.init "user:1") crashing).map
        (fun t => (t.store.registered "/port.md", t.store.files "/port.md")) =
          some (true, some (UndoLog.noteFile "8081")) by decide)
  obtain ⟨hreg, hfile⟩ := Prod.ext_iff.mp hfacts
  refine ⟨t, hrun, hfile, ?_⟩
  have hone : ∀ a ∈ crashing, OneMutation a := by decide
  exact known_path_has_written_file UndoLog.plainCodec "user:1" hrun hone (.inl hreg)

end Mycelium.Analysis.CrashConsistency
