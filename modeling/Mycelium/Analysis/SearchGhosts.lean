import Mycelium.Lib.StepSystem
import Mycelium.Model.StoreTasks
import Mycelium.Analysis.UndoLog

/-!
# Search ghosts

A path of the search index that the registry does not know is a search ghost. A put
writes the registry row first and the index row after it, so that the index lags the
registry and never leads. A delete takes the two rows away in the same order, and there
the registry row goes while the index row is still in place.

`Effect` says what a storage step can do to the two tables. `ghostFree` is the condition
on a step under which it makes no ghost: no registry row is deleted from under its index
row, and no index row is written for a path that has lost its registry row. The runs
that never show a ghost are exactly those whose steps all meet it.

SOURCE: crates/mycelium-store/src/concept_store.rs
-/

set_option autoImplicit false

namespace Mycelium.Analysis.SearchGhosts

open StepSystem
open Mycelium.Model.Concepts Mycelium.Model.Revisions Mycelium.Model.ConceptStore
open Mycelium.Model.StoreTasks
open Mycelium.Analysis.UndoLog (plainCodec note newYear startPut steps)

/-! ## The two tables -/

def indexed (s : Store) (path : String) : Bool := (s.index path).isSome

/-- Every path of the search index is in the registry. -/
def NoGhost (s : Store) : Prop := ∀ path, indexed s path = true → s.registered path = true

/-- The concept whose index row the next step of a call writes. -/
def indexes : Pc → Option Concept
  | .addIndex c _ _ => some c
  | .reindexAdd c => some c
  | _ => none

/-- What one storage step does to the registry and the index, and where it leaves the
call that took it. -/
inductive Effect (s : Store) : Pc → Store × Pc → Prop where
  | frame {pc : Pc} {r : Store × Pc} (hreg : r.1.registry = s.registry)
      (hindex : r.1.index = s.index) (hpc : indexes pc = none) : Effect s pc r
  | register (c : Concept) (now : String) (todo : List Concept) (job : Job) :
      Effect s (.register c todo job) (s.register c now, .addIndex c todo job)
  | add {pc : Pc} (c : Concept) (hpc : indexes pc = some c) (pc' : Pc) :
      Effect s pc (s.addIndex c, pc')
  | unregister (path pre : String) :
      Effect s (.deleteEntry path pre) (s.unregister path, .deleteIndex path pre)
  | remove (path pre : String) :
      Effect s (.deleteIndex path pre) (s.removeIndex path, .deleteFile path pre)

theorem write_tables {s s' : Store} {path content : String} (hw : s.write path content = .ok s') :
    s'.registry = s.registry ∧ s'.index = s.index := by
  unfold Store.write at hw
  split at hw
  · cases hw
    exact ⟨rfl, rfl⟩
  · cases hw

theorem enqueueVector_tables (s : Store) (path : String) :
    (s.enqueueVector path).registry = s.registry ∧ (s.enqueueVector path).index = s.index := by
  obtain ⟨-, -, hregistry, -, hindex⟩ := enqueueVector_fields s path
  exact ⟨hregistry, hindex⟩

/-- INTERNAL: a step that only moves the call. -/
theorem Effect.same {s : Store} {pc pc' : Pc} (hpc : indexes pc = none) : Effect s pc (s, pc') :=
  .frame rfl rfl hpc

/-- INTERNAL: a step that writes a file, or fails before it. -/
theorem effect_write {s : Store} {path content : String} {pc next : Pc} (hpc : indexes pc = none) :
    Effect s pc (match s.write path content with
      | .error e => (s, Pc.finished (.error e))
      | .ok s' => (s', next)) := by
  cases hw : s.write path content with
  | error e => exact .same hpc
  | ok s' => exact .frame (write_tables hw).1 (write_tables hw).2 hpc

theorem effect_taskStep (cx : Codec) (s : Store) (ch : Choice) (pc : Pc) :
    Effect s pc (taskStep cx s ch pc) := by
  cases pc with
  | idle => exact .same rfl
  | restoreGet path no h =>
    simp only [taskStep]
    split
    · exact .same rfl
    · split
      · exact .same rfl
      · exact .same rfl
  | next todo job =>
    cases todo with
    | nil => exact .same rfl
    | cons c todo =>
      simp only [taskStep]
      split
      · exact .same rfl
      · split
        · exact .same rfl
        · split <;> exact .same rfl
  | lookup c markdown todo job =>
    simp only [taskStep]
    split <;> exact .same rfl
  | readPre c markdown todo job =>
    simp only [taskStep]
    split
    · exact .same rfl
    · exact .same rfl
    · split <;> exact .same rfl
  | record c markdown op payload pre todo job =>
    simp only [taskStep]
    split
    · exact .same rfl
    · exact .frame rfl rfl rfl
  | writeFile c markdown pre todo job => exact effect_write rfl
  | register c todo job => exact .register c (ch.clock 0) todo job
  | addIndex c todo job => exact .add c rfl _
  | enqueueVector c todo job =>
    obtain ⟨hreg, hindex⟩ := enqueueVector_tables s c.sourcePath
    exact .frame hreg hindex rfl
  | regenList deleted => exact .same rfl
  | regenWrite pending deleted =>
    cases pending with
    | nil => cases deleted <;> exact .same rfl
    | cons f rest => exact effect_write rfl
  | removeVector path => exact .frame rfl rfl rfl
  | invalidate => exact .frame rfl rfl rfl
  | deleteRead path h =>
    simp only [taskStep]
    split
    · exact .same rfl
    · exact .same rfl
    · split <;> exact .same rfl
  | deleteRecord path pre h => exact .frame rfl rfl rfl
  | deleteEntry path pre => exact .unregister path pre
  | deleteIndex path pre => exact .remove path pre
  | deleteFile path pre => exact .frame rfl rfl rfl
  | reindexRead path =>
    simp only [taskStep]
    split
    · exact .same rfl
    · exact .same rfl
    · split <;> exact .same rfl
  | reindexAdd c => exact .add c rfl _
  | finished r => exact .same rfl

@[simp] theorem indexed_register (s : Store) (c : Concept) (now path : String) :
    indexed (s.register c now) path = indexed s path := by
  obtain ⟨-, -, -, hindex⟩ := register_fields s c now
  unfold indexed
  rw [hindex]

@[simp] theorem indexed_unregister (s : Store) (gone path : String) :
    indexed (s.unregister gone) path = indexed s path := rfl

@[simp] theorem registered_addIndex (s : Store) (c : Concept) (path : String) :
    (s.addIndex c).registered path = s.registered path := rfl

@[simp] theorem registered_removeIndex (s : Store) (gone path : String) :
    (s.removeIndex gone).registered path = s.registered path := rfl

@[simp] theorem indexed_addIndex (s : Store) (c : Concept) (path : String) :
    indexed (s.addIndex c) path = (indexed s path || path = c.sourcePath) := by
  by_cases hp : path = c.sourcePath <;> simp [indexed, Store.addIndex, hp]

@[simp] theorem indexed_removeIndex (s : Store) (gone path : String) :
    indexed (s.removeIndex gone) path = (indexed s path && path ≠ gone) := by
  by_cases hp : path = gone <;> simp [indexed, Store.removeIndex, hp]

theorem registered_congr {s s' : Store} (h : s'.registry = s.registry) (path : String) :
    s'.registered path = s.registered path := by
  simp only [Store.registered, h]

theorem indexed_congr {s s' : Store} (h : s'.index = s.index) (path : String) :
    indexed s' path = indexed s path := by
  simp only [indexed, h]

/-! ## The condition -/

/-- No index row stands when its registry row is deleted, and the registry row stands
when an index row is written. -/
def makesNoGhost (s : Store) : Pc → Bool
  | .deleteEntry path _ => !indexed s path
  | .addIndex c _ _ => s.registered c.sourcePath
  | .reindexAdd c => s.registered c.sourcePath
  | _ => true

def ghostFree (s : State) : Action → Bool
  | .step i _ => makesNoGhost s.store (s.tasks i)
  | _ => true

theorem registered_of_indexes {s : Store} {pc : Pc} {c : Concept} (hpc : indexes pc = some c)
    (hok : makesNoGhost s pc = true) : s.registered c.sourcePath = true := by
  cases pc with
  | addIndex c' todo job =>
    cases hpc
    exact hok
  | reindexAdd c' =>
    cases hpc
    exact hok
  | _ => cases hpc

theorem noGhost_taskStep (cx : Codec) {s : Store} (ch : Choice) {pc : Pc} (h : NoGhost s)
    (hok : makesNoGhost s pc = true) : NoGhost (taskStep cx s ch pc).1 := by
  have heff := effect_taskStep cx s ch pc
  generalize taskStep cx s ch pc = r at heff
  intro path hix
  cases heff with
  | frame hreg hindex _ =>
    rw [indexed_congr hindex] at hix
    rw [registered_congr hreg]
    exact h path hix
  | register c now todo job =>
    rw [indexed_register] at hix
    rw [registered_register, h path hix, Bool.true_or]
  | add c hpc pc' =>
    rw [registered_addIndex]
    rw [indexed_addIndex, Bool.or_eq_true, decide_eq_true_eq] at hix
    rcases hix with hix | rfl
    · exact h path hix
    · exact registered_of_indexes hpc hok
  | unregister gone pre =>
    rw [indexed_unregister] at hix
    have hne : path ≠ gone := by
      rintro rfl
      simp [makesNoGhost, hix] at hok
    rw [registered_unregister, h path hix]
    simpa using hne
  | remove gone pre =>
    rw [indexed_removeIndex, Bool.and_eq_true] at hix
    exact h path hix.1

/-- INTERNAL: a step against the condition makes a ghost of its path. -/
theorem ghost_taskStep (cx : Codec) {s : Store} (ch : Choice) {pc : Pc}
    (hnot : makesNoGhost s pc = false) : ¬ NoGhost (taskStep cx s ch pc).1 := by
  intro hgood
  cases pc with
  | deleteEntry path pre =>
    have hix : indexed s path = true := by simpa [makesNoGhost] using hnot
    have hreg := hgood path hix
    rw [taskStep, registered_unregister] at hreg
    simp at hreg
  | addIndex c todo job =>
    have hreg := hgood c.sourcePath (by simp [taskStep])
    rw [taskStep, registered_addIndex] at hreg
    simp [makesNoGhost, hreg] at hnot
  | reindexAdd c =>
    have hreg := hgood c.sourcePath (by simp [taskStep])
    rw [taskStep, registered_addIndex] at hreg
    simp [makesNoGhost, hreg] at hnot
  | _ => cases hnot

theorem noGhost_step (cx : Codec) {s s' : State} {a : Action} (h : NoGhost s.store)
    (hok : ghostFree s a = true) (hs : step cx s a = some s') : NoGhost s'.store := by
  cases a with
  | start i hd call ch =>
    simp only [step] at hs
    split at hs
    · cases hs
      exact h
    · cases hs
      exact h
    · cases hs
  | step i ch =>
    cases hs
    exact noGhost_taskStep cx ch h hok
  | abort i =>
    cases hs
    exact h
  | crash =>
    cases hs
    exact h

theorem noGhost_init (scopeId : String) : NoGhost (State.init scopeId).store := by
  intro path hix
  cases hix

/-- When the index stays within the registry. Over every interleaving of puts, batches,
restores, deletes and reindexes, with a crash after any storage step, a run shows no
ghost in any of its states iff none of its steps deletes the registry row of an indexed
path or writes the index row of an unregistered one.
SOURCE: concept_store.rs:202-215, 377-413, 582-589, 644-665 -/
theorem no_search_ghost_iff (cx : Codec) (scopeId : String) (as : List Action) :
    (∀ n t, exec (step cx) (State.init scopeId) (as.take n) = some t → NoGhost t.store) ↔
      Meets (step cx) (fun s a => ghostFree s a = true) (State.init scopeId) as := by
  constructor
  · intro hgood
    apply meets_of_forall_take (fun t : State => NoGhost t.store) ?_ hgood
    intro s a hnot
    rw [Bool.not_eq_true] at hnot
    cases a with
    | step i ch => exact ⟨_, rfl, ghost_taskStep cx ch hnot⟩
    | _ => cases hnot
  · intro hmeets n t hrun
    exact exec_invariant_of_meets (fun t : State => NoGhost t.store)
      (fun s a s' h hok hs => noGhost_step cx h hok hs) (noGhost_init scopeId) hrun
      (meets_take hmeets n)

/-- A concept is put, and its delete crashes after the registry row is gone. -/
def tornDelete : List Action :=
  startPut 0 "8080" :: steps 0 12 ++
    .start 0 {} (.delete "/port.md") newYear :: steps 0 3 ++ [.crash]

/-- The torn delete leaves its path in the index without a registry row. -/
theorem torn_delete_leaves_ghost :
    ∃ t, exec (step plainCodec) (State.init "user:1") tornDelete = some t ∧
      indexed t.store "/port.md" = true ∧ t.store.registered "/port.md" = false :=
  ⟨_, rfl, by decide, by decide⟩

end Mycelium.Analysis.SearchGhosts
