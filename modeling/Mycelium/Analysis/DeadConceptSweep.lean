import Mycelium.Model.VectorWorker
import Mycelium.Analysis.SearchGhosts

/-!
# The dead-concept sweep and live concepts

The sweep takes away the index row of a path whose concept it could not read. Its read
and its removal are two steps, and a put of the path may run to its end between them, so
the row that goes may belong to a concept that lives again. A delete has the same gap
between its registry and its index step.

What holds in every state is `Covered`: a registered path has its index row, or a put of
it stands between the two writes. `sparesLive` is the condition on the removals that
keeps it. A run meets it exactly when all its states are covered, and when everything
has completed a covered store has the index row of every registered path.

SOURCE: crates/mycelium-store/src/concept_store.rs, crates/mycelium-librarian/src/vector_worker.rs
-/

set_option autoImplicit false

namespace Mycelium.Analysis.DeadConceptSweep

open StepSystem
open Mycelium.Model
open Mycelium.Model.Concepts Mycelium.Model.ConceptStore Mycelium.Model.StoreTasks
open Mycelium.Model.VectorWorker (workerStep upsertVector Site)
open Mycelium.Analysis.SearchGhosts
open Mycelium.Analysis.UndoLog (plainCodec note newYear)

/-- Every path of the registry has its search-index row. -/
def LiveIndexed (s : Store) : Prop := ∀ path, s.registered path = true → indexed s path = true

/-- Some put has registered the path and is about to write its index row. -/
def Registering (s : State) (path : String) : Prop :=
  ∃ i c todo job, s.tasks i = .addIndex c todo job ∧ c.sourcePath = path

def Covered (s : State) : Prop :=
  ∀ path, s.store.registered path = true → indexed s.store path = true ∨ Registering s path

/-! ## Steps of the calls -/

/-- The path whose index row the next step of a call removes. -/
def removes : Pc → Option String
  | .deleteIndex path _ => some path
  | _ => none

theorem registering_setTask {s : State} {store : Store} {i : ℕ}
    {pc : Pc} {path : String} (h : Registering s path) (hi : indexes (s.tasks i) = none) :
    Registering ({ s with store := store }.setTask i pc) path := by
  obtain ⟨j, c, todo, job, hj, hc⟩ := h
  have hne : j ≠ i := by
    rintro rfl
    rw [hj] at hi
    cases hi
  refine ⟨j, c, todo, job, ?_, hc⟩
  simp only [State.setTask, if_neg hne]
  exact hj

/-- INTERNAL: a call that writes an index row leaves every other path as covered as it was. -/
theorem covered_addIndex {s : State} {i : ℕ} {c : Concept} {pc : Pc}
    (h : Covered s) (hi : indexes (s.tasks i) = some c) :
    Covered ({ s with store := s.store.addIndex c }.setTask i pc) := by
  intro path hreg
  simp only [State.setTask] at hreg ⊢
  rw [registered_addIndex] at hreg
  by_cases hp : path = c.sourcePath
  · left
    simp [hp]
  · rcases h path hreg with hix | ⟨j, c', todo, job, hj, hc'⟩
    · left
      simp [hix]
    · right
      have hne : j ≠ i := by
        rintro rfl
        rw [hj] at hi
        cases hi
        exact hp hc'.symm
      refine ⟨j, c', todo, job, ?_, hc'⟩
      simp only [if_neg hne]
      exact hj

theorem covered_taskStep (cx : Codec) {s : State}
    (ch : Choice) (i : ℕ) (h : Covered s)
    (hok : ∀ path, removes (s.tasks i) = some path →
      s.store.registered path = false ∨ Registering s path) :
    Covered ({ s with store := (taskStep cx s.store ch (s.tasks i)).1 }.setTask i
      (taskStep cx s.store ch (s.tasks i)).2) := by
  have heff := effect_taskStep cx s.store ch (s.tasks i)
  generalize htask : s.tasks i = pc at heff hok
  generalize taskStep cx s.store ch pc = r at heff
  cases heff with
  | frame hreg hindex hpc =>
    intro path hp
    simp only [State.setTask] at hp
    rw [registered_congr hreg] at hp
    rcases h path hp with hix | hr
    · left
      exact (indexed_congr hindex path).trans hix
    · right
      exact registering_setTask hr (htask ▸ hpc)
  | register c now todo job =>
    intro path hp
    simp only [State.setTask] at hp
    rw [registered_register, Bool.or_eq_true, decide_eq_true_eq] at hp
    by_cases hc : path = c.sourcePath
    · right
      exact ⟨i, c, todo, job, by simp [State.setTask], hc.symm⟩
    · have hp' : s.store.registered path = true := hp.resolve_right hc
      rcases h path hp' with hix | hr
      · left
        exact (indexed_register s.store c now path).trans hix
      · right
        exact registering_setTask hr (by rw [htask]; rfl)
  | add c hpc pc' => exact covered_addIndex h (htask ▸ hpc)
  | unregister gone pre =>
    intro path hp
    simp only [State.setTask] at hp
    rw [registered_unregister, Bool.and_eq_true] at hp
    rcases h path hp.1 with hix | hr
    · left
      exact hix
    · right
      exact registering_setTask hr (by rw [htask]; rfl)
  | remove gone pre =>
    intro path hp
    simp only [State.setTask] at hp
    rw [registered_removeIndex] at hp
    by_cases hg : path = gone
    · subst hg
      rcases hok path rfl with hnot | hr
      · rw [hnot] at hp
        cases hp
      · right
        exact registering_setTask hr (by rw [htask]; rfl)
    · rcases h path hp with hix | hr
      · left
        simpa [State.setTask, hix] using hg
      · right
        exact registering_setTask hr (by rw [htask]; rfl)

/-! ## Steps of the worker -/

/-- The path whose index row the next step of the worker removes. -/
def sweeps (ch : VectorWorker.Choice) : VectorWorker.Pc → Option String
  | .sweepIndex path _ _ _ => if ch.removes then some path else none
  | _ => none

theorem upsertVector_tables (s : Store) (path : String) :
    (upsertVector s path).registry = s.registry ∧ (upsertVector s path).index = s.index := by
  unfold upsertVector
  split <;> exact ⟨rfl, rfl⟩

/-- INTERNAL: all that the worker does to the two tables is to remove an index row. -/
theorem workerStep_tables (cx : Codec) (s : Store) (ch : VectorWorker.Choice)
    (pc : VectorWorker.Pc) :
    (workerStep cx s ch pc).1.registry = s.registry ∧
      (workerStep cx s ch pc).1.index =
        match sweeps ch pc with
        | some path => (s.removeIndex path).index
        | none => s.index := by
  cases pc with
  | idle => exact ⟨rfl, rfl⟩
  | listing site docs =>
    simp only [workerStep]
    cases site <;> exact ⟨rfl, rfl⟩
  | walk site paths pairs =>
    cases paths with
    | nil => cases site <;> exact ⟨rfl, rfl⟩
    | cons path paths =>
      simp only [workerStep]
      split
      · cases site
        · exact enqueueVector_tables s path
        · exact ⟨rfl, rfl⟩
      · exact ⟨rfl, rfl⟩
      · exact ⟨rfl, rfl⟩
  | sweepIndex path site paths pairs =>
    simp only [workerStep, sweeps]
    cases ch.removes <;> exact ⟨rfl, rfl⟩
  | sweepVector path site paths pairs =>
    simp only [workerStep, sweeps]
    cases ch.removes <;> exact ⟨rfl, rfl⟩
  | embed pairs wrote =>
    cases pairs with
    | nil =>
      simp only [workerStep, sweeps]
      cases wrote <;> exact ⟨rfl, rfl⟩
    | cons path pairs =>
      simp only [workerStep, sweeps]
      cases ch.embeds
      · exact ⟨rfl, rfl⟩
      · exact upsertVector_tables s path

theorem covered_workerStep (cx : Codec) {s : State}
    (ch : VectorWorker.Choice) (pc : VectorWorker.Pc) (h : Covered s)
    (hok : ∀ path, sweeps ch pc = some path →
      s.store.registered path = false ∨ Registering s path) :
    Covered { s with store := (workerStep cx s.store ch pc).1 } := by
  obtain ⟨hreg, hindex⟩ := workerStep_tables cx s.store ch pc
  intro path hp
  rw [registered_congr hreg] at hp
  show indexed (workerStep cx s.store ch pc).1 path = true ∨ Registering s path
  cases hsw : sweeps ch pc with
  | none =>
    rw [hsw] at hindex
    rw [indexed_congr hindex]
    exact h path hp
  | some gone =>
    rw [hsw] at hindex
    rw [indexed_congr hindex]
    by_cases hg : path = gone
    · subst hg
      rcases hok path hsw with hnot | hr
      · rw [hnot] at hp
        cases hp
      · exact Or.inr hr
    · rcases h path hp with hix | hr
      · left
        simpa [hix] using hg
      · exact Or.inr hr

/-! ## The condition and the runs that meet it -/

/-- Where a step removes an index row, its path is not registered, or a put of the path
has yet to write the row. -/
def sparesLive (s : VectorWorker.State) :
    VectorWorker.Action → Prop
  | .step i _ => ∀ path, removes (s.calls.tasks i) = some path →
      s.calls.store.registered path = false ∨ Registering s.calls path
  | .work ch => ∀ path, sweeps ch s.worker = some path →
      s.calls.store.registered path = false ∨ Registering s.calls path
  | _ => True

theorem covered_start (cx : Codec) {s s' : State} {i : ℕ} {hd : Handle}
    {call : Call} {ch : Choice} (h : Covered s)
    (hs : step cx s (.start i hd call ch) = some s') : Covered s' := by
  have hidle : indexes (s.tasks i) = none ∧ s' = s.setTask i (call.begin cx hd ch.clock) := by
    simp only [step] at hs
    split at hs
    · rename_i hi
      cases hs
      exact ⟨by rw [hi]; rfl, rfl⟩
    · rename_i hi
      cases hs
      exact ⟨by rw [hi]; rfl, rfl⟩
    · cases hs
  obtain ⟨hi, rfl⟩ := hidle
  intro path hp
  rcases h path hp with hix | hr
  · left
    exact hix
  · right
    exact registering_setTask hr hi

theorem covered_step (cx : Codec) {s s' : VectorWorker.State}
    {a : VectorWorker.Action} (h : Covered s.calls) (hok : sparesLive s a)
    (hs : VectorWorker.step cx s a = some s') : Covered s'.calls := by
  cases a with
  | start i hd call ch =>
    obtain ⟨calls, hcalls, rfl⟩ := Option.map_eq_some_iff.mp hs
    exact covered_start cx h hcalls
  | step i ch =>
    cases hs
    exact covered_taskStep cx ch i h hok
  | list site docs =>
    simp only [VectorWorker.step] at hs
    split at hs
    · split at hs
      · cases hs
        exact h
      · cases hs
    · cases hs
  | work ch =>
    cases hs
    exact covered_workerStep cx ch s.worker h hok

/-- INTERNAL: a removal against the condition uncovers its path. -/
theorem not_covered_of_removed {s : State} (path : String)
    (hreg : s.store.registered path = true) (hix : indexed s.store path = false)
    (hr : ¬ Registering s path) : ¬ Covered s := by
  intro h
  rcases h path hreg with hix' | hr'
  · rw [hix] at hix'
    cases hix'
  · exact hr hr'

theorem not_registering_setTask {s : State} {store : Store} {i : ℕ}
    {pc : Pc} {path : String} (hr : ¬ Registering s path) (hpc : indexes pc = none) :
    ¬ Registering ({ s with store := store }.setTask i pc) path := by
  rintro ⟨j, c, todo, job, hj, hc⟩
  by_cases hji : j = i
  · simp only [State.setTask, hji, if_true] at hj
    rw [hj] at hpc
    cases hpc
  · simp only [State.setTask, if_neg hji] at hj
    exact hr ⟨j, c, todo, job, hj, hc⟩

theorem removes_eq_some {pc : Pc} {path : String} (h : removes pc = some path) :
    ∃ pre, pc = .deleteIndex path pre := by
  cases pc with
  | deleteIndex path' pre =>
    cases h
    exact ⟨pre, rfl⟩
  | _ => cases h

theorem uncovered_step (cx : Codec) {s : VectorWorker.State} {a : VectorWorker.Action}
    (hnot : ¬ sparesLive s a) :
    ∃ s', VectorWorker.step cx s a = some s' ∧ ¬ Covered s'.calls := by
  cases a with
  | start i hd call ch => exact absurd trivial hnot
  | list site docs => exact absurd trivial hnot
  | step i ch =>
    simp only [sparesLive, not_forall, not_or, Bool.not_eq_false] at hnot
    obtain ⟨path, hrem, hreg, hr⟩ := hnot
    obtain ⟨pre, hpc⟩ := removes_eq_some hrem
    refine ⟨_, rfl, not_covered_of_removed path ?_ ?_ ?_⟩
    · simp only [State.setTask, hpc, taskStep, registered_removeIndex]
      exact hreg
    · simp [State.setTask, hpc, taskStep]
    · apply not_registering_setTask hr
      simp only [hpc, taskStep, indexes]
  | work ch =>
    simp only [sparesLive, not_forall, not_or, Bool.not_eq_false] at hnot
    obtain ⟨path, hsw, hreg, hr⟩ := hnot
    obtain ⟨hregistry, hindex⟩ := workerStep_tables cx s.calls.store ch s.worker
    rw [hsw] at hindex
    refine ⟨_, rfl, not_covered_of_removed path ?_ ?_ hr⟩
    · exact (registered_congr hregistry path).trans hreg
    · rw [indexed_congr hindex]
      simp

theorem covered_ofStore {store : Store} (h : LiveIndexed store) :
    Covered (VectorWorker.State.ofStore store).calls := by
  intro path hp
  left
  exact h path hp

/-- INTERNAL: with nothing in flight no put stands between its two writes. -/
theorem liveIndexed_of_completed {s : VectorWorker.State} (h : Covered s.calls)
    (hdone : s.Completed) : LiveIndexed s.calls.store := by
  intro path hp
  rcases h path hp with hix | ⟨i, c, todo, job, hi, -⟩
  · exact hix
  · rcases hdone.2 i with hidle | ⟨r, hfin⟩
    · rw [hi] at hidle
      cases hidle
    · rw [hi] at hfin
      cases hfin

/-- When live concepts stay indexed. The calls on a store and the vector worker are
interleaved in any order from a store in which every registered path is indexed. Every
state of the run covers the registered paths iff each index row that a sweep or a delete
removes is of a path that is not registered then or whose put has yet to write the row;
and when everything has completed in such a run, every registered path has its row.
SOURCE: concept_store.rs:377-413, 644-681, vector_worker.rs:372-391, 590-623 -/
theorem live_concepts_stay_indexed (cx : Codec) (store : Store) (hlive : LiveIndexed store)
    (as : List VectorWorker.Action) :
    ((∀ n t, exec (VectorWorker.step cx) (.ofStore store) (as.take n) = some t →
        Covered t.calls) ↔
      Meets (VectorWorker.step cx) sparesLive (.ofStore store) as) ∧
    (Meets (VectorWorker.step cx) sparesLive (.ofStore store) as →
      ∀ n t, exec (VectorWorker.step cx) (.ofStore store) (as.take n) = some t →
        t.Completed → LiveIndexed t.calls.store) := by
  have hcovered : Meets (VectorWorker.step cx) sparesLive (.ofStore store) as →
      ∀ n t, exec (VectorWorker.step cx) (.ofStore store) (as.take n) = some t →
        Covered t.calls := by
    intro hmeets n t hrun
    exact exec_invariant_of_meets (fun t : VectorWorker.State => Covered t.calls)
      (fun s a s' h hok hs => covered_step cx h hok hs) (covered_ofStore hlive) hrun
      (meets_take hmeets n)
  refine ⟨⟨?_, hcovered⟩, ?_⟩
  · intro hgood
    exact meets_of_forall_take (fun t : VectorWorker.State => Covered t.calls)
      (fun s a hnot => uncovered_step cx hnot) hgood
  · intro hmeets n t hrun hdone
    exact liveIndexed_of_completed (hcovered hmeets n t hrun) hdone

/-! ## A swept dead concept and a swept live one -/

def call (call : Call) (n : ℕ) : List VectorWorker.Action :=
  .start 0 {} call newYear :: List.replicate n (.step 0 newYear)

/-- A put and the listing of its path, then the delete that runs before the worker reads. -/
def deletedWhileListed : List VectorWorker.Action :=
  call (.put (note "8080")) 12 ++ [.list .bootBacklog ["/port.md"], .work {}] ++
    call (.delete "/port.md") 10 ++ [.work {}]

/-- The sweep finishes right after its read. -/
def deadSwept : List VectorWorker.Action := deletedWhileListed ++ List.replicate 3 (.work {})

/-- A second put runs between the sweep's read and its removal. -/
def liveSwept : List VectorWorker.Action :=
  deletedWhileListed ++ call (.put (note "8081")) 12 ++ List.replicate 3 (.work {})

/-- The path of a removal is not registered. -/
def sparesDead (s : VectorWorker.State) : VectorWorker.Action → Bool
  | .step i _ => (removes (s.calls.tasks i)).all fun path => !s.calls.store.registered path
  | .work ch => (sweeps ch s.worker).all fun path => !s.calls.store.registered path
  | _ => true

theorem sparesLive_of_sparesDead (s : VectorWorker.State) (a : VectorWorker.Action)
    (h : sparesDead s a = true) : sparesLive s a := by
  cases a with
  | start i hd call ch => trivial
  | list site docs => trivial
  | step i ch =>
    intro path hpath
    left
    simpa [sparesDead, hpath] using h
  | work ch =>
    intro path hpath
    left
    simpa [sparesDead, hpath] using h

theorem completed_of_tasks {s : VectorWorker.State} (hworker : s.worker = .idle)
    (hone : ∃ r, s.calls.tasks 0 = .finished r) (hrest : ∀ i, i ≠ 0 → s.calls.tasks i = .idle) :
    s.Completed := by
  refine ⟨hworker, ?_⟩
  intro i
  by_cases hi : i = 0
  · right
    exact hi ▸ hone
  · left
    exact hrest i hi

/-- The sweep of the deleted concept meets the condition, and at its end the store is as
the theorem says. -/
theorem live_concepts_stay_indexed_dead_swept :
    ∃ t, exec (VectorWorker.step plainCodec) (.ofStore (Store.empty "user:1")) deadSwept = some t ∧
      t.Completed ∧ LiveIndexed t.calls.store := by
  have hmeets : Meets (VectorWorker.step plainCodec) sparesLive
      (.ofStore (Store.empty "user:1")) deadSwept := by
    apply meets_mono sparesLive_of_sparesDead
    decide
  refine ⟨_, rfl, ?_, ?_⟩
  · exact completed_of_tasks rfl ⟨_, rfl⟩ (fun i hi => by simp [State.setTask, hi]; rfl)
  · refine (live_concepts_stay_indexed plainCodec (Store.empty "user:1") ?_ deadSwept).2 hmeets
      deadSwept.length _ rfl ?_
    · intro path hp
      cases hp
    · exact completed_of_tasks rfl ⟨_, rfl⟩ (fun i hi => by simp [State.setTask, hi]; rfl)

/-- The sweep takes the index row of the concept that was put again after its read. -/
theorem sweep_unindexes_live_concept :
    ∃ t, exec (VectorWorker.step plainCodec) (.ofStore (Store.empty "user:1")) liveSwept = some t ∧
      t.Completed ∧ t.calls.tasks 0 = .finished (.ok ()) ∧
      t.calls.store.registered "/port.md" = true ∧ indexed t.calls.store "/port.md" = false := by
  refine ⟨_, rfl, ?_, rfl, by decide, by decide⟩
  exact completed_of_tasks rfl ⟨_, rfl⟩ (fun i hi => by simp [State.setTask, hi]; rfl)

end Mycelium.Analysis.DeadConceptSweep
