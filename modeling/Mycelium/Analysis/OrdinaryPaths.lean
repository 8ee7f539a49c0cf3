import Mycelium.Analysis.CallCompletion

/-!
# The registered paths

The paths of the registry are those that a put accepts: below the scope's root, not of the
mutation queue and of no reserved name. The registry has one row for a path.

`Ordinary` holds of the empty store, a public call begins well (`pcOrdinary_begin`) and each
of its storage steps keeps it (`ordinary_taskStep`).
-/

set_option autoImplicit false

namespace Mycelium.Analysis.OrdinaryPaths

open Mycelium.Model.Text Mycelium.Model.Concepts Mycelium.Model.Revisions
open Mycelium.Model.ConceptStore Mycelium.Model.StoreTasks
open Mycelium.Analysis.ConceptRoundTrip Mycelium.Analysis.CallCompletion

/-- A put accepts the path. -/
def Accepts (path : String) : Prop := isQueuePath path = false ∧ isReserved path = false

structure Ordinary (s : Store) : Prop where
  distinct : (s.registry.map ConceptEntry.path).Nodup
  valid : ∀ e ∈ s.registry, validPath e.path = true
  accepted : ∀ e ∈ s.registry, Accepts e.path

theorem ordinary_empty (scopeId : String) : Ordinary (Store.empty scopeId) where
  distinct := List.nodup_nil
  valid := by simp [Store.empty]
  accepted := by simp [Store.empty]

variable {s s' : Store}

theorem Ordinary.of_registry (hs : Ordinary s) (h : s'.registry = s.registry) : Ordinary s' where
  distinct := h ▸ hs.distinct
  valid := h ▸ hs.valid
  accepted := h ▸ hs.accepted

theorem ordinary_register (hs : Ordinary s) {c : Concept} (now : String)
    (hvalid : validPath c.sourcePath = true) (haccepts : Accepts c.sourcePath) :
    Ordinary (s.register c now) := by
  refine ⟨?_, ?_, ?_⟩
  · exact nodup_register hs.distinct c now
  · intro e he
    rcases path_of_mem_register he with h | ⟨d, hd, h⟩
    · rw [h]
      exact hvalid
    · rw [← h]
      exact hs.valid d hd
  · intro e he
    rcases path_of_mem_register he with h | ⟨d, hd, h⟩
    · rw [h]
      exact haccepts
    · rw [← h]
      exact hs.accepted d hd

theorem ordinary_unregister (hs : Ordinary s) (path : String) : Ordinary (s.unregister path) where
  distinct := hs.distinct.sublist (List.filter_sublist.map _)
  valid e he := hs.valid e (List.mem_of_mem_filter he)
  accepted e he := hs.accepted e (List.mem_of_mem_filter he)

/-! ## Calls in flight -/

def BatchAccepted (cs : List Concept) : Prop := ∀ c ∈ cs, Accepts c.sourcePath

/-- What a public call knows at its point. -/
def PcOrdinary : Pc → Prop
  | .restoreGet path _ _ => isQueuePath path = false
  | .next todo _ => BatchAccepted todo
  | .lookup c _ todo _ | .readPre c _ todo _ | .record c _ _ _ _ todo _
  | .writeFile c _ _ todo _ => Accepts c.sourcePath ∧ BatchAccepted todo
  | .register c todo _ =>
    validPath c.sourcePath = true ∧ Accepts c.sourcePath ∧ BatchAccepted todo
  | .addIndex _ todo _ | .enqueueVector _ todo _ => BatchAccepted todo
  | _ => True

/-- The calls from outside: the queue's own puts and deletes are not among them. -/
def Public : Call → Prop
  | .putBatchInternal _ | .deleteInternal _ => False
  | _ => True

variable {cx : Codec}

theorem pcOrdinary_putBatchWithRevision {cs : List Concept} (job : Job) (clock : ℕ → String)
    (hcs : ∀ c ∈ cs, isQueuePath c.sourcePath = false) :
    PcOrdinary (putBatchWithRevision cx cs job clock) := by
  apply putBatchWithRevision_cases
  · intro r
    trivial
  · intro stamped hst d hd
    refine ⟨?_, not_reserved_of_stampAll hst d hd⟩
    obtain ⟨d', hd', _, hstamp⟩ := stamp_of_mem_stampAll hst hd
    rw [(stamp_eq_ok hstamp).1]
    exact hcs d' hd'

theorem pcOrdinary_begin (h : Handle) (clock : ℕ → String) {call : Call} (hcall : Public call) :
    PcOrdinary (call.begin cx h clock) := by
  cases call with
  | put c =>
    simp only [Call.begin]
    split
    · trivial
    · rename_i hqueue
      apply pcOrdinary_putBatchWithRevision
      intro d hd
      rw [List.mem_singleton.mp hd]
      exact eq_false_of_ne_true hqueue
  | putBatch cs =>
    simp only [Call.begin]
    split
    · trivial
    · rename_i hfind
      apply pcOrdinary_putBatchWithRevision
      intro d hd
      exact eq_false_of_ne_true (List.find?_eq_none.mp hfind d hd)
  | restore path no =>
    simp only [Call.begin]
    split
    · trivial
    · rename_i hqueue
      exact eq_false_of_ne_true hqueue
  | delete path => simp only [Call.begin]; split <;> trivial
  | reindex path => simp only [Call.begin]; split <;> trivial
  | putBatchInternal cs => exact hcall.elim
  | deleteInternal path => exact hcall.elim

/-- INTERNAL: one step of a call, point by point. -/
theorem ordinary_taskStep (hs : Ordinary s) (ch : Choice) {pc : Pc} (hpc : PcOrdinary pc) :
    Ordinary (taskStep cx s ch pc).1 ∧ PcOrdinary (taskStep cx s ch pc).2 := by
  cases pc with
  | restoreGet path no hd =>
    simp only [taskStep]
    split
    · exact ⟨hs, trivial⟩
    · split
      · exact ⟨hs, trivial⟩
      · rename_i c hparse
        refine ⟨hs, ?_⟩
        dsimp only
        apply pcOrdinary_putBatchWithRevision
        intro d hd
        rw [List.mem_singleton.mp hd, (parse_eq_ok hparse).1]
        exact hpc
  | next todo job =>
    cases todo with
    | nil => exact ⟨hs, trivial⟩
    | cons c todo =>
      have hc : Accepts c.sourcePath := hpc c List.mem_cons_self
      have hrest : BatchAccepted todo := fun d hd => hpc d (List.mem_cons_of_mem c hd)
      simp only [taskStep]
      split
      · exact ⟨hs, trivial⟩
      · split
        · exact ⟨hs, hc, hrest⟩
        · split <;> exact ⟨hs, hc, hrest⟩
  | lookup c markdown todo job =>
    simp only [taskStep]
    split <;> exact ⟨hs, hpc⟩
  | readPre c markdown todo job =>
    simp only [taskStep]
    split
    · exact ⟨hs, trivial⟩
    · exact ⟨hs, hpc⟩
    · split <;> exact ⟨hs, hpc⟩
  | record c markdown op payload pre todo job =>
    simp only [taskStep]
    split
    · exact ⟨hs, trivial⟩
    · exact ⟨hs.of_registry rfl, hpc⟩
  | writeFile c markdown pre todo job =>
    simp only [taskStep]
    split
    · exact ⟨hs, trivial⟩
    · rename_i s' hw
      refine ⟨hs.of_registry ?_, validPath_of_write hw, hpc⟩
      rw [write_eq_ok hw]
  | register c todo job => exact ⟨ordinary_register hs _ hpc.1 hpc.2.1, hpc.2.2⟩
  | enqueueVector c todo job =>
    obtain ⟨-, -, hregistry, -, -⟩ := enqueueVector_fields s c.sourcePath
    exact ⟨hs.of_registry hregistry, hpc⟩
  | regenWrite pending deleted =>
    cases pending with
    | nil => cases deleted <;> exact ⟨hs, trivial⟩
    | cons f rest =>
      simp only [taskStep]
      split
      · exact ⟨hs, trivial⟩
      · rename_i s' hw
        refine ⟨hs.of_registry ?_, trivial⟩
        rw [write_eq_ok hw]
  | deleteRead path h =>
    simp only [taskStep]
    split
    · exact ⟨hs, trivial⟩
    · exact ⟨hs, trivial⟩
    · split <;> exact ⟨hs, trivial⟩
  | deleteEntry path pre => exact ⟨ordinary_unregister hs path, trivial⟩
  | reindexRead path =>
    simp only [taskStep]
    split
    · exact ⟨hs, trivial⟩
    · exact ⟨hs, trivial⟩
    · split <;> exact ⟨hs, trivial⟩
  | _ => exact ⟨hs.of_registry rfl, hpc⟩

end Mycelium.Analysis.OrdinaryPaths
