import Mycelium.Analysis.CallCompletion
import Mycelium.Model.BookLibrary

/-!
# Calls on the library that run alone

`CallEnds` says that a call on the library gets to its end and leaves a store that meets a
postcondition. The puts and deletes of the concept store run inside it: what they end with
is taken from `Mycelium.Analysis.CallCompletion` (`callEnds_putCatalog`,
`callEnds_deleteOne`).
-/

set_option autoImplicit false

namespace Mycelium.Analysis.LibraryCalls

open Mycelium.Model.Outline Mycelium.Model.Concepts
open Mycelium.Model.ConceptStore Mycelium.Model.BookLibrary
open Mycelium.Model.StoreTasks (Choice Pc)
open Mycelium.Analysis.CallCompletion
open Completion

variable {cx : Codec} {tables : CharTables}

def advance (cx : Codec) (s : State tables) (ch : Choice) : State tables where
  store := (pointStep cx s.store ch s.point).1
  point := (pointStep cx s.store ch s.point).2

def outcomeOf (s : State tables) : Option Outcome :=
  match s.point with
  | .returned o => some o
  | _ => none

/-- The call at this point gets to its end, where the store meets the postcondition. -/
def CallEnds (cx : Codec) (post : Store → Prop) (s : Store) (p : Point tables) : Prop :=
  Completes (advance cx) outcomeOf (Clocked cx) (fun t _ => post t.store)
    { store := s, point := p }

theorem advance_of_outcome {s : State tables} (ch : Choice) {o : Outcome}
    (h : outcomeOf s = some o) : advance cx s ch = s := by
  obtain ⟨store, point⟩ := s
  cases point with
  | returned o' => rfl
  | _ => cases h

theorem isReturned_iff {t : State tables} :
    t.point.isReturned = true ↔ ∃ o, outcomeOf t = some o := by
  unfold Point.isReturned outcomeOf
  cases t.point <;> simp

variable {post : Store → Prop} {s : Store}

theorem callEnds_returned {o : Outcome} (h : post s) :
    CallEnds cx post s (.returned o : Point tables) := .done rfl h

theorem callEnds_step {p : Point tables} (hp : outcomeOf { store := s, point := p } = none)
    (h : ∀ ch, Clocked cx ch → CallEnds cx post (pointStep cx s ch p).1 (pointStep cx s ch p).2) :
    CallEnds cx post s p := .step hp h

/-- INTERNAL: a call that has returned is at its end. -/
theorem post_of_callEnds {t : State tables} (h : CallEnds cx post t.store t.point)
    (hreturned : t.point.isReturned = true) : post t.store := by
  obtain ⟨o, ho⟩ := isReturned_iff.mp hreturned
  cases h with
  | done _ hpost => exact hpost
  | step hnone _ =>
    have hboth : outcomeOf t = none := hnone
    rw [hboth] at ho
    cases ho

/-- INTERNAL: a put inside an ingest. -/
theorem callEnds_putCatalog {pc : Pc} {written : List String}
    (h : Ends cx (fun t _ => post t) s pc) :
    CallEnds cx post s (.putCatalog pc written : Point tables) := by
  apply h.embed (fun r => ({ store := r.1, point := .putCatalog r.2 written } : State tables))
  · intro r _
    rfl
  · rintro ⟨t, pc⟩ ch hpc
    cases pc with
    | finished x => cases hpc
    | _ => rfl
  · rintro ⟨t, pc⟩ r hpc hpost
    cases pc with
    | finished x =>
      apply Completes.step rfl
      intro ch _
      cases x with
      | ok u => exact .done rfl hpost
      | error e => exact .done rfl hpost
    | _ => cases hpc

/-- INTERNAL: a delete inside the deletion of a book. -/
theorem callEnds_deleteOne (inner : Store → Prop) {pc : Pc} {entries : List ConceptEntry}
    {slug : String} (h : Ends cx (fun t _ => inner t) s pc)
    (hnext : ∀ t, inner t → CallEnds cx post t (.deleteEach entries slug : Point tables)) :
    CallEnds cx post s (.deleteOne pc entries slug : Point tables) := by
  apply h.embed (fun r => ({ store := r.1, point := .deleteOne r.2 entries slug } : State tables))
  · intro r _
    rfl
  · rintro ⟨t, pc⟩ ch hpc
    cases pc with
    | finished x => cases hpc
    | _ => rfl
  · rintro ⟨t, pc⟩ r hpc hinner
    cases pc with
    | finished x =>
      apply Completes.step rfl
      intro ch _
      exact hnext t hinner
    | _ => cases hpc

end Mycelium.Analysis.LibraryCalls
