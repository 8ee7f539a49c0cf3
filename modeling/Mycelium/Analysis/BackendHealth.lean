import Mycelium.Model.LlmHealth
import Mathlib.Data.List.Induction

/-!
# The reported health is a function of the history

The machine keeps five fields. Each of them, and the state it reports, is read off the history
of its notes: the observations since the machine was last lifted from `disabled`, and of these
the failures since the last success (`snapshot_of_history`). Histories are newest first.
-/

set_option autoImplicit false

namespace Mycelium.Analysis.BackendHealth

open Mycelium.Model.LlmHealth

/-! ## The history -/

/-- A note that was taken: whether the backend was healthy, and when. -/
structure Observation where
  healthy : Bool
  time : ℕ

/-- The last note about the stored row was that there is none. -/
@[simp] def pinned : List Note → Bool
  | [] => false
  | .disabled :: _ => true
  | .configured :: _ => false
  | .ok _ :: history => pinned history
  | .failure _ :: history => pinned history

/-- What was observed since the machine was last lifted, and not while it was pinned. -/
@[simp] def observations : List Note → List Observation
  | [] => []
  | .disabled :: history => observations history
  | .configured :: history => if pinned history then [] else observations history
  | .ok now :: history =>
    if pinned history then observations history else ⟨true, now⟩ :: observations history
  | .failure now :: history =>
    if pinned history then observations history else ⟨false, now⟩ :: observations history

/-- The failures since the last success. -/
def outage (history : List Note) : List Observation :=
  (observations history).takeWhile fun o => !o.healthy

def lastHealthy (history : List Note) : Option Observation :=
  (observations history).find? Observation.healthy

/-- What is reported: the length of the outage decides, and without one a busy backend must
have completed a call lately. -/
def reportedState (history : List Note) (now : ℕ) (lastModelSuccess : Option ℕ) (busy : Bool) :
    BackendState :=
  if pinned history then .disabled
  else match (outage history).length with
    | 0 => if busy && isStale now lastModelSuccess then .yellow else .green
    | 1 => .yellow
    | 2 => .yellow
    | _ => .red

/-! ## The machine -/

/-- The fields as the history has them. -/
def innerOf (history : List Note) : Inner where
  configured := !pinned history
  consecutiveFailures := min (outage history).length u32Max
  downSince := (outage history).getLast?.map Observation.time
  lastObservation := (lastHealthy history).map Observation.time
  checkedAt := (observations history).head?.map Observation.time

/-- INTERNAL: an outage ends with a healthy observation. -/
theorem outage_ok {history : List Note} (now : ℕ) (h : pinned history = false) :
    outage (.ok now :: history) = [] := by
  unfold outage observations
  rw [h]
  rfl

/-- INTERNAL: and goes on with any other. -/
theorem outage_failure {history : List Note} (now : ℕ) (h : pinned history = false) :
    outage (.failure now :: history) = ⟨false, now⟩ :: outage history := by
  unfold outage
  conv_lhs => unfold observations
  rw [h]
  rfl

theorem note_innerOf_ok {history : List Note} (now : ℕ) (h : pinned history = false) :
    (innerOf history).noteOkAt now = innerOf (.ok now :: history) := by
  have hobs : observations (.ok now :: history) = ⟨true, now⟩ :: observations history := by
    simp only [observations, h, Bool.false_eq_true, ↓reduceIte]
  simp only [Inner.noteOkAt, innerOf, pinned, h, outage_ok now h, lastHealthy, hobs,
    Bool.not_false, Bool.not_true, Bool.false_eq_true, ↓reduceIte, List.length_nil, Nat.zero_min,
    List.getLast?_nil, Option.map_none, List.find?_cons_of_pos, Option.map_some, List.head?_cons]

theorem note_innerOf_failure {history : List Note} (now : ℕ) (h : pinned history = false) :
    (innerOf history).noteFailureAt now = innerOf (.failure now :: history) := by
  have hobs : observations (.failure now :: history) = ⟨false, now⟩ :: observations history := by
    simp only [observations, h, Bool.false_eq_true, ↓reduceIte]
  have hlast : lastHealthy (.failure now :: history) = lastHealthy history := by
    unfold lastHealthy
    rw [hobs]
    rfl
  have hcount : min (min (outage history).length u32Max + 1) u32Max =
      min ((outage history).length + 1) u32Max := by omega
  have hdown : (if min (outage history).length u32Max = 0 then some now
      else (outage history).getLast?.map Observation.time) =
      (⟨false, now⟩ :: outage history).getLast?.map Observation.time := by
    have hmax : 0 < u32Max := by decide
    cases hout : outage history with
    | nil => rfl
    | cons o rest =>
      rw [List.length_cons, if_neg (by omega), List.getLast?_cons_cons]
  simp only [Inner.noteFailureAt, innerOf, pinned, h, outage_failure now h, hlast, hobs,
    Bool.not_false, Bool.not_true, Bool.false_eq_true, ↓reduceIte, List.length_cons, hcount, hdown,
    Option.map_some, List.head?_cons]

/-- INTERNAL: a pinned machine takes no observation. -/
theorem innerOf_pinned {history : List Note} {note : Note} (h : pinned history = true)
    (hnote : (∃ now, note = .ok now) ∨ ∃ now, note = .failure now) :
    innerOf (note :: history) = innerOf history := by
  have hobs : observations (note :: history) = observations history := by
    rcases hnote with ⟨now, rfl⟩ | ⟨now, rfl⟩
    · simp only [observations, h, ↓reduceIte]
    · simp only [observations, h, ↓reduceIte]
  have hpin : pinned (note :: history) = pinned history := by
    rcases hnote with ⟨now, rfl⟩ | ⟨now, rfl⟩
    · rfl
    · rfl
  unfold innerOf outage lastHealthy
  rw [hobs, hpin]

/-- **One more note**: the machine keeps up with the history. -/
theorem note_innerOf (history : List Note) (note : Note) :
    (innerOf history).note note = innerOf (note :: history) := by
  cases note with
  | ok now =>
    cases h : pinned history with
    | false => exact note_innerOf_ok now h
    | true =>
      rw [innerOf_pinned h (.inl ⟨now, rfl⟩)]
      simp only [Inner.note, Inner.noteOkAt, innerOf, h, Bool.not_true, Bool.not_false, ↓reduceIte]
  | failure now =>
    cases h : pinned history with
    | false => exact note_innerOf_failure now h
    | true =>
      rw [innerOf_pinned h (.inr ⟨now, rfl⟩)]
      simp only [Inner.note, Inner.noteFailureAt, innerOf, h, Bool.not_true, Bool.not_false,
        ↓reduceIte]
  | disabled => rfl
  | configured =>
    cases h : pinned history with
    | false =>
      have hobs : observations (.configured :: history) = observations history := by
        simp only [observations, h, Bool.false_eq_true, ↓reduceIte]
      unfold Inner.note Inner.noteConfigured innerOf outage lastHealthy
      simp only [hobs, pinned, h, Bool.not_false, ↓reduceIte]
    | true =>
      have hobs : observations (.configured :: history) = [] := by
        simp only [observations, h, ↓reduceIte]
      unfold Inner.note Inner.noteConfigured innerOf outage lastHealthy
      simp only [hobs, pinned, h, Bool.not_true, Bool.not_false, Bool.false_eq_true, ↓reduceIte]
      rfl

/-- **The fields of the machine after any notes.** -/
theorem foldl_note (notes : List Note) : notes.foldl Inner.note {} = innerOf notes.reverse := by
  induction notes using List.reverseRecOn with
  | nil => rfl
  | append_singleton notes note ih =>
    rw [List.foldl_append, List.foldl_cons, List.foldl_nil, ih, note_innerOf, List.reverse_append]
    rfl

theorem effectiveState_innerOf (history : List Note) (now : ℕ) (lastModelSuccess : Option ℕ)
    (busy : Bool) :
    (innerOf history).effectiveState now lastModelSuccess busy =
      reportedState history now lastModelSuccess busy := by
  have hmax : 3 ≤ u32Max := by decide
  unfold Inner.effectiveState Inner.baseState reportedState innerOf redFailureThreshold
  cases h : pinned history with
  | true => simp
  | false =>
    generalize hlen : (outage history).length = n
    match n with
    | 0 => simp
    | 1 => simp [show min 1 u32Max = 1 by omega]
    | 2 => simp [show min 2 u32Max = 2 by omega]
    | n + 3 =>
      have hred : ¬ min (n + 3) u32Max < 3 := by omega
      have hfail : min (n + 3) u32Max ≠ 0 := by omega
      simp only [Bool.not_false, Bool.not_true, Bool.false_eq_true, ↓reduceIte, hfail, hred,
        reduceCtorEq, decide_false, Bool.false_and]

/-- **The reported health follows from the history**: after any notes in any order, what a
snapshot shows is the state of the outage the history ends with, the time it began, the last
healthy observation and the last observation of all. -/
theorem snapshot_of_history (notes : List Note) (now : ℕ) (lastModelSuccess : Option ℕ)
    (busy : Bool) :
    (notes.foldl Inner.note {}).snapshotAt now lastModelSuccess busy =
      { state := reportedState notes.reverse now lastModelSuccess busy
        downSince := (outage notes.reverse).getLast?.map Observation.time
        lastObservation := (lastHealthy notes.reverse).map Observation.time
        consecutiveFailures := min (outage notes.reverse).length u32Max
        checkedAt := (observations notes.reverse).head?.map Observation.time } := by
  rw [foldl_note]
  unfold Inner.snapshotAt
  rw [effectiveState_innerOf]
  rfl

end Mycelium.Analysis.BackendHealth
