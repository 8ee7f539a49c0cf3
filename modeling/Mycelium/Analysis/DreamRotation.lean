import Mycelium.Model.DreamScheduler
import Mathlib.Data.List.Rotate

/-!
# The dream rotation is fair

A wake either uses the turn of the scope at the cursor or changes nothing but the counters
(`tick_cases`), so the scopes attempted over any wakes are the rotation from the cursor on,
whatever was skipped in between.
-/

set_option autoImplicit false

namespace Mycelium.Analysis.DreamRotation

open Mycelium.Model.DreamScheduler

/-! ## One wake -/

/-- A wake that uses no turn. -/
structure Skipped (s s' : Scheduler) : Prop where
  cursor : s'.cursor = s.cursor
  lastRun : s'.lastRun = s.lastRun
  ticks : s'.ticks = s.ticks + 1
  passes : s'.passes = s.passes
  passesSkipped : s'.passesSkipped = s.passesSkipped + 1

/-- A wake that uses the turn of a scope. -/
structure Passed (targets : List RotationTarget) (recorded : Bool) (target : RotationTarget)
    (s s' : Scheduler) : Prop where
  turn : targets[s.cursor % targets.length]? = some target
  cursor : s'.cursor = advanceCursor s.cursor targets.length
  lastRun : recorded = true → s'.lastRun.map DreamLastRunRecord.scope = some target.scopeId
  ticks : s'.ticks = s.ticks + 1
  passes : s'.passes = s.passes + 1
  passesSkipped : s'.passesSkipped = s.passesSkipped

/-- INTERNAL: the record names the scope of the pass. -/
theorem scope_of_passRecord {target : RotationTarget} {now : String} {outcome : ScopePassOutcome}
    {record : DreamLastRunRecord} (h : passRecord target now outcome = some record) :
    record.scope = target.scopeId := by
  unfold passRecord at h
  split at h
  · cases h; rfl
  · cases h; rfl
  · cases h; rfl
  · cases h
  · cases h

/-- INTERNAL: a pass that was not deferred. -/
theorem pass_eq_some {s s' : Scheduler} {wake : Wake} {target : RotationTarget}
    (h : s.pass wake = some (s', target)) :
    ∃ targets record, wake.rotation = some targets ∧
      targets[s.cursor % targets.length]? = some target ∧ record.scope = target.scopeId ∧
      s' = { s with
        passes := s.passes + 1, cursor := advanceCursor s.cursor targets.length,
        lastRun := if wake.recorded then some record else s.lastRun } := by
  unfold Scheduler.pass at h
  split at h
  · cases h
  · simp only [Option.bind_eq_some_iff, Option.map_eq_some_iff, Prod.mk.injEq] at h
    obtain ⟨targets, hrotation, target', hturn, record, hrecord, rfl, rfl⟩ := h
    exact ⟨targets, record, hrotation, hturn, scope_of_passRecord hrecord, rfl⟩

/-- **A wake uses the turn of the scope at the cursor, or none.** -/
theorem tick_cases (s : Scheduler) (wake : Wake) :
    (s.tick wake).2 = none ∧ Skipped s (s.tick wake).1 ∨
    ∃ targets target, wake.rotation = some targets ∧ (s.tick wake).2 = some target ∧
      Passed targets wake.recorded target s (s.tick wake).1 := by
  unfold Scheduler.tick
  cases wake.lifecycle with
  | none => exact .inl ⟨rfl, rfl, rfl, rfl, rfl, rfl⟩
  | some read =>
    dsimp only
    split
    · rename_i after target hpass
      split at hpass
      · obtain ⟨targets, record, hrotation, hturn, hscope, rfl⟩ := pass_eq_some hpass
        refine .inr ⟨targets, target, hrotation, rfl, hturn, rfl, ?_, rfl, rfl, rfl⟩
        intro hrecorded
        simp only [hrecorded, ↓reduceIte, Option.map_some, hscope]
      · cases hpass
    · exact .inl ⟨rfl, rfl, rfl, rfl, rfl, rfl⟩

/-! ## Any wakes -/

/-- What a run did: it used the turns from the cursor on, and counted every wake once. -/
structure Rotated (targets : List RotationTarget) (wakes : List Wake) (s s' : Scheduler)
    (attempted : List RotationTarget) : Prop where
  turns : ∀ i < attempted.length, attempted[i]? = targets[(s.cursor + i) % targets.length]?
  cursor : s'.cursor % targets.length = (s.cursor + attempted.length) % targets.length
  ticks : s'.ticks = s.ticks + wakes.length
  passes : s'.passes = s.passes + attempted.length
  passesSkipped : s'.passesSkipped + attempted.length = s.passesSkipped + wakes.length

theorem rotated_run {targets : List RotationTarget} (hne : targets ≠ []) {wakes : List Wake}
    (hwakes : ∀ wake ∈ wakes, ∀ found, wake.rotation = some found → found = targets)
    (s : Scheduler) : Rotated targets wakes s (s.run wakes).1 (s.run wakes).2 := by
  have hlen : 0 < targets.length := List.length_pos_iff.mpr hne
  induction wakes generalizing s with
  | nil => exact ⟨fun i hi => absurd hi (Nat.not_lt_zero i), rfl, rfl, rfl, rfl⟩
  | cons wake wakes ih =>
    have hrest := ih (fun w hw => hwakes w (List.mem_cons_of_mem _ hw)) (s.tick wake).1
    simp only [Scheduler.run]
    rcases tick_cases s wake with ⟨hnone, hskip⟩ | ⟨found, target, hfound, hsome, hpass⟩
    · rw [hnone]
      simp only [Option.toList_none, List.nil_append]
      constructor
      · intro i hi
        rw [hrest.turns i hi, hskip.cursor]
      · rw [hrest.cursor, hskip.cursor]
      · rw [hrest.ticks, hskip.ticks, List.length_cons]
        omega
      · rw [hrest.passes, hskip.passes]
      · rw [hrest.passesSkipped, hskip.passesSkipped, List.length_cons]
        omega
    · rw [hsome]
      cases hwakes wake List.mem_cons_self found hfound
      have hcursor : (s.tick wake).1.cursor = (s.cursor + 1) % targets.length := by
        rw [hpass.cursor]
        unfold advanceCursor
        rw [Nat.max_eq_left hlen]
      simp only [Option.toList_some, List.singleton_append]
      constructor
      · intro i hi
        cases i with
        | zero => exact hpass.turn.symm
        | succ i =>
          rw [List.getElem?_cons_succ, hrest.turns i (Nat.lt_of_succ_lt_succ hi), hcursor,
            Nat.mod_add_mod]
          congr 2
          omega
      · rw [hrest.cursor, hcursor, Nat.mod_add_mod, List.length_cons]
        congr 1
        omega
      · rw [hrest.ticks, hpass.ticks, List.length_cons]
        omega
      · rw [hrest.passes, hpass.passes, List.length_cons]
        omega
      · have := hrest.passesSkipped
        rw [hpass.passesSkipped] at this
        simp only [List.length_cons]
        omega

/-- INTERNAL: as many turns as there are scopes are each scope's turn once. -/
theorem window_perm {targets attempted : List RotationTarget} {cursor : ℕ}
    (hturns : ∀ i < attempted.length, attempted[i]? = targets[(cursor + i) % targets.length]?)
    {j : ℕ} (hj : j + targets.length ≤ attempted.length) :
    ((attempted.drop j).take targets.length).Perm targets := by
  have hwindow : (attempted.drop j).take targets.length = targets.rotate (cursor + j) := by
    apply List.ext_getElem?
    intro i
    by_cases hi : i < targets.length
    · rw [List.getElem?_take_of_lt hi, List.getElem?_drop, hturns (j + i) (by omega),
        List.getElem?_rotate hi]
      congr 2
      omega
    · rw [List.getElem?_eq_none, List.getElem?_eq_none]
      · rw [List.length_rotate]
        omega
      · rw [List.length_take]
        omega
  rw [hwindow]
  exact List.rotate_perm targets (cursor + j)

/-- INTERNAL: the record is that of the last pass. -/
theorem lastRun_run {wakes : List Wake} (hrecorded : ∀ wake ∈ wakes, wake.recorded = true)
    (s : Scheduler) : (s.run wakes).1.lastRun.map DreamLastRunRecord.scope =
      ((s.run wakes).2.getLast?.map RotationTarget.scopeId).or
        (s.lastRun.map DreamLastRunRecord.scope) := by
  induction wakes generalizing s with
  | nil => rfl
  | cons wake wakes ih =>
    have hrest := ih (fun w hw => hrecorded w (List.mem_cons_of_mem _ hw)) (s.tick wake).1
    simp only [Scheduler.run]
    rw [hrest]
    rcases tick_cases s wake with ⟨hnone, hskip⟩ | ⟨found, target, -, hsome, hpass⟩
    · rw [hnone, hskip.lastRun]
      rfl
    · rw [hsome, hpass.lastRun (hrecorded wake List.mem_cons_self)]
      simp only [Option.toList_some, List.singleton_append, List.getLast?_cons, Option.map_some,
        Option.some_or]
      cases ((s.tick wake).1.run wakes).2.getLast? with
      | none => rfl
      | some last => rfl

/-- **The dream rotation is fair.** While the table of users stays as it is, any number of
passes in a row that is the number of scopes gives each scope one pass, whatever the wakes
before, between and after them meet: a wake that defers takes no scope's turn, and a pass that
fails, panics or finds no key uses its scope's own. Each wake is counted once, as a pass or as
a skip, and the readout names the scope of the last pass. -/
theorem rotation_fair (parseUuid : String → Option String) (rows : List (String × String))
    {wakes : List Wake} (hwakes : ∀ wake ∈ wakes, ∀ found, wake.rotation = some found →
      found = Scheduler.rotation parseUuid rows) (s : Scheduler) :
    (∀ j, j + (Scheduler.rotation parseUuid rows).length ≤ (s.run wakes).2.length →
      (((s.run wakes).2.drop j).take (Scheduler.rotation parseUuid rows).length).Perm
        (Scheduler.rotation parseUuid rows)) ∧
    Rotated (Scheduler.rotation parseUuid rows) wakes s (s.run wakes).1 (s.run wakes).2 ∧
    ((∀ wake ∈ wakes, wake.recorded = true) →
      (s.run wakes).1.lastRun.map DreamLastRunRecord.scope =
        ((s.run wakes).2.getLast?.map RotationTarget.scopeId).or
          (s.lastRun.map DreamLastRunRecord.scope)) := by
  have hne : Scheduler.rotation parseUuid rows ≠ [] := by
    unfold Scheduler.rotation
    exact List.append_ne_nil_of_right_ne_nil _ (List.cons_ne_nil _ _)
  have hrun := rotated_run hne hwakes s
  exact ⟨fun j hj => window_perm hrun.turns hj, hrun, fun hrecorded => lastRun_run hrecorded s⟩

/-- Four wakes over two users and the skills; the second one finds the gate busy. -/
theorem rotation_fair_of_four :
    let rows := [("b", "user"), ("a", "admin")]
    let wake (admitted : Bool) : Wake :=
      { lifecycle := some ⟨3600, true, true⟩, client := true
        rotation := some (Scheduler.rotation some rows)
        pass := fun _ => ⟨.green, true, admitted, .panic none⟩, now := "", recorded := true }
    let wakes := [wake true, wake false, wake true, wake true]
    let start : Scheduler := { cursor := 2, period := 60 }
    (start.run wakes).2 = [.skills, .user "a" true, .user "b" false] ∧
    (start.run wakes).1.passesSkipped + (start.run wakes).2.length = 4 := by
  intro rows wake wakes start
  have hwakes : ∀ w ∈ wakes, ∀ found, w.rotation = some found →
      found = Scheduler.rotation some rows := by
    intro w hw found hfound
    simp only [wakes, List.mem_cons, List.not_mem_nil, or_false] at hw
    rcases hw with rfl | rfl | rfl | rfl
    all_goals exact (Option.some.inj hfound).symm
  have hruns := rotation_fair some rows hwakes start
  exact ⟨by decide, hruns.2.1.passesSkipped⟩

end Mycelium.Analysis.DreamRotation
