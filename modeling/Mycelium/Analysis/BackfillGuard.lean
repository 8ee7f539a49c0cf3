import Mycelium.Model.DreamScheduler
import Mycelium.Lib.StepSystem

/-!
# The guard of the corpus backfill

The running flag is set exactly while a click or its walk holds it (`inv_step`), and it has one
holder. A click whose request is dropped between the claim and the spawn holds it for good.
-/

set_option autoImplicit false

namespace Mycelium.Analysis.BackfillGuard

open StepSystem Mycelium.Model.DreamScheduler

/-! ## Holders of the flag -/

def holds : ClickPc → Bool
  | .claimed => true
  | .abandoned => true
  | .walking _ _ => true
  | .idle => false
  | .refused => false
  | .ended => false

structure Inv (s : Backfill) : Prop where
  unique : ∀ id id', holds (s.clicks id) → holds (s.clicks id') → id = id'
  running : s.running = true ↔ ∃ id, holds (s.clicks id)
  /-- A walk that was launched on a cleared marker finds it cleared until it writes its own. -/
  fresh : ∀ id walk, s.clicks id = .walking true walk → walk ≠ .marked → s.marker = none

/-- What a step does to the flag and the marker, `after` being the click after it. -/
structure Moved (s s' : Backfill) (id : ℕ) (after : ClickPc) : Prop where
  clicks : s'.clicks = Function.update s.clicks id after
  /-- The flag is taken where it is free, dropped by its holder, or left. -/
  flag : (s.running = false ∧ holds after ∧ s'.running = true) ∨
    (holds (s.clicks id) ∧ holds after = false ∧ s'.running = false) ∨
    (holds after = holds (s.clicks id) ∧ s'.running = s.running)
  marker : holds (s.clicks id) = false → s'.marker = s.marker
  fresh : ∀ walk, after = .walking true walk → walk ≠ .marked →
    s'.marker = none ∨ ∃ walk', s.clicks id = .walking true walk' ∧ walk' ≠ .marked ∧
      s'.marker = s.marker

/-- INTERNAL: a holder lets the flag go. -/
theorem moved_release {s : Backfill} {id : ℕ} (h : holds (s.clicks id)) :
    Moved s (s.release id) id .ended where
  clicks := rfl
  flag := .inr (.inl ⟨h, rfl, rfl⟩)
  marker hnot := absurd h (by rw [hnot]; exact Bool.false_ne_true)
  fresh _ heq := by cases heq

/-- INTERNAL: a walk goes on. -/
theorem moved_walk {s : Backfill} {id : ℕ} {cleared : Bool} {walk next : WalkPc}
    (hpc : s.clicks id = .walking cleared walk) (hwalk : walk ≠ .marked) :
    Moved s (s.goto id (.walking cleared next)) id (.walking cleared next) where
  clicks := rfl
  flag := .inr (.inr ⟨by rw [hpc]; rfl, rfl⟩)
  marker hnot := by rw [hpc] at hnot; cases hnot
  fresh walk' heq _ := by
    cases heq
    exact .inr ⟨walk, hpc, hwalk, rfl⟩

theorem moved_of_step {s s' : Backfill} {id : ℕ} {choice : ClickChoice}
    (h : s.step (.click id choice) = some s') : ∃ after, Moved s s' id after := by
  change s.clickStep id (s.clicks id) choice = some s' at h
  generalize hpc : s.clicks id = pc at h
  have hwalking : ∀ {cleared : Bool} {walk : WalkPc}, pc = .walking cleared walk →
      holds (s.clicks id) := by
    intro cleared walk heq
    rw [hpc, heq]
    rfl
  unfold Backfill.clickStep at h
  split at h
  case h_1 =>
    split at h
    · cases h
      refine ⟨.refused, rfl, .inr (.inr ⟨by rw [hpc]; rfl, rfl⟩), fun _ => rfl, ?_⟩
      intro walk heq
      cases heq
    · rename_i hfree
      cases h
      refine ⟨.claimed, rfl, .inl ⟨Bool.eq_false_iff.mpr hfree, rfl, rfl⟩, fun _ => rfl, ?_⟩
      intro walk heq
      cases heq
  case h_2 deleted =>
    cases h
    refine ⟨.walking deleted .starting, rfl, .inr (.inr ⟨by rw [hpc]; rfl, rfl⟩), ?_, ?_⟩
    · intro hnot
      rw [hpc] at hnot
      cases hnot
    · intro walk heq _
      cases heq
      exact .inl rfl
  case h_3 deleted =>
    cases h
    refine ⟨.abandoned, rfl, .inr (.inr ⟨by rw [hpc]; rfl, rfl⟩), ?_, ?_⟩
    · intro hnot
      rw [hpc] at hnot
      cases hnot
    · intro walk heq
      cases heq
  case h_4 =>
    split at h
    · cases h
      exact ⟨_, moved_walk hpc WalkPc.noConfusion⟩
    · cases h
      exact ⟨_, moved_release (hwalking rfl)⟩
  case h_5 =>
    cases h
    exact ⟨_, moved_walk hpc WalkPc.noConfusion⟩
  case h_7 =>
    cases h
    exact ⟨_, moved_walk hpc WalkPc.noConfusion⟩
  case h_8 cleared _ written now =>
    cases h
    refine ⟨.walking cleared .marked, rfl, .inr (.inr ⟨by rw [hpc]; rfl, rfl⟩), ?_, ?_⟩
    · intro hnot
      rw [hpc] at hnot
      cases hnot
    · intro walk heq hne
      cases heq
      exact absurd rfl hne
  case h_11 => cases h
  -- The walk ends: no row to read, its last step, a shutdown or a panic.
  all_goals
    cases h
    exact ⟨_, moved_release (hwalking rfl)⟩

/-! ## The invariant -/

theorem inv_moved {s s' : Backfill} {id : ℕ} {after : ClickPc} (h : Inv s)
    (hmoved : Moved s s' id after) : Inv s' := by
  have hself : s'.clicks id = after := by rw [hmoved.clicks, Function.update_self]
  have hother : ∀ i, i ≠ id → s'.clicks i = s.clicks i := by
    intro i hne
    rw [hmoved.clicks, Function.update_of_ne hne]
  -- Only the click that moved can be a new holder, and only where the flag was free.
  have hnew : holds after → ∀ i, i ≠ id → holds (s.clicks i) → False := by
    intro hafter i hne hi
    rcases hmoved.flag with ⟨hfree, -, -⟩ | ⟨-, hnot, -⟩ | ⟨hsame, -⟩
    · rw [h.running.mpr ⟨i, hi⟩] at hfree
      cases hfree
    · rw [hnot] at hafter
      cases hafter
    · rw [hsame] at hafter
      exact hne (h.unique i id hi hafter)
  constructor
  · intro i j hi hj
    by_cases hid : i = id
    · by_cases hjd : j = id
      · rw [hid, hjd]
      · rw [hid, hself] at hi
        rw [hother j hjd] at hj
        exact (hnew hi j hjd hj).elim
    · rw [hother i hid] at hi
      by_cases hjd : j = id
      · rw [hjd, hself] at hj
        exact (hnew hj i hid hi).elim
      · rw [hother j hjd] at hj
        exact h.unique i j hi hj
  · rcases hmoved.flag with ⟨-, hafter, hset⟩ | ⟨hheld, hafter, hset⟩ | ⟨hsame, hset⟩
    · exact iff_of_true hset ⟨id, by rw [hself]; exact hafter⟩
    · apply iff_of_false
      · rw [hset]
        exact Bool.false_ne_true
      · rintro ⟨i, hi⟩
        by_cases hid : i = id
        · rw [hid, hself, hafter] at hi
          cases hi
        · rw [hother i hid] at hi
          exact hid (h.unique i id hi hheld)
    · rw [hset, h.running]
      apply exists_congr
      intro i
      by_cases hid : i = id
      · rw [hid, hself, hsame]
      · rw [hother i hid]
  · intro i walk hi hne
    by_cases hid : i = id
    · rw [hid, hself] at hi
      rcases hmoved.fresh walk hi hne with hnone | ⟨walk', hwas, hne', hsame⟩
      · exact hnone
      · rw [hsame]
        exact h.fresh id walk' hwas hne'
    · rw [hother i hid] at hi
      have hheld : holds (s.clicks i) := by rw [hi]; rfl
      have hidle : holds (s.clicks id) = false := by
        rw [Bool.eq_false_iff]
        intro hheld'
        exact hid (h.unique i id hheld hheld')
      rw [hmoved.marker hidle]
      exact h.fresh i walk hi hne

theorem inv_step {s s' : Backfill} {a : BackfillAction} (h : Inv s) (hstep : s.step a = some s') :
    Inv s' := by
  cases a with
  | click id choice =>
    obtain ⟨after, hmoved⟩ := moved_of_step hstep
    exact inv_moved h hmoved
  | restart =>
    cases hstep
    have hnone : ∀ i, holds (if s.clicks i = .idle then .idle else .ended) = false := by
      intro i
      split
      · rfl
      · rfl
    constructor
    · intro i j hi
      rw [hnone i] at hi
      cases hi
    · apply iff_of_false Bool.false_ne_true
      rintro ⟨i, hi⟩
      rw [hnone i] at hi
      cases hi
    · intro i walk hi
      have hheld := hnone i
      dsimp only at hi
      rw [hi] at hheld
      cases hheld

theorem inv_init (marker : Option String) : Inv { marker } where
  unique _ _ h := by cases h
  running := by
    apply iff_of_false Bool.false_ne_true
    rintro ⟨_, h⟩
    cases h
  fresh _ _ h := by cases h

/-- INTERNAL: an abandoned click stays one until a restart. -/
theorem abandoned_step {s s' : Backfill} {a : BackfillAction} {id : ℕ}
    (h : s.clicks id = .abandoned) (ha : a ≠ .restart) (hstep : s.step a = some s') :
    s'.clicks id = .abandoned := by
  cases a with
  | restart => exact absurd rfl ha
  | click i choice =>
    by_cases hid : i = id
    · subst hid
      change s.clickStep i (s.clicks i) choice = some s' at hstep
      rw [h] at hstep
      cases choice <;> cases hstep
    · obtain ⟨after, hmoved⟩ := moved_of_step hstep
      rw [hmoved.clicks, Function.update_of_ne (Ne.symm hid)]
      exact h

/-- **One backfill at a time, and how the button is lost.** Over any clicks, walks, shutdowns,
panics, dropped requests and restarts in any interleaving: at most one click or walk holds the
running flag, and the flag is set exactly while one does; a walk that was launched on a cleared
marker runs without one until it writes its own; and a click that was dropped between its claim
and its launch holds the flag for good, so that no walk runs until the process restarts. -/
theorem backfill_guarded {marker : Option String} {as : List BackfillAction} {s : Backfill}
    (hrun : exec Backfill.step { marker } as = some s) :
    Inv s ∧ ∀ id, s.clicks id = .abandoned → ∀ bs t, (∀ a ∈ bs, a ≠ .restart) →
      exec Backfill.step s bs = some t →
        t.running = true ∧ ∀ i cleared walk, t.clicks i ≠ .walking cleared walk := by
  have hstep : ∀ s a s', Inv s → Backfill.step s a = some s' → Inv s' :=
    fun _ _ _ h hs => inv_step h hs
  have hinv : Inv s := exec_invariant Inv hstep (inv_init marker) hrun
  refine ⟨hinv, ?_⟩
  intro id hid bs t hbs ht
  have hmeets : Meets Backfill.step (fun _ a => True ∧ a ≠ .restart) s bs :=
    meets_and_of_forall (meets_of_forall (fun _ _ => trivial) s bs) hbs
  obtain ⟨hinv', hid'⟩ := exec_invariant_of_meets (fun s => Inv s ∧ s.clicks id = .abandoned)
    (fun s a s' h hok hs => ⟨inv_step h.1 hs, abandoned_step h.2 hok.2 hs⟩) ⟨hinv, hid⟩ ht hmeets
  have hheld : holds (t.clicks id) := by rw [hid']; rfl
  refine ⟨hinv'.running.mpr ⟨id, hheld⟩, ?_⟩
  intro i cleared walk hi
  have hheld' : holds (t.clicks i) := by rw [hi]; rfl
  rw [hinv'.unique i id hheld' hheld, hid'] at hi
  cases hi

/-- Two clicks: the first is dropped, and the second is refused. -/
theorem backfill_guarded_of_two : ∃ s t,
    exec Backfill.step { marker := some "2026-01-01T00:00:00+00:00" }
      [.click 0 .claim, .click 0 (.drop true)] = some s ∧ s.clicks 0 = .abandoned ∧
    exec Backfill.step s [.click 1 .claim] = some t ∧ t.running = true ∧
    ∀ i cleared walk, t.clicks i ≠ .walking cleared walk := by
  have h := @backfill_guarded (some "2026-01-01T00:00:00+00:00")
    [.click 0 .claim, .click 0 (.drop true)] _ rfl
  refine ⟨_, _, rfl, rfl, rfl, ?_⟩
  exact h.2 0 rfl [.click 1 .claim] _ (by simp) rfl

end Mycelium.Analysis.BackfillGuard
