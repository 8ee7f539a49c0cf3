import Mycelium.Lib.StepSystem
import Mycelium.Model.VectorCache

/-!
# No snapshot outlives an invalidation of its scope

A build compares the epoch where it installs, so what it installs was fetched after every
bump so far; an invalidation bumps before it removes, so a removal chases out whatever was
installed before its bump. Neither half reads the other's progress, and the argument needs
no order between several builds and several invalidations: a completed invalidation has
its bump behind it (`Inv.done`), and an installing build has all bumps behind its fetch.

The comparison is of 64-bit numbers. It says what it is meant to say unless the epoch came
around to the loaded value exactly (`Distinguishable`), and `stale_snapshot_after_wrap`
shows a run in which it did.
-/

set_option autoImplicit false

namespace Mycelium.Analysis.CacheEpoch

open StepSystem
open Mycelium.Model.Vectors Mycelium.Model.VectorCache

/-! ## The condition -/

/-- A build that is about to compare the epoch can tell: either no bump has happened since
it loaded it, or their number is no multiple of `2 ^ 64`. -/
def CanTell (bumps : ℕ) : Build → Prop
  | .fetched _ _ _ loadedAt _ => bumps = loadedAt ∨ (bumps - loadedAt) % epochBound ≠ 0
  | _ => True

/-- Every build that compares the epoch can tell. -/
def Distinguishable (s : State) : Action → Prop
  | .build i => CanTell s.bumps (s.builds i)
  | _ => True

instance decidableCanTell (bumps : ℕ) : ∀ b, Decidable (CanTell bumps b)
  | .fetched _ _ _ loadedAt _ =>
    inferInstanceAs (Decidable (bumps = loadedAt ∨ (bumps - loadedAt) % epochBound ≠ 0))
  | .idle | .called _ | .missed _ _ | .loaded _ _ _ _ | .fetching _ _ _ _ _ _ | .finished _ =>
    isTrue trivial

instance decidableDistinguishable (s : State) : ∀ a, Decidable (Distinguishable s a)
  | .build i => inferInstanceAs (Decidable (CanTell s.bumps (s.builds i)))
  | .write _ | .call _ _ | .abort _ _ | .invalidate _ _ | .remove _ => isTrue trivial

/-! ## The invariant -/

/-- What a build in progress knows: its epoch is the one of its load, its fetch began after
the load, and neither lies in the future. -/
def BuildOk (bumps : ℕ) : Build → Prop
  | .loaded _ _ epoch loadedAt => epoch = loadedAt % epochBound ∧ loadedAt ≤ bumps
  | .fetching _ _ epoch loadedAt begun _ =>
    epoch = loadedAt % epochBound ∧ loadedAt ≤ begun ∧ begun ≤ bumps
  | .fetched _ _ epoch loadedAt snapshot =>
    epoch = loadedAt % epochBound ∧ loadedAt ≤ snapshot.begun ∧ snapshot.begun ≤ bumps
  | _ => True

structure Inv (s : State) : Prop where
  epoch : s.epoch = s.bumps % epochBound
  builds : ∀ i, BuildOk s.bumps (s.builds i)
  pending : ∀ j scope before, s.invalidations j = .bumped scope before → before < s.bumps
  done : ∀ p ∈ s.invalidated, p.2 < s.bumps
  cached : ∀ scope snapshot, s.cache scope = some snapshot →
    ∀ k, (scope, k) ∈ s.invalidated → ¬ snapshot.BeganBefore k

/-- INTERNAL: the process starts well. -/
theorem inv_boot (tables : Tables) : Inv (State.boot tables) where
  epoch := rfl
  builds := fun _ => trivial
  pending := by
    intro j scope before h
    simp [State.boot] at h
  done := by
    intro p hp
    simp [State.boot] at hp
  cached := by
    intro scope snapshot h
    simp [State.boot] at h

/-- INTERNAL: further bumps take nothing from what a build knows. -/
theorem buildOk_mono {m n : ℕ} (hle : m ≤ n) {b : Build} (h : BuildOk m b) : BuildOk n b := by
  cases b with
  | loaded scope pass epoch loadedAt => exact ⟨h.1, Nat.le_trans h.2 hle⟩
  | fetching scope pass epoch loadedAt begun active =>
    exact ⟨h.1, h.2.1, Nat.le_trans h.2.2 hle⟩
  | fetched scope pass epoch loadedAt snapshot => exact ⟨h.1, h.2.1, Nat.le_trans h.2.2 hle⟩
  | _ => trivial

/-- INTERNAL: setting one build keeps the invariant when the new one is well. -/
theorem inv_setBuild {s : State} (h : Inv s) (i : ℕ) {b : Build} (hb : BuildOk s.bumps b) :
    Inv (s.setBuild i b) where
  epoch := h.epoch
  builds := by
    intro k
    by_cases hk : k = i
    · subst hk
      simpa [State.setBuild] using hb
    · simpa [State.setBuild, hk] using h.builds k
  pending := h.pending
  done := h.done
  cached := h.cached

/-! ## One step -/

/-- INTERNAL: two counts whose epochs agree are the same count, or a multiple of the bound
apart. -/
theorem eq_of_epoch_eq {bumps loadedAt : ℕ}
    (heq : bumps % epochBound = loadedAt % epochBound)
    (hdist : bumps = loadedAt ∨ (bumps - loadedAt) % epochBound ≠ 0) : bumps = loadedAt := by
  rcases hdist with h | h
  · exact h
  · have hsub : (bumps - loadedAt) % epochBound = 0 :=
      Nat.sub_mod_eq_zero_of_mod_eq heq
    exact absurd hsub h

/-- INTERNAL: an install puts a snapshot in place whose fetch began after every bump. -/
theorem inv_install {s : State} (h : Inv s) (i : ℕ) (scope : String) {snapshot : ScopeVectors}
    (hfresh : snapshot.begun = s.bumps) :
    Inv { s with
      cache := Function.update s.cache scope (some snapshot)
      builds := Function.update s.builds i (.finished (.ok snapshot)) } where
  epoch := h.epoch
  builds := by
    have hset : Inv (s.setBuild i (.finished (.ok snapshot))) := inv_setBuild h i trivial
    exact hset.builds
  pending := h.pending
  done := h.done
  cached := by
    intro scope' snapshot' hcached k hk
    by_cases hscope : scope' = scope
    · subst hscope
      simp only [Function.update_self, Option.some.injEq] at hcached
      subst hcached
      have hlt : k < s.bumps := h.done (scope', k) hk
      simp only [ScopeVectors.BeganBefore]
      omega
    · simp only [Function.update_of_ne hscope] at hcached
      exact h.cached scope' snapshot' hcached k hk

/-- INTERNAL: what a build may do next, with the cache it leaves: it installs on a match,
and else it leaves the cache alone. -/
theorem buildStep_cases (keys : Keys) {s : State} (h : Inv s) {b : Build}
    (hb : BuildOk s.bumps b) :
    (∃ scope pass epoch loadedAt snapshot, b = .fetched scope pass epoch loadedAt snapshot ∧
        s.epoch = epoch ∧
        buildStep keys s b =
          (Function.update s.cache scope (some snapshot), .finished (.ok snapshot))) ∨
      ∃ b', buildStep keys s b = (s.cache, b') ∧ BuildOk s.bumps b' := by
  cases b with
  | idle => exact .inr ⟨.idle, rfl, trivial⟩
  | finished r => exact .inr ⟨.finished r, rfl, trivial⟩
  | called scope =>
    right
    cases hc : s.cache scope with
    | none => exact ⟨.missed scope 0, by simp [buildStep, hc], trivial⟩
    | some hit => exact ⟨.finished (.ok hit), by simp [buildStep, hc], trivial⟩
  | missed scope pass =>
    right
    exact ⟨.loaded scope pass s.epoch s.bumps, rfl, h.epoch, Nat.le_refl _⟩
  | loaded scope pass epoch loadedAt =>
    right
    exact ⟨_, rfl, hb.1, hb.2, Nat.le_refl _⟩
  | fetching scope pass epoch loadedAt begun active =>
    right
    cases hk : keptRows keys active (fetchRows scope s.tables.rows) with
    | ok kept =>
      refine ⟨.fetched scope pass epoch loadedAt (snapshotOf kept begun), ?_, ?_⟩
      · simp [buildStep, hk]
      · exact hb
    | error e => exact ⟨.finished (.error e), by simp [buildStep, hk], trivial⟩
  | fetched scope pass epoch loadedAt snapshot =>
    by_cases heq : s.epoch = epoch
    · left
      exact ⟨scope, pass, epoch, loadedAt, snapshot, rfl, heq, by simp [buildStep, heq]⟩
    · right
      by_cases hpass : pass + 1 < cacheBuildPasses
      · exact ⟨.missed scope (pass + 1), by simp [buildStep, heq, hpass], trivial⟩
      · exact ⟨.finished (.ok snapshot), by simp [buildStep, heq, hpass], trivial⟩

/-- INTERNAL: a step of a build. -/
theorem inv_build (keys : Keys) {s : State} (h : Inv s) (i : ℕ)
    (hdist : Distinguishable s (.build i)) :
    Inv { s with
      cache := (buildStep keys s (s.builds i)).1
      builds := Function.update s.builds i (buildStep keys s (s.builds i)).2 } := by
  have hi := h.builds i
  rcases buildStep_cases keys h hi with
    ⟨scope, pass, epoch, loadedAt, snapshot, hb, hepoch, hres⟩ | ⟨b', hres, hb'⟩
  · rw [hres]
    rw [hb] at hi
    obtain ⟨hload, hbegun, hnow⟩ := hi
    have hcond : s.bumps = loadedAt ∨ (s.bumps - loadedAt) % epochBound ≠ 0 := by
      simpa only [Distinguishable, hb, CanTell] using hdist
    have hsame : s.bumps = loadedAt := by
      apply eq_of_epoch_eq _ hcond
      rw [← h.epoch, ← hload]
      exact hepoch
    apply inv_install h i scope
    omega
  · rw [hres]
    exact inv_setBuild h i hb'

/-- INTERNAL: a bump moves the epoch on and leaves everything else where it is. -/
theorem inv_invalidate {s : State} (h : Inv s) (j : ℕ) (scope : String) :
    Inv { s with
      epoch := (s.epoch + 1) % epochBound
      bumps := s.bumps + 1
      invalidations := Function.update s.invalidations j (.bumped scope s.bumps) } where
  epoch := by
    show (s.epoch + 1) % epochBound = (s.bumps + 1) % epochBound
    rw [h.epoch, Nat.mod_add_mod]
  builds := fun i => buildOk_mono (Nat.le_succ _) (h.builds i)
  pending := by
    intro j' scope' before hj
    show before < s.bumps + 1
    by_cases hjj : j' = j
    · subst hjj
      simp only [Function.update_self, Invalidation.bumped.injEq] at hj
      omega
    · simp only [Function.update_of_ne hjj] at hj
      have := h.pending j' scope' before hj
      omega
  done := by
    intro p hp
    have := h.done p hp
    show p.2 < s.bumps + 1
    omega
  cached := h.cached

/-- INTERNAL: a removal completes its invalidation on an entry that is gone. -/
theorem inv_remove {s : State} (h : Inv s) (j : ℕ) {scope : String} {before : ℕ}
    (hj : s.invalidations j = .bumped scope before) :
    Inv { s with
      cache := Function.update s.cache scope none
      invalidations := Function.update s.invalidations j .idle
      invalidated := (scope, before) :: s.invalidated } where
  epoch := h.epoch
  builds := h.builds
  pending := by
    intro j' scope' before' hj'
    by_cases hjj : j' = j
    · subst hjj
      simp at hj'
    · simp only [Function.update_of_ne hjj] at hj'
      exact h.pending j' scope' before' hj'
  done := by
    intro p hp
    rcases List.mem_cons.mp hp with hp | hp
    · subst hp
      exact h.pending j scope before hj
    · exact h.done p hp
  cached := by
    intro scope' snapshot hcached k hk
    by_cases hscope : scope' = scope
    · subst hscope
      simp at hcached
    · simp only [Function.update_of_ne hscope] at hcached
      rcases List.mem_cons.mp hk with hk | hk
      · exact absurd (Prod.ext_iff.mp hk).1 hscope
      · exact h.cached scope' snapshot hcached k hk

theorem inv_step (keys : Keys) (s : State) (a : Action) (s' : State) (h : Inv s)
    (hdist : Distinguishable s a) (hstep : step keys s a = some s') : Inv s' := by
  cases a with
  | write tables =>
    cases hstep
    exact ⟨h.epoch, h.builds, h.pending, h.done, h.cached⟩
  | call i scope =>
    simp only [step] at hstep
    split at hstep
    · cases hstep
      exact inv_setBuild h i trivial
    · cases hstep
      exact inv_setBuild h i trivial
    · cases hstep
  | build i =>
    cases hstep
    exact inv_build keys h i hdist
  | abort i e =>
    cases hstep
    exact inv_setBuild h i trivial
  | invalidate j scope =>
    simp only [step] at hstep
    split at hstep
    · cases hstep
      exact inv_invalidate h j scope
    · cases hstep
  | remove j =>
    simp only [step] at hstep
    split at hstep
    · cases hstep
    · rename_i scope before hj
      cases hstep
      exact inv_remove h j hj

/-! ## Whole runs -/

/-- INTERNAL: what is completed stays completed. -/
theorem invalidated_step (keys : Keys) {s s' : State} {a : Action}
    (hstep : step keys s a = some s') : s.invalidated ⊆ s'.invalidated := by
  cases a with
  | remove j =>
    simp only [step] at hstep
    split at hstep
    · cases hstep
    · cases hstep
      exact List.subset_cons_self _ _
  | call i scope =>
    simp only [step] at hstep
    split at hstep <;> cases hstep <;> exact List.Subset.refl _
  | invalidate j scope =>
    simp only [step] at hstep
    split at hstep
    · cases hstep
      exact List.Subset.refl _
    · cases hstep
  | _ =>
    cases hstep
    exact List.Subset.refl _

/-- INTERNAL: the same over a run. -/
theorem invalidated_exec (keys : Keys) {s t : State} {as : List Action}
    (hrun : exec (step keys) s as = some t) : s.invalidated ⊆ t.invalidated :=
  exec_invariant (fun u => s.invalidated ⊆ u.invalidated)
    (fun _ _ _ hu hs => List.Subset.trans hu (invalidated_step keys hs))
    (List.Subset.refl _) hrun

/-- **No snapshot outlives an invalidation of its scope.** From the moment an invalidation
has completed, the cache holds no snapshot of its scope whose fetch began before its bump,
in any later state of any run in which every comparison of epochs can tell them apart. -/
theorem no_snapshot_outlives_invalidation (keys : Keys) (tables : Tables) {as bs : List Action}
    {t u : State} (hrun : exec (step keys) (State.boot tables) as = some t)
    (hlater : exec (step keys) t bs = some u)
    (hmeets : Meets (step keys) Distinguishable (State.boot tables) (as ++ bs))
    {scope : String} {k : ℕ} (hdone : (scope, k) ∈ t.invalidated) {snapshot : ScopeVectors}
    (hcached : u.cache scope = some snapshot) : ¬ snapshot.BeganBefore k := by
  have hall : exec (step keys) (State.boot tables) (as ++ bs) = some u := by
    rw [exec_append, hrun]
    exact hlater
  have hinv : Inv u := exec_invariant_of_meets Inv (inv_step keys) (inv_boot tables) hall hmeets
  exact hinv.cached scope snapshot hcached k (invalidated_exec keys hlater hdone)

/-! ## When the epoch comes around -/

/-- A build of one scope up to the end of its first fetch. -/
def firstFetch : List Action :=
  [.call 0 "global:skills", .build 0, .build 0, .build 0, .build 0]

/-- That many invalidations of the scope, one after the other. -/
def storm : ℕ → List Action
  | 0 => []
  | n + 1 => .invalidate 0 "global:skills" :: .remove 0 :: storm n

/-- INTERNAL: a storm moves the epoch on and touches no build. -/
theorem exec_storm (keys : Keys) (n : ℕ) {s : State} (hidle : s.invalidations 0 = .idle) :
    ∃ t, exec (step keys) s (storm n) = some t ∧ t.builds = s.builds ∧
      t.epoch % epochBound = (s.epoch + n) % epochBound ∧
      (0 < n → ("global:skills", s.bumps) ∈ t.invalidated ∧ t.epoch < epochBound) := by
  induction n generalizing s with
  | zero => exact ⟨s, rfl, rfl, rfl, fun h => absurd h (Nat.lt_irrefl 0)⟩
  | succ n ih =>
    let s' : State :=
      { s with
        epoch := (s.epoch + 1) % epochBound
        bumps := s.bumps + 1
        cache := Function.update s.cache "global:skills" none
        invalidations := Function.update
          (Function.update s.invalidations 0 (.bumped "global:skills" s.bumps)) 0 .idle
        invalidated := ("global:skills", s.bumps) :: s.invalidated }
    have htwo : exec (step keys) s (storm (n + 1)) = exec (step keys) s' (storm n) := by
      simp [storm, exec, step, hidle, s']
    obtain ⟨t, hrun, hbuilds, hepoch, hlast⟩ := ih (show s'.invalidations 0 = .idle by simp [s'])
    refine ⟨t, htwo.trans hrun, hbuilds, ?_, ?_⟩
    · rw [hepoch]
      show ((s.epoch + 1) % epochBound + n) % epochBound = (s.epoch + (n + 1)) % epochBound
      rw [Nat.mod_add_mod]
      congr 1
      omega
    · intro _
      have hmem : ("global:skills", s.bumps) ∈ t.invalidated :=
        invalidated_exec keys hrun List.mem_cons_self
      refine ⟨hmem, ?_⟩
      cases n with
      | zero =>
        simp only [storm, exec_nil, Option.some.injEq] at hrun
        rw [← hrun]
        exact Nat.mod_lt _ (by decide)
      | succ n => exact (hlast (Nat.succ_pos n)).2

/-- **The epoch can come around.** After exactly `2 ^ 64` invalidations between the load and
the comparison of one build, the build installs a snapshot that was fetched before all of
them. -/
theorem stale_snapshot_after_wrap :
    ∃ (keys : Keys) (tables : Tables) (as bs : List Action) (t u : State) (scope : String)
      (k : ℕ) (snapshot : ScopeVectors),
      exec (step keys) (State.boot tables) as = some t ∧ exec (step keys) t bs = some u ∧
        (scope, k) ∈ t.invalidated ∧ u.cache scope = some snapshot ∧ snapshot.BeganBefore k := by
  let keys : Keys := { token := fun _ path => path, openVec := fun _ => none }
  let tables : Tables := { docs := [], rows := [] }
  obtain ⟨s, hfetch, hbuild, hepoch, hidle, hbumps⟩ :
      ∃ s, exec (step keys) (State.boot tables) firstFetch = some s ∧
        s.builds 0 = .fetched "global:skills" 0 0 0 (snapshotOf [] 0) ∧ s.epoch = 0 ∧
        s.invalidations 0 = .idle ∧ s.bumps = 0 :=
    ⟨_, rfl, rfl, rfl, rfl, rfl⟩
  -- the number of invalidations is kept abstract: nothing may count up to it
  obtain ⟨n, hn⟩ : ∃ n, n = epochBound := ⟨epochBound, rfl⟩
  have hpos : 0 < n := by
    rw [hn]
    decide
  obtain ⟨t, hstorm, hbuilds, hwrap, hlast⟩ := exec_storm keys n hidle
  obtain ⟨hmem, hlt⟩ := hlast hpos
  have hzero : t.epoch = 0 := by
    rw [hepoch, Nat.zero_add, hn, Nat.mod_self] at hwrap
    rwa [Nat.mod_eq_of_lt hlt] at hwrap
  have hcompare : t.builds 0 = .fetched "global:skills" 0 0 0 (snapshotOf [] 0) := by
    rw [hbuilds, hbuild]
  refine ⟨keys, tables, firstFetch ++ storm n, [.build 0], t,
    { t with
      cache := Function.update t.cache "global:skills" (some (snapshotOf [] 0))
      builds := Function.update t.builds 0 (.finished (.ok (snapshotOf [] 0))) },
    "global:skills", 0, snapshotOf [] 0, ?_, ?_, ?_, ?_, Nat.le_refl 0⟩
  · rw [exec_append, hfetch]
    exact hstorm
  · simp [exec, step, buildStep, hcompare, hzero]
  · rw [← hbumps]
    exact hmem
  · simp

/-- A run with an invalidation and a build that meets it: the raced pass is refused and the
second pass installs. -/
theorem no_snapshot_outlives_invalidation_raced :
    ∃ (keys : Keys) (tables : Tables) (as bs : List Action) (t u : State)
      (snapshot : ScopeVectors),
      exec (step keys) (State.boot tables) as = some t ∧ exec (step keys) t bs = some u ∧
        ("global:skills", 0) ∈ t.invalidated ∧ u.cache "global:skills" = some snapshot ∧
        ¬ snapshot.BeganBefore 0 := by
  let keys : Keys := { token := fun _ path => path, openVec := fun _ => none }
  let tables : Tables := { docs := [], rows := [] }
  refine ⟨keys, tables, firstFetch ++ storm 1, [.build 0, .build 0, .build 0, .build 0, .build 0],
    _, _, snapshotOf [] 1, rfl, rfl, ?_, rfl, ?_⟩
  · exact List.mem_cons_self
  · have hmeets : Meets (step keys) Distinguishable (State.boot tables)
        ((firstFetch ++ storm 1) ++ [.build 0, .build 0, .build 0, .build 0, .build 0]) := by
      decide
    exact no_snapshot_outlives_invalidation keys tables rfl rfl hmeets List.mem_cons_self rfl

end Mycelium.Analysis.CacheEpoch
