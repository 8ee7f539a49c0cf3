import Mathlib.Data.Nat.Order.Lemmas
import Mycelium.Analysis.SearchRefinement
import Mycelium.Analysis.SweepPuts

/-!
# The migration of deprecated tags across boots

1. *One path through the boots* (`inv_step`, `inv_exec`), whatever is cut and whatever fails.
2. *A boot that nothing disturbs* gets to its end (`completes_targets`) and retires what it
   reads (`migration_settles`).
3. *A boot that is cut between the two writes* leaves the old document in the index, and no sweep
   after it looks at the path again (`cut_migration_unindexed`).
-/

set_option autoImplicit false

namespace Mycelium.Analysis.TagMigration

open StepSystem Completion
open Mycelium.Model.Concepts Mycelium.Model.ConceptStore Mycelium.Model.LifecycleSweep
open Mycelium.Model.StoreTasks (Pc Choice Call taskStep Store.restart)
open Mycelium.Analysis.ConceptRoundTrip Mycelium.Analysis.CallCompletion
open Mycelium.Analysis.RestoreReversal Mycelium.Analysis.SweepPuts
open Mycelium.Analysis.SearchRefinement (asciiLower)

variable {cx : Codec} {lower : String → String}

/-! ## One path through the boots -/

section Invariant

variable (cx lower) (s₀ : Store) (name path : String)

/-- The path is settled, or whole and still to come. -/
def Ahead (s : Store) (toCome : Prop) : Prop :=
  ((Same s₀ s path ∨ ∃ m, Migrated cx lower s₀ s name path m) ∧ toCome) ∨
    Settled cx lower s₀ name path s

/-- What a sweep that stands there has done to the path; `whole` is whether nothing has
disturbed it. -/
def SweepOk (whole : Prop) (s : Store) : SweepPc → Prop
  | .targets todo _ => whole → Ahead cx lower s₀ name path s (name ∈ todo)
  | .scope n paths rest _ => n ≠ libraryScope ∧
      (n = name → path ∈ paths → s₀.registered path = true) ∧
      (whole → Ahead cx lower s₀ name path s (name ∈ rest ∨ n = name ∧ path ∈ paths))
  | .putting n pc paths rest _ => n ≠ libraryScope ∧
      (n = name → path ∈ paths → s₀.registered path = true) ∧ ∃ q, PutAt q pc ∧
      (n = name → q = path → s₀.registered path = true ∧ PcOk cx lower s₀ name path s pc) ∧
      (whole → (n = name ∧ q = path) ∨
        Ahead cx lower s₀ name path s (name ∈ rest ∨ n = name ∧ path ∈ paths))
  | .done _ => whole → Settled cx lower s₀ name path s

/-- INTERNAL: the invariant, of a store and a sweep. -/
structure Good (whole : Prop) (stores : String → Store) (pc : SweepPc) : Prop where
  phase : Phase cx lower s₀ (stores name) name path
  registered : (stores name).registered path = s₀.registered path
  sweep : SweepOk cx lower s₀ name path whole (stores name) pc

/-- The invariant, of a state. -/
structure Inv (whole : Prop) (t : State) : Prop where
  phase : Phase cx lower s₀ (t.stores name) name path
  registered : (t.stores name).registered path = s₀.registered path
  sweep : ∀ pc, t.sweep = some pc → SweepOk cx lower s₀ name path whole (t.stores name) pc

end Invariant

section Invariant

variable {s₀ s s' : Store} {name path : String} {whole : Prop} {stores : String → Store}

theorem Ahead.of_same {P Q : Prop} (h : Ahead cx lower s₀ name path s P) (hsame : Same s s' path)
    (hPQ : P → Q ∨ Settled cx lower s₀ name path s') : Ahead cx lower s₀ name path s' Q := by
  obtain ⟨hclean, hP⟩ | hsettled := h
  · obtain hQ | hsettled := hPQ hP
    · left
      refine ⟨?_, hQ⟩
      obtain h | ⟨m, hm⟩ := hclean
      · exact .inl (h.trans hsame)
      · exact .inr ⟨m, hm.of_same hsame⟩
    · exact .inr hsettled
  · exact .inr (hsettled.of_same hsame)

/-- INTERNAL: a put in flight takes its next step. -/
theorem sweepStep_putting {ch : Choice} {n : String} {pc : Pc} {paths rest : List String}
    {migrated : ℕ} (hpc : ∀ r, pc ≠ .finished r) :
    sweepStep cx lower stores ch (.putting n pc paths rest migrated) =
      (setStore stores n (taskStep cx (stores n) ch pc).1,
        .putting n (taskStep cx (stores n) ch pc).2 paths rest migrated) := by
  cases pc with
  | finished r => exact (hpc r rfl).elim
  | _ => rfl

theorem mem_list_paths {s : Store} {path : String} :
    path ∈ s.list.map ConceptEntry.path ↔ s.registered path = true := by
  rw [registered_iff, List.mem_map]
  exact exists_congr fun e => and_congr_left fun _ => mem_list

/-- INTERNAL: the sweep comes to a scope. -/
theorem good_targets {ch : Choice} {n : String} {rest : List String} {migrated : ℕ}
    (h : Good cx lower s₀ name path whole stores (.targets (n :: rest) migrated)) :
    Good cx lower s₀ name path whole (sweepStep cx lower stores ch
      (.targets (n :: rest) migrated)).1 (sweepStep cx lower stores ch
        (.targets (n :: rest) migrated)).2 := by
  obtain ⟨hphase, hregistered, hahead⟩ := h
  have hnot (hdue : ¬ Due cx lower s₀ name path) :
      Settled cx lower s₀ name path (stores name) :=
    .inr ⟨same_of_not_due hdue hphase, hdue⟩
  simp only [sweepStep]
  split
  · rename_i hlibrary
    refine ⟨hphase, hregistered, fun hwhole => (hahead hwhole).of_same (.refl _ _) ?_⟩
    intro hmem
    obtain rfl | hmem := List.mem_cons.mp hmem
    · exact .inr (hnot fun hdue => hdue.1.swept hlibrary)
    · exact .inl hmem
  · rename_i hlibrary
    refine ⟨hphase, hregistered, hlibrary, ?_, ?_⟩
    · rintro rfl hmem
      rw [← hregistered]
      exact mem_list_paths.mp hmem
    · intro hwhole
      apply (hahead hwhole).of_same (.refl _ _)
      intro hmem
      obtain rfl | hmem := List.mem_cons.mp hmem
      · by_cases hlisted : (stores name).registered path = true
        · exact .inl (.inr ⟨rfl, mem_list_paths.mpr hlisted⟩)
        · exact .inr (hnot fun hdue => hlisted (hregistered.trans hdue.1.registered))
      · exact .inl (.inl hmem)

/-- INTERNAL: the sweep comes to a path. -/
theorem good_scope (hcx : Faithful cx) {ch : Choice} (hch : Clocked cx ch)
    (hreserved : isReserved path = false) {n p : String} {paths rest : List String} {migrated : ℕ}
    (h : Good cx lower s₀ name path whole stores (.scope n (p :: paths) rest migrated)) :
    Good cx lower s₀ name path whole (sweepStep cx lower stores ch
      (.scope n (p :: paths) rest migrated)).1 (sweepStep cx lower stores ch
        (.scope n (p :: paths) rest migrated)).2 := by
  obtain ⟨hphase, hregistered, hlibrary, hlisted, hahead⟩ := h
  have hrest : n = name → path ∈ paths → s₀.registered path = true :=
    fun hn hmem => hlisted hn (List.mem_cons_of_mem _ hmem)
  simp only [sweepStep]
  cases hvisit : visit cx lower (stores n) ch p with
  | none =>
    refine ⟨hphase, hregistered, hlibrary, hrest, fun hwhole => ?_⟩
    obtain ⟨hclean, hmem | ⟨rfl, hmem⟩⟩ | hsettled := hahead hwhole
    · exact .inl ⟨hclean, .inl hmem⟩
    · obtain rfl | hmem := List.mem_cons.mp hmem
      · -- the path itself is passed over: it is not due
        obtain hsame | hmigrated := hclean
        · exact .inr (.inr ⟨hsame, not_due_of_visit hvisit hsame.file⟩)
        · exact .inr (.inl hmigrated)
      · exact .inl ⟨hclean, .inr ⟨rfl, hmem⟩⟩
    · exact .inr hsettled
  | some pc =>
    refine ⟨hphase, hregistered, hlibrary, hrest, p, putAt_visit hvisit, ?_, fun hwhole => ?_⟩
    · rintro rfl rfl
      have hlist := hlisted rfl List.mem_cons_self
      exact ⟨hlist, pcOk_visit hcx hch hreserved hlibrary hlist hphase hvisit⟩
    · obtain ⟨hclean, hmem | ⟨rfl, hmem⟩⟩ | hsettled := hahead hwhole
      · exact .inr (.inl ⟨hclean, .inl hmem⟩)
      · obtain rfl | hmem := List.mem_cons.mp hmem
        · exact .inl ⟨rfl, rfl⟩
        · exact .inr (.inl ⟨hclean, .inr ⟨rfl, hmem⟩⟩)
      · exact .inr (.inr hsettled)

/-- INTERNAL: a put is over. -/
theorem good_finished {n : String} {r : Except StoreError Unit} {paths rest : List String}
    {migrated : ℕ} (migrated' : ℕ)
    (h : Good cx lower s₀ name path whole stores (.putting n (.finished r) paths rest migrated)) :
    Good cx lower s₀ name path whole stores (.scope n paths rest migrated') := by
  obtain ⟨hphase, hregistered, hlibrary, hlisted, q, -, hpc, hahead⟩ := h
  refine ⟨hphase, hregistered, hlibrary, hlisted, fun hwhole => ?_⟩
  obtain ⟨rfl, rfl⟩ | hahead := hahead hwhole
  · exact .inr (hpc rfl rfl).2
  · exact hahead

/-- INTERNAL: a put takes a step. -/
theorem good_putting {ch : Choice} (hreserved : isReserved path = false) {n : String} {pc : Pc}
    {paths rest : List String} {migrated : ℕ}
    (h : Good cx lower s₀ name path whole stores (.putting n pc paths rest migrated)) :
    Good cx lower s₀ name path whole (setStore stores n (taskStep cx (stores n) ch pc).1)
      (.putting n (taskStep cx (stores n) ch pc).2 paths rest migrated) := by
  obtain ⟨hphase, hregistered, hlibrary, hlisted, q, hat, hpc, hahead⟩ := h
  obtain ⟨hat', hkept⟩ := putAt_taskStep cx (stores n) ch hat hreserved
  by_cases hq : n = name ∧ q = path
  · obtain ⟨rfl, rfl⟩ := hq
    obtain ⟨hreg, hok⟩ := hpc rfl rfl
    obtain ⟨hok', hreg'⟩ := pcOk_taskStep ch hreserved (hregistered.trans hreg) hat hok
    have hstore : setStore stores n (taskStep cx (stores n) ch pc).1 n =
        (taskStep cx (stores n) ch pc).1 := if_pos rfl
    rw [← hstore] at hok' hreg'
    exact ⟨phase_of_pcOk hok', hreg'.trans hreg.symm, hlibrary, hlisted, q, hat',
      fun _ _ => ⟨hreg, hok'⟩, fun _ => .inl ⟨rfl, rfl⟩⟩
  · have hkept : Kept (stores name) (setStore stores n (taskStep cx (stores n) ch pc).1 name)
        path := by
      by_cases hn : name = n
      · subst hn
        rw [show setStore stores name (taskStep cx (stores name) ch pc).1 name = _ from if_pos rfl]
        exact hkept fun heq => hq ⟨rfl, heq.symm⟩
      · rw [show setStore stores n (taskStep cx (stores n) ch pc).1 name = _ from if_neg hn]
        exact .refl _ _
    refine ⟨hphase.of_same hkept.toSame, hkept.registered.trans hregistered, hlibrary, hlisted, q,
      hat', fun hn heq => (hq ⟨hn, heq⟩).elim, fun hwhole => ?_⟩
    obtain heq | hahead := hahead hwhole
    · exact (hq heq).elim
    · exact .inr (hahead.of_same hkept.toSame fun h => .inl h)

/-- **A step of the sweep.** -/
theorem good_sweepStep (hcx : Faithful cx) {ch : Choice} (hch : Clocked cx ch)
    (hreserved : isReserved path = false) {pc : SweepPc}
    (h : Good cx lower s₀ name path whole stores pc) :
    Good cx lower s₀ name path whole (sweepStep cx lower stores ch pc).1
      (sweepStep cx lower stores ch pc).2 := by
  cases pc with
  | targets todo migrated =>
    cases todo with
    | nil =>
      refine ⟨h.phase, h.registered, fun hwhole => ?_⟩
      obtain ⟨-, hmem⟩ | hsettled := h.sweep hwhole
      · cases hmem
      · exact hsettled
    | cons n rest => exact good_targets h
  | scope n paths rest migrated =>
    cases paths with
    | nil =>
      obtain ⟨hphase, hregistered, -, -, hahead⟩ := h
      refine ⟨hphase, hregistered, fun hwhole => (hahead hwhole).of_same (.refl _ _) ?_⟩
      rintro (hmem | ⟨-, hmem⟩)
      · exact .inl hmem
      · cases hmem
    | cons p paths => exact good_scope hcx hch hreserved h
  | putting n pc paths rest migrated =>
    by_cases hend : ∃ r, pc = .finished r
    · obtain ⟨r, rfl⟩ := hend
      cases r with
      | ok _ => exact good_finished (migrated + 1) h
      | error _ => exact good_finished migrated h
    · rw [sweepStep_putting fun r hr => hend ⟨r, hr⟩]
      exact good_putting hreserved h
  | done migrated => exact h

/-- INTERNAL: a failure leaves the stores and goes on with the next concept. -/
theorem sweepOk_sweepFail {pc pc' : SweepPc} (hwhole : ¬ whole)
    (h : SweepOk cx lower s₀ name path whole s pc) (hfail : sweepFail pc = some pc') :
    SweepOk cx lower s₀ name path whole s pc' := by
  cases pc with
  | targets todo migrated =>
    cases todo with
    | nil => cases hfail
    | cons n rest =>
      cases hfail
      exact fun hw => (hwhole hw).elim
  | scope n paths rest migrated =>
    cases paths with
    | nil => cases hfail
    | cons p paths =>
      cases hfail
      exact ⟨h.1, fun hn hmem => h.2.1 hn (List.mem_cons_of_mem _ hmem),
        fun hw => (hwhole hw).elim⟩
  | putting n pc paths rest migrated =>
    cases hfail
    exact ⟨h.1, h.2.1, fun hw => (hwhole hw).elim⟩
  | done migrated => cases hfail

/-- **A step of the system.** -/
theorem inv_step (hcx : Faithful cx) (hreserved : isReserved path = false) {t t' : State}
    {a : Action} (h : Inv cx lower s₀ name path whole t) (hclock : ClockedAction cx a)
    (halone : LeavesAlone name path t a) (hwhole : whole → ∃ ch, a = .step ch)
    (hstep : step cx lower t a = some t') : Inv cx lower s₀ name path whole t' := by
  have hdisturbed (ha : ∀ ch, a ≠ .step ch) : ¬ whole := fun hw => by
    obtain ⟨ch, hch⟩ := hwhole hw
    exact ha ch hch
  cases a with
  | boot users =>
    have hnot := hdisturbed nofun
    cases hstep
    refine ⟨h.phase.of_same (same_restart _ _).toSame, h.registered, ?_⟩
    intro pc hpc
    obtain ⟨us, -, rfl⟩ := Option.map_eq_some_iff.mp hpc
    exact fun hw => (hnot hw).elim
  | step ch =>
    obtain ⟨pc, hsweep, heq⟩ := Option.bind_eq_some_iff.mp hstep
    cases heq
    obtain ⟨hphase, hregistered, hok⟩ := good_sweepStep hcx hclock hreserved
      ⟨h.phase, h.registered, h.sweep pc hsweep⟩
    refine ⟨hphase, hregistered, ?_⟩
    intro pc' hpc'
    cases hpc'
    exact hok
  | fail =>
    have hnot := hdisturbed nofun
    obtain ⟨pc, hsweep, heq⟩ := Option.bind_eq_some_iff.mp hstep
    obtain ⟨pc', hfail, heq⟩ := Option.bind_eq_some_iff.mp heq
    cases heq
    refine ⟨h.phase, h.registered, ?_⟩
    intro pc'' hpc''
    cases hpc''
    exact sweepOk_sweepFail hnot (h.sweep pc hsweep) hfail
  | serve stores =>
    have hserved : t' = { stores, sweep := none } := by
      simp only [step] at hstep
      split at hstep
      · exact (Option.some.inj hstep).symm
      · exact (Option.some.inj hstep).symm
      · cases hstep
    subst hserved
    refine ⟨h.phase.of_same halone.1, halone.2.trans h.registered, ?_⟩
    intro pc hpc
    cases hpc

/-- INTERNAL: where a sweep starts or no sweep is. -/
theorem inv_start {t : State} (hsame : Kept s₀ (t.stores name) path)
    (hsweep : ∀ pc, t.sweep = some pc →
      ∃ todo, pc = .targets todo 0 ∧ (whole → name ∈ todo)) :
    Inv cx lower s₀ name path whole t := by
  refine ⟨.same hsame.toSame, hsame.registered, ?_⟩
  intro pc hpc
  obtain ⟨todo, rfl, hmem⟩ := hsweep pc hpc
  exact fun hw => .inl ⟨.inl hsame.toSame, hmem hw⟩

/-- **A run of boots.** -/
theorem inv_exec (hcx : Faithful cx) (hreserved : isReserved path = false) {t t' : State}
    {as : List Action} (h : Inv cx lower s₀ name path whole t)
    (hclock : ∀ a ∈ as, ClockedAction cx a)
    (halone : Meets (step cx lower) (LeavesAlone name path) t as)
    (hwhole : whole → ∀ a ∈ as, ∃ ch, a = .step ch)
    (hrun : exec (step cx lower) t as = some t') : Inv cx lower s₀ name path whole t' := by
  have hmeets := meets_and_of_forall
    (p := fun a => ClockedAction cx a ∧ (whole → ∃ ch, a = .step ch)) halone
    fun a ha => ⟨hclock a ha, fun hw => hwhole hw a ha⟩
  refine exec_invariant_of_meets (Inv cx lower s₀ name path whole) ?_ h hrun hmeets
  intro t a t' hinv hok hstep
  exact inv_step hcx hreserved hinv hok.2.1 hok.1 hok.2.2 hstep

end Invariant

/-! ## A boot that nothing disturbs -/

def sweepNext (cx : Codec) (lower : String → String) (r : (String → Store) × SweepPc)
    (ch : Choice) : (String → Store) × SweepPc := sweepStep cx lower r.1 ch r.2

def sweepResult (r : (String → Store) × SweepPc) : Option ℕ :=
  match r.2 with
  | .done migrated => some migrated
  | _ => none

/-- The sweep gets to its end, whatever its clock says. -/
abbrev SweepEnds (cx : Codec) (lower : String → String) (stores : String → Store)
    (pc : SweepPc) : Prop :=
  Completes (sweepNext cx lower) sweepResult (Clocked cx) (fun _ _ => True) (stores, pc)

theorem setStore_setStore (stores : String → Store) (name : String) (s s' : Store) :
    setStore (setStore stores name s) name s' = setStore stores name s' := by
  funext n
  unfold setStore
  split <;> rfl

theorem setStore_self (stores : String → Store) (name : String) :
    setStore stores name (stores name) = stores := by
  funext n
  unfold setStore
  split
  · rename_i hn
    rw [hn]
  · rfl

/-- INTERNAL: a put inside the sweep. -/
theorem completes_putting {name : String} {paths rest : List String}
    {migrated : ℕ} (hrest : ∀ stores migrated, SweepEnds cx lower stores
      (.scope name paths rest migrated)) (stores : String → Store) {s : Store} {pc : Pc}
    (hput : Ends cx (fun _ _ => True) s pc) :
    SweepEnds cx lower (setStore stores name s) (.putting name pc paths rest migrated) := by
  let inside (r : Store × Pc) : (String → Store) × SweepPc :=
    (setStore stores name r.1, .putting name r.2 paths rest migrated)
  refine hput.embed inside (fun _ _ => rfl) ?_ ?_
  · rintro ⟨s, pc⟩ ch hresult
    have hpc : ∀ r, pc ≠ .finished r := by
      rintro r rfl
      cases hresult
    have hstore : setStore stores name s name = s := if_pos rfl
    simp only [inside, sweepNext, sweepStep_putting hpc, hstore, setStore_setStore, next]
  · rintro ⟨s, pc⟩ r hresult -
    cases pc with
    | finished r' =>
      apply Completes.step rfl
      intro ch hch
      cases r' with
      | ok _ => exact hrest _ _
      | error _ => exact hrest _ _
    | _ => cases hresult

/-- INTERNAL: one scope. -/
theorem completes_scope {name : String} {rest : List String}
    (hrest : ∀ stores migrated, SweepEnds cx lower stores (.targets rest migrated))
    (paths : List String) (stores : String → Store) (migrated : ℕ) :
    SweepEnds cx lower stores (.scope name paths rest migrated) := by
  induction paths generalizing stores migrated with
  | nil =>
    apply Completes.step rfl
    intro ch hch
    exact hrest stores migrated
  | cons path paths ih =>
    apply Completes.step rfl
    intro ch hch
    simp only [sweepNext, sweepStep]
    cases hvisit : visit cx lower (stores name) ch path with
    | none => exact ih stores migrated
    | some pc =>
      obtain ⟨-, c, -, -, rfl⟩ := visit_eq_some hvisit
      have hput : Ends cx (fun _ _ => True) (stores name)
          ((Call.put (retired lower (ch.clock 0) c)).begin cx sweepHandle
            fun i => ch.clock (i + 1)) :=
        PutRoundTrip.ends_put_or_fails _ _ _ _ (fun _ _ => trivial) fun _ _ _ _ _ _ => trivial
      have hends : SweepEnds cx lower _ (.putting name _ paths rest migrated) :=
        completes_putting ih stores hput
      rw [setStore_self] at hends
      exact hends

/-- **Every sweep gets to its end.** -/
theorem completes_targets (cx : Codec) (lower : String → String) (todo : List String)
    (stores : String → Store) (migrated : ℕ) :
    SweepEnds cx lower stores (.targets todo migrated) := by
  induction todo generalizing stores migrated with
  | nil =>
    apply Completes.step rfl
    intro ch hch
    exact .done rfl trivial
  | cons name rest ih =>
    apply Completes.step rfl
    intro ch hch
    simp only [sweepNext, sweepStep]
    split
    · exact ih stores migrated
    · exact completes_scope ih _ stores migrated

/-- INTERNAL: the steps of a sweep, as a run of the system. -/
theorem exec_steps (chs : List Choice) (stores : String → Store) (pc : SweepPc) :
    exec (step cx lower) { stores, sweep := some pc } (chs.map .step) =
      some { stores := (chs.foldl (sweepNext cx lower) (stores, pc)).1
             sweep := some (chs.foldl (sweepNext cx lower) (stores, pc)).2 } := by
  induction chs generalizing stores pc with
  | nil => rfl
  | cons ch chs ih =>
    exact ih (sweepStep cx lower stores ch pc).1 (sweepStep cx lower stores ch pc).2

/-! ## Over all boots -/

/-- The actions of a boot whose sweep takes a number of steps. -/
def bootRun (users : List (String × Bool)) (choices : ℕ → Choice) (k : ℕ) : List Action :=
  .boot (some users) :: ((List.range k).map choices).map .step

theorem clocked_bootRun {users : List (String × Bool)} {choices : ℕ → Choice} {k : ℕ}
    (hchoices : ∀ k, Clocked cx (choices k)) : ∀ a ∈ bootRun users choices k,
      ClockedAction cx a := by
  intro a ha
  obtain rfl | ha := List.mem_cons.mp ha
  · trivial
  · obtain ⟨ch, hch, rfl⟩ := List.mem_map.mp ha
    obtain ⟨k, -, rfl⟩ := List.mem_map.mp hch
    exact hchoices k

/-- INTERNAL: the steps of a sweep serve nobody. -/
theorem leavesAlone_steps {name path : String} (s : State) (chs : List Choice) :
    Meets (step cx lower) (LeavesAlone name path) s (chs.map .step) := by
  induction chs generalizing s with
  | nil => trivial
  | cons ch chs ih =>
    refine ⟨trivial, ?_⟩
    cases step cx lower s (.step ch) with
    | none => trivial
    | some s' => exact ih s'

/-- INTERNAL: a boot, as seen by one path. -/
theorem inv_boot {whole : Prop} {name path : String} {s t : State}
    {users : Option (List (String × Bool))}
    (htarget : whole → ∀ us, users = some us → name ∈ sweepTargets us)
    (hboot : step cx lower s (.boot users) = some t) :
    Inv cx lower (s.stores name) name path whole t := by
  cases hboot
  refine inv_start (same_restart _ _) fun pc hpc => ?_
  obtain ⟨us, hus, rfl⟩ := Option.map_eq_some_iff.mp hpc
  exact ⟨_, rfl, fun hw => htarget hw us hus⟩

/-- INTERNAL: and the steps after it. -/
theorem inv_bootRun (hcx : Faithful cx) {whole : Prop} {name path : String}
    (hreserved : isReserved path = false) {users : List (String × Bool)} {choices : ℕ → Choice}
    (hchoices : ∀ k, Clocked cx (choices k)) {s t : State} {k : ℕ}
    (htarget : whole → name ∈ sweepTargets users)
    (hrun : exec (step cx lower) s (bootRun users choices k) = some t) :
    Inv cx lower (s.stores name) name path whole t := by
  obtain ⟨s', hboot, hsteps⟩ := exec_cons_eq_some.mp hrun
  have hstart : Inv cx lower (s.stores name) name path whole s' :=
    inv_boot (fun hw us hus => Option.some.inj hus ▸ htarget hw) hboot
  refine inv_exec hcx hreserved hstart ?_ ?_ ?_ hsteps
  · have hall : ∀ a ∈ bootRun users choices k, ClockedAction cx a := clocked_bootRun hchoices
    exact fun a ha => hall a (List.mem_cons_of_mem _ ha)
  · exact leavesAlone_steps _ _
  · intro _ a ha
    obtain ⟨ch, -, rfl⟩ := List.mem_map.mp ha
    exact ⟨ch, rfl⟩

/-- INTERNAL: a boot can always take its steps. -/
theorem exec_bootRun (cx : Codec) (lower : String → String) (s : State)
    (users : List (String × Bool)) (choices : ℕ → Choice) (k : ℕ) :
    ∃ t, exec (step cx lower) s (bootRun users choices k) = some t :=
  ⟨_, exec_steps _ _ _⟩

/-- INTERNAL: a boot gets to the end of its sweep. -/
theorem exists_bootRun (lower : String → String) (s : State) (users : List (String × Bool))
    {choices : ℕ → Choice} (hchoices : ∀ k, Clocked cx (choices k)) :
    ∃ k t n, exec (step cx lower) s (bootRun users choices k) = some t ∧
      t.sweep = some (.done n) := by
  obtain ⟨k, n, hresult, -⟩ := (completes_targets cx lower (sweepTargets users)
    (fun name => Store.restart (s.stores name)) 0).exists_result choices hchoices
  refine ⟨k, _, n, exec_steps _ _ _, ?_⟩
  unfold sweepResult at hresult
  split at hresult
  · rename_i hdone
    cases hresult
    exact congrArg some hdone
  · cases hresult

/-- **The tag is migrated once and for all.** After any run of boots that were cut or met
failures anywhere, the next boot that nothing disturbs gets to its end and retires every concept
that is due and not yet retired; the retired ones and all others it leaves alone. Only a cut
between the two writes of a path keeps the old document of it.
SOURCE: lifecycle.rs:49-246, concept_store.rs:291-413 -/
theorem migration_settles (hcx : Faithful cx) {s t₁ : State} {as : List Action}
    (hidle : s.sweep = none) (hclock : ∀ a ∈ as, ClockedAction cx a)
    (hrun : exec (step cx lower) s as = some t₁) (users : List (String × Bool))
    {choices : ℕ → Choice} (hchoices : ∀ k, Clocked cx (choices k)) :
    ∃ k t n, exec (step cx lower) t₁ (bootRun users choices k) = some t ∧
      t.sweep = some (.done n) ∧
      ∀ name path, isReserved path = false →
        Meets (step cx lower) (LeavesAlone name path) s as →
        (¬ Due cx lower (s.stores name) name path →
          Same (s.stores name) (t.stores name) path) ∧
        (Due cx lower (s.stores name) name path → name ∈ sweepTargets users →
          ∃ m, Migrated cx lower (s.stores name) (t.stores name) name path m ∨
            (FileOnly cx lower (s.stores name) (t₁.stores name) name path m ∧
              FileOnly cx lower (s.stores name) (t.stores name) name path m)) := by
  obtain ⟨k, t, n, hboot, hend⟩ := exists_bootRun lower t₁ users hchoices
  refine ⟨k, t, n, hboot, hend, fun name path hreserved halone => ?_⟩
  have hstart : Inv cx lower (s.stores name) name path False s :=
    inv_start (.refl _ _) fun pc hpc => by
      rw [hidle] at hpc
      cases hpc
  have hbefore := inv_exec hcx hreserved hstart hclock halone (fun h => h.elim) hrun
  have hafter : Inv cx lower (t₁.stores name) name path False t :=
    inv_bootRun hcx hreserved hchoices (fun h => h.elim) hboot
  -- what is no longer due at the boot is left alone by it
  have hleft (hdue : ¬ Due cx lower (t₁.stores name) name path) :
      Same (t₁.stores name) (t.stores name) path := same_of_not_due hdue hafter.phase
  refine ⟨fun hdue => ?_, fun hdue htarget => ?_⟩
  · have hsame := same_of_not_due hdue hbefore.phase
    refine hsame.trans (hleft fun hdue₁ => hdue (hdue₁.of_kept ?_))
    exact ⟨⟨hsame.file.symm, hsame.index.symm⟩, hbefore.registered.symm⟩
  · cases hbefore.phase with
    | same hsame =>
      have hkept : Kept (s.stores name) (t₁.stores name) path := ⟨hsame, hbefore.registered⟩
      have hwhole : Inv cx lower (t₁.stores name) name path True t :=
        inv_bootRun hcx hreserved hchoices (fun _ => htarget) hboot
      obtain ⟨m, hm⟩ | ⟨-, hnot⟩ := hwhole.sweep _ hend trivial
      · exact ⟨m, .inl (hm.of_kept hkept)⟩
      · exact (hnot (hdue.of_kept hkept)).elim
    | fileOnly m hm => exact ⟨m, .inr ⟨hm, hm.of_same (hleft (not_due_of_file hcx hm.file))⟩⟩
    | migrated m hm => exact ⟨m, .inl (hm.of_same (hleft (not_due_of_file hcx hm.file)))⟩

/-! A shelf with one concept that has the tag. -/

/-- The concept. -/
def oldNote : Concept where
  frontmatter := { noteFrontmatter with tags := ["deprecated"] }
  body := "8080"
  sourcePath := "/old.md"

/-- The store that holds it. -/
def oldShelf : Store where
  __ := Store.empty "global:skills"
  files path := if path = "/old.md" then (oldNote.toMarkdown noteCodec).toOption else none
  registry := [{ path := "/old.md", title := "/old.md", conceptType := "note", updatedAt := "" }]
  index path := if path = "/old.md" then some oldNote else none

def oldShelves : State where
  stores _ := oldShelf
  sweep := none

/-- INTERNAL: the clock of its boots. -/
def clock : ℕ → Choice := fun _ => noteChoice

theorem clock_clocked (k : ℕ) : Clocked noteCodec (clock k) := noteChoice_clocked

theorem due_oldNote : Due noteCodec asciiLower oldShelf skillsScope "/old.md" := by
  have hstamped : Stamped noteCodec oldNote.frontmatter := ⟨noteTime, rfl, by decide⟩
  obtain ⟨markdown, hmarkdown⟩ := exists_toMarkdown faithful_noteCodec hstamped
  have hfile : oldShelf.files oldNote.sourcePath = some markdown := by
    show (oldNote.toMarkdown noteCodec).toOption = some markdown
    rw [hmarkdown]
    rfl
  have hget := get_of_file faithful_noteCodec (s := oldShelf) (by decide) hstamped hmarkdown hfile
  rw [if_neg (by decide)] at hget
  exact ⟨⟨by decide, by decide, by decide⟩, readBack oldNote, hget, ⟨by decide, rfl⟩⟩

/-- The first boot is cut after six steps. -/
theorem migration_settles_of_note :
    ∃ t₁, exec (step noteCodec asciiLower) oldShelves (bootRun [] clock 6) = some t₁ ∧
      ∃ k t n, exec (step noteCodec asciiLower) t₁ (bootRun [] clock k) = some t ∧
        t.sweep = some (.done n) ∧
        ∃ m, Migrated noteCodec asciiLower oldShelf (t.stores skillsScope) skillsScope "/old.md" m ∨
          (FileOnly noteCodec asciiLower oldShelf (t₁.stores skillsScope) skillsScope "/old.md" m ∧
            FileOnly noteCodec asciiLower oldShelf (t.stores skillsScope) skillsScope "/old.md"
              m) := by
  obtain ⟨t₁, hcut⟩ := exec_bootRun noteCodec asciiLower oldShelves [] clock 6
  refine ⟨t₁, hcut, ?_⟩
  obtain ⟨k, t, n, hboot, hend, hall⟩ := migration_settles faithful_noteCodec rfl
    (clocked_bootRun clock_clocked) hcut [] clock_clocked
  exact ⟨k, t, n, hboot, hend, (hall skillsScope "/old.md" (by decide)
    ⟨trivial, leavesAlone_steps _ _⟩).2 due_oldNote List.mem_cons_self⟩

/-! ## A boot that is cut -/

theorem sweepStep_one_write (stores : String → Store) (ch : Choice) (pc : SweepPc)
    (name path : String) :
    ((sweepStep cx lower stores ch pc).1 name).files path = (stores name).files path ∨
      ((sweepStep cx lower stores ch pc).1 name).index path = (stores name).index path := by
  cases pc with
  | targets todo migrated =>
    cases todo with
    | nil => exact .inl rfl
    | cons n rest =>
      simp only [sweepStep]
      split <;> exact .inl rfl
  | scope n paths rest migrated =>
    cases paths with
    | nil => exact .inl rfl
    | cons p paths =>
      simp only [sweepStep]
      split <;> exact .inl rfl
  | putting n pc paths rest migrated =>
    by_cases hend : ∃ r, pc = .finished r
    · obtain ⟨r, rfl⟩ := hend
      cases r <;> exact .inl rfl
    · rw [sweepStep_putting fun r hr => hend ⟨r, hr⟩]
      by_cases hn : name = n
      · subst hn
        simp only [setStore, if_true]
        exact taskStep_one_write _ ch pc path
      · simp only [setStore, if_neg hn]
        exact .inl trivial
  | done migrated => exact .inl rfl

/-- INTERNAL: one more step of a boot. -/
theorem exec_bootRun_succ {users : List (String × Bool)} {choices : ℕ → Choice} {s t : State}
    {k : ℕ} (hrun : exec (step cx lower) s (bootRun users choices k) = some t) :
    ∃ t', exec (step cx lower) s (bootRun users choices (k + 1)) = some t' ∧
      ∀ name path, (t'.stores name).files path = (t.stores name).files path ∨
        (t'.stores name).index path = (t.stores name).index path := by
  have hsnoc : bootRun users choices (k + 1) =
      bootRun users choices k ++ [.step (choices k)] := by
    unfold bootRun
    rw [List.range_succ, List.map_append, List.map_append]
    rfl
  obtain ⟨pc, hpc⟩ : ∃ pc, t.sweep = some pc := by
    obtain ⟨s', hboot, hsteps⟩ := exec_cons_eq_some.mp hrun
    cases hboot
    rw [Option.map_some, exec_steps] at hsteps
    cases hsteps
    exact ⟨_, rfl⟩
  have hstep : step cx lower t (.step (choices k)) =
      some { stores := (sweepStep cx lower t.stores (choices k) pc).1
             sweep := some (sweepStep cx lower t.stores (choices k) pc).2 } := by
    simp only [step, hpc]
    rfl
  have hrun' := exec_snoc hrun hstep
  rw [← hsnoc] at hrun'
  exact ⟨_, hrun', sweepStep_one_write t.stores (choices k) pc⟩

/-- INTERNAL: a boot that retires the path gets to the first step that changes it. -/
theorem exists_first_write (hcx : Faithful cx) {s : State} {users : List (String × Bool)}
    {choices : ℕ → Choice} (hchoices : ∀ k, Clocked cx (choices k)) {name path : String}
    (hreserved : isReserved path = false) (hdue : Due cx lower (s.stores name) name path)
    (htarget : name ∈ sweepTargets users) :
    ∃ k t t', exec (step cx lower) s (bootRun users choices k) = some t ∧
      exec (step cx lower) s (bootRun users choices (k + 1)) = some t' ∧
      Same (s.stores name) (t.stores name) path ∧
      ¬ Same (s.stores name) (t'.stores name) path := by
  let whole (k : ℕ) : Prop := ∀ t, exec (step cx lower) s (bootRun users choices k) = some t →
    Same (s.stores name) (t.stores name) path
  have hzero : ¬ ¬ whole 0 := by
    refine not_not_intro fun t hrun => ?_
    cases hrun
    exact ⟨rfl, rfl⟩
  have hend : ∃ k, ¬ whole k := by
    obtain ⟨k, t, n, hrun, hdone⟩ := exists_bootRun lower s users hchoices
    refine ⟨k, fun hwhole => ?_⟩
    have hinv : Inv cx lower (s.stores name) name path True t :=
      inv_bootRun hcx hreserved hchoices (fun _ => htarget) hrun
    obtain ⟨m, hm⟩ | ⟨-, hnot⟩ := hinv.sweep _ hdone trivial
    · exact not_due_of_file hcx hm.file (hdue.of_kept ⟨hwhole t hrun, hinv.registered⟩)
    · exact hnot hdue
  obtain ⟨k, hk, hnext⟩ := Nat.exists_not_and_succ_of_not_zero_of_exists hzero hend
  simp only [whole, not_forall] at hnext
  obtain ⟨t', hrun', hdiffers⟩ := hnext
  obtain ⟨t, hrun⟩ := exec_bootRun cx lower s users choices k
  exact ⟨k, t, t', hrun, hrun', not_not.mp hk t hrun, hdiffers⟩

/-- INTERNAL: the point between the two writes. -/
theorem exists_cut (hcx : Faithful cx) {s : State} {users : List (String × Bool)}
    {choices : ℕ → Choice} (hchoices : ∀ k, Clocked cx (choices k)) {name path : String}
    (hreserved : isReserved path = false) (hdue : Due cx lower (s.stores name) name path)
    (htarget : name ∈ sweepTargets users) :
    ∃ k t m, exec (step cx lower) s (bootRun users choices k) = some t ∧
      FileOnly cx lower (s.stores name) (t.stores name) name path m := by
  obtain ⟨k, t, t', hrun, hrun', hsame, hdiffers⟩ :=
    exists_first_write hcx hchoices hreserved hdue htarget
  have hinv : Inv cx lower (s.stores name) name path False t' :=
    inv_bootRun hcx hreserved hchoices (fun h => h.elim) hrun'
  refine ⟨k + 1, t', ?_⟩
  cases hinv.phase with
  | same h => exact (hdiffers h).elim
  | fileOnly m hm => exact ⟨m, hrun', hm⟩
  | migrated m hm =>
    obtain ⟨t'', hrun'', hwrites⟩ := exec_bootRun_succ hrun
    rw [hrun'] at hrun''
    cases hrun''
    obtain hfile | hindex := hwrites name path
    · -- a document does not come before its file
      obtain ⟨hsweepable, c, hget, hdeprecated⟩ := hdue
      have hget' := (get_congr cx (hfile.trans hsame.file)).trans hget
      have hregistered := hinv.registered.trans hsweepable.registered
      exact (not_due_of_file hcx hm.file
        ⟨⟨hsweepable.swept, hregistered, hsweepable.ordinary⟩, c, hget', hdeprecated⟩).elim
    · exact ⟨m, hrun', hm.file, hindex.trans hsame.index⟩

/-- INTERNAL: no boot looks at a retired file again. -/
theorem fileOnly_of_boots (hcx : Faithful cx) {s₀ : Store} {s t : State} {name path : String}
    {m : Concept} (hreserved : isReserved path = false)
    (h : FileOnly cx lower s₀ (s.stores name) name path m)
    {users : Option (List (String × Bool))} {as : List Action}
    (hclock : ∀ a ∈ as, ClockedAction cx a)
    (halone : Meets (step cx lower) (LeavesAlone name path) s (.boot users :: as))
    (hrun : exec (step cx lower) s (.boot users :: as) = some t) :
    FileOnly cx lower s₀ (t.stores name) name path m := by
  obtain ⟨s', hboot, hrest⟩ := exec_cons_eq_some.mp hrun
  have hmeets := halone.2
  rw [hboot] at hmeets
  have hstart : Inv cx lower (s.stores name) name path False s' :=
    inv_boot (fun h => h.elim) hboot
  have hafter := inv_exec hcx hreserved hstart hclock hmeets (fun h => h.elim) hrest
  exact h.of_same (same_of_not_due (not_due_of_file hcx h.file) hafter.phase)

/-- **A cut that no boot repairs.** In every boot that comes to a due concept there is a point
after which the file is retired and the index still has the document from before; when the boot
is cut there, it stays so through all the sweeps after it, as long as nothing else writes to the
path: a put does, and so does the backfill where the row has no length.
SOURCE: lifecycle.rs:11-20, 190-237 -/
theorem cut_migration_unindexed (hcx : Faithful cx) {s : State} {users : List (String × Bool)}
    {choices : ℕ → Choice} (hchoices : ∀ k, Clocked cx (choices k)) {name path : String}
    (hreserved : isReserved path = false) (hdue : Due cx lower (s.stores name) name path)
    (htarget : name ∈ sweepTargets users) :
    ∃ k t m, exec (step cx lower) s (bootRun users choices k) = some t ∧
      FileOnly cx lower (s.stores name) (t.stores name) name path m ∧
      ∀ (users' : Option (List (String × Bool))) (as : List Action) (t' : State),
        (∀ a ∈ as, ClockedAction cx a) →
        Meets (step cx lower) (LeavesAlone name path) t (.boot users' :: as) →
        exec (step cx lower) t (.boot users' :: as) = some t' →
        FileOnly cx lower (s.stores name) (t'.stores name) name path m := by
  obtain ⟨k, t, m, hrun, hm⟩ := exists_cut hcx hchoices hreserved hdue htarget
  refine ⟨k, t, m, hrun, hm, fun users' as t' hclock halone hrun' => ?_⟩
  exact fileOnly_of_boots hcx hreserved hm hclock halone hrun'

theorem cut_migration_unindexed_of_note :
    ∃ k t m, exec (step noteCodec asciiLower) oldShelves (bootRun [] clock k) = some t ∧
      FileOnly noteCodec asciiLower oldShelf (t.stores skillsScope) skillsScope "/old.md" m ∧
      ∀ t', exec (step noteCodec asciiLower) t (bootRun [] clock 20) = some t' →
        FileOnly noteCodec asciiLower oldShelf (t'.stores skillsScope) skillsScope "/old.md" m := by
  have hshelf : Due noteCodec asciiLower (oldShelves.stores skillsScope) skillsScope "/old.md" :=
    due_oldNote
  have htarget : skillsScope ∈ sweepTargets [] := List.mem_cons_self
  obtain ⟨k, t, m, hrun, hm, hboots⟩ := cut_migration_unindexed faithful_noteCodec
    clock_clocked (by decide) hshelf htarget
  refine ⟨k, t, m, hrun, hm, fun t' hrun' => ?_⟩
  have hclock : ∀ a ∈ bootRun [] clock 20, ClockedAction noteCodec a :=
    clocked_bootRun clock_clocked
  exact hboots _ _ t' (fun a ha => hclock a (List.mem_cons_of_mem _ ha))
    ⟨trivial, leavesAlone_steps _ _⟩ hrun'

end Mycelium.Analysis.TagMigration
