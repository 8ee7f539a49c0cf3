import Mycelium.Analysis.CallCompletion

/-!
# The vector cache on every exit of a call

A put, a restore and a delete drop the scope's cached vectors in their last step. A storage
step before it may fail, and the call returns there.

1. *The steps of a call* and where it ended (`CallRun`, `Exit`), with anything in between: the
   store that a step finds is any store.
2. *What is to be covered.* The steps that write rows of the search index and those that take
   a concept away (`touches`, `touches_of_change`), each by a later invalidation (`Covered`).
3. *The exits.* The invalidation comes last, so that an exit with an error has all covered
   exactly when it is no later than the first such step (`covered_iff`).
-/

set_option autoImplicit false

namespace Mycelium.Analysis.CacheInvalidation

open Mycelium.Model.Text Mycelium.Model.Concepts Mycelium.Model.Revisions
open Mycelium.Model.ConceptStore Mycelium.Model.StoreTasks
open Mycelium.Analysis.ConceptRoundTrip (noteCodec)

/-! ## Calls and their exits -/

def isRunning : Pc → Bool
  | .finished _ => false
  | _ => true

/-- The steps that ask a database or a file system for something. -/
def isStorage : Pc → Bool
  | .idle | .next _ _ | .enqueueVector _ _ _ | .regenWrite [] _ | .invalidate | .finished _ => false
  | _ => true

/-- The points a call has gone through and the point where it stands. -/
inductive CallRun (cx : Codec) (pc₀ : Pc) : List Pc → Pc → Prop
  | start : CallRun cx pc₀ [] pc₀
  | step {tr : List Pc} {pc : Pc} (s : Store) (ch : Choice) (h : CallRun cx pc₀ tr pc)
      (hrunning : isRunning pc = true) : CallRun cx pc₀ (tr ++ [pc]) (taskStep cx s ch pc).2

/-- The steps of a call that were taken, and the one where it returned an error: one that
checks what it finds, or a storage step that failed. -/
inductive Exit (cx : Codec) (pc₀ : Pc) : List Pc → Option Pc → Prop
  | atOnce {e : StoreError} (h : pc₀ = .finished (.error e)) : Exit cx pc₀ [] none
  | returned {tr : List Pc} (h : CallRun cx pc₀ tr (.finished (.ok ()))) : Exit cx pc₀ tr none
  | refused {tr : List Pc} {pc : Pc} (s : Store) (ch : Choice) {e : StoreError}
      (h : CallRun cx pc₀ tr pc) (hrunning : isRunning pc = true)
      (herr : (taskStep cx s ch pc).2 = .finished (.error e)) : Exit cx pc₀ tr (some pc)
  | failed {tr : List Pc} {pc : Pc} (h : CallRun cx pc₀ tr pc) (hstorage : isStorage pc = true) :
      Exit cx pc₀ tr (some pc)

/-! ## What is to be covered -/

/-- The steps that write or remove rows of the index, and those that take a concept away. -/
def touches : Pc → Bool
  | .addIndex _ _ _ | .deleteEntry _ _ | .deleteIndex _ _ | .deleteFile _ _ | .reindexAdd _ => true
  | _ => false

/-- A step that changes the index or the registered paths for less is one of these. -/
theorem touches_of_change {cx : Codec} {s : Store} {ch : Choice} {pc : Pc}
    (h : (taskStep cx s ch pc).1.index ≠ s.index ∨
      ∃ q, s.registered q = true ∧ (taskStep cx s ch pc).1.registered q = false) :
    touches pc = true := by
  by_contra hnot
  have hkeeps : (taskStep cx s ch pc).1.index = s.index ∧
      ∀ q, s.registered q = true → (taskStep cx s ch pc).1.registered q = true := by
    cases pc with
    | addIndex c todo job => exact absurd rfl hnot
    | deleteEntry path pre => exact absurd rfl hnot
    | deleteIndex path pre => exact absurd rfl hnot
    | deleteFile path pre => exact absurd rfl hnot
    | reindexAdd c => exact absurd rfl hnot
    | writeFile c markdown pre todo job =>
      simp only [taskStep]
      split
      · exact ⟨rfl, fun _ => id⟩
      · rename_i s' hw
        rw [write_eq_ok hw]
        exact ⟨rfl, fun _ => id⟩
    | register c todo job =>
      refine ⟨(register_fields s c (ch.clock 0)).2.2.2, ?_⟩
      intro q hq
      show (s.register c (ch.clock 0)).registered q = true
      rw [registered_register, hq, Bool.true_or]
    | enqueueVector c todo job =>
      obtain ⟨-, -, hregistry, -, hindex⟩ := enqueueVector_fields s c.sourcePath
      refine ⟨hindex, ?_⟩
      intro q hq
      show (s.enqueueVector c.sourcePath).registry.any _ = true
      rw [hregistry]
      exact hq
    | next todo job =>
      cases todo with
      | nil => exact ⟨rfl, fun _ => id⟩
      | cons c todo =>
        simp only [taskStep]
        split
        · exact ⟨rfl, fun _ => id⟩
        · split
          · exact ⟨rfl, fun _ => id⟩
          · split <;> exact ⟨rfl, fun _ => id⟩
    | record c markdown op payload pre todo job =>
      simp only [taskStep]
      split <;> exact ⟨rfl, fun _ => id⟩
    | regenWrite pending deleted =>
      cases pending with
      | nil => cases deleted <;> exact ⟨rfl, fun _ => id⟩
      | cons f rest =>
        simp only [taskStep]
        split
        · exact ⟨rfl, fun _ => id⟩
        · rename_i s' hw
          rw [write_eq_ok hw]
          exact ⟨rfl, fun _ => id⟩
    | restoreGet path no hd =>
      simp only [taskStep]
      split
      · exact ⟨rfl, fun _ => id⟩
      · split <;> exact ⟨rfl, fun _ => id⟩
    | lookup c markdown todo job =>
      simp only [taskStep]
      split <;> exact ⟨rfl, fun _ => id⟩
    | readPre c markdown todo job =>
      simp only [taskStep]
      split
      · exact ⟨rfl, fun _ => id⟩
      · exact ⟨rfl, fun _ => id⟩
      · split <;> exact ⟨rfl, fun _ => id⟩
    | deleteRead path hd =>
      simp only [taskStep]
      split
      · exact ⟨rfl, fun _ => id⟩
      · exact ⟨rfl, fun _ => id⟩
      · split <;> exact ⟨rfl, fun _ => id⟩
    | reindexRead path =>
      simp only [taskStep]
      split
      · exact ⟨rfl, fun _ => id⟩
      · exact ⟨rfl, fun _ => id⟩
      · split <;> exact ⟨rfl, fun _ => id⟩
    | _ => exact ⟨rfl, fun _ => id⟩
  rcases h with hindex | ⟨q, hq, hgone⟩
  · exact hindex hkeeps.1
  · rw [hkeeps.2 q hq] at hgone
    cases hgone

/-- Each such step has an invalidation after it. -/
def Covered (tr : List Pc) : Prop :=
  ∀ pre p post, tr = pre ++ p :: post → touches p = true → .invalidate ∈ post

theorem covered_invalidate (tr : List Pc) : Covered (tr ++ [.invalidate]) := by
  intro pre p post hsplit htouches
  rcases List.eq_nil_or_concat post with rfl | ⟨front, last, rfl⟩
  · have hlast := (List.append_inj' hsplit rfl).2
    cases hlast
    cases htouches
  · have heq : tr ++ [.invalidate] = (pre ++ p :: front) ++ [last] := by
      rw [hsplit]
      simp
    obtain ⟨-, hlast⟩ := List.append_inj' heq rfl
    cases hlast
    simp

/-- Before the invalidation nothing is covered. -/
theorem covered_iff_untouched {tr : List Pc} (h : .invalidate ∉ tr) :
    Covered tr ↔ ∀ p ∈ tr, touches p = false := by
  constructor
  · intro hcovered p hp
    obtain ⟨pre, post, rfl⟩ := List.append_of_mem hp
    by_contra htouches
    have hmem := hcovered pre p post rfl (eq_true_of_ne_false htouches)
    exact h (List.mem_append_right pre (List.mem_cons_of_mem p hmem))
  · intro huntouched pre p post hsplit htouches
    have hp := huntouched p (by rw [hsplit]; simp)
    rw [hp] at htouches
    cases htouches

/-! ## The exits -/

/-- How many concepts a call writes. -/
def size : Call → ℕ
  | .put _ | .restore _ _ => 1
  | .putBatch cs | .putBatchInternal cs => cs.length
  | .delete _ | .deleteInternal _ | .reindex _ => 0

/-- The calls that end with an invalidation. -/
def Writes : Call → Prop
  | .reindex _ => False
  | _ => True

/-- A point not after the first step that touches the index: of a batch of `n` concepts none
is indexed yet, and of a delete the row is there. -/
def early (n : ℕ) : Pc → Bool
  | .next todo _ => todo.length = n
  | .lookup _ _ todo _ | .readPre _ _ todo _ | .record _ _ _ _ _ todo _ | .writeFile _ _ _ todo _
  | .register _ todo _ | .addIndex _ todo _ => todo.length + 1 = n
  | .restoreGet _ _ _ | .deleteRead _ _ | .deleteRecord _ _ _ | .deleteEntry _ _ => true
  | _ => false

/-- INTERNAL: the batch in flight has no more than `n` concepts. -/
def Fits (n : ℕ) : Pc → Prop
  | .restoreGet _ _ _ => n = 1
  | .next todo _ => todo.length ≤ n ∧ 0 < n
  | .lookup _ _ todo _ | .readPre _ _ todo _ | .record _ _ _ _ _ todo _ | .writeFile _ _ _ todo _
  | .register _ todo _ | .addIndex _ todo _ | .enqueueVector _ todo _ => todo.length < n
  | .idle | .reindexRead _ | .reindexAdd _ => False
  | _ => True

/-- INTERNAL: what is known of a call and the steps behind it. -/
structure Passed (n : ℕ) (tr : List Pc) (pc : Pc) : Prop where
  fits : Fits n pc
  untouched : early n pc = true ↔ ∀ p ∈ tr, touches p = false
  uncovered : .invalidate ∉ tr

def Stands (n : ℕ) (tr : List Pc) : Pc → Prop
  | .finished (.ok ()) => Covered tr
  | .finished (.error _) => True
  | pc => Passed n tr pc

/-- INTERNAL: a step that is no touch and no invalidation. -/
theorem Passed.plain {n : ℕ} {tr : List Pc} {pc pc' : Pc} (h : Passed n tr pc)
    (hfits : Fits n pc') (hearly : early n pc' = early n pc) (htouches : touches pc = false)
    (hne : pc ≠ .invalidate) : Passed n (tr ++ [pc]) pc' where
  fits := hfits
  untouched := by
    rw [hearly, h.untouched]
    constructor
    · intro hall p hp
      rcases List.mem_append.mp hp with hp | hp
      · exact hall p hp
      · rw [List.mem_singleton.mp hp]
        exact htouches
    · exact fun hall p hp => hall p (List.mem_append_left _ hp)
  uncovered := by
    intro hmem
    rcases List.mem_append.mp hmem with hmem | hmem
    · exact h.uncovered hmem
    · exact hne (List.mem_singleton.mp hmem).symm

/-- INTERNAL: a step that touches, after which it is not early any more. -/
theorem Passed.touch {n : ℕ} {tr : List Pc} {pc pc' : Pc} (h : Passed n tr pc)
    (hfits : Fits n pc') (hearly : early n pc' = false) (htouches : touches pc = true) :
    Passed n (tr ++ [pc]) pc' where
  fits := hfits
  untouched := by
    rw [hearly]
    refine ⟨fun hfalse => absurd hfalse Bool.false_ne_true, ?_⟩
    intro hall
    have hlast := hall pc (List.mem_append_right tr (List.mem_singleton_self pc))
    rw [htouches] at hlast
    cases hlast
  uncovered := by
    intro hmem
    rcases List.mem_append.mp hmem with hmem | hmem
    · exact h.uncovered hmem
    · rw [← List.mem_singleton.mp hmem] at htouches
      cases htouches

/-- INTERNAL: a batch that has been stamped. -/
theorem stands_putBatchWithRevision {cx : Codec} {cs : List Concept} {job : Job}
    {clock : ℕ → String} {tr : List Pc} (huntouched : ∀ p ∈ tr, touches p = false)
    (huncovered : .invalidate ∉ tr) :
    Stands cs.length tr (putBatchWithRevision cx cs job clock) := by
  cases cs with
  | nil => exact (covered_iff_untouched huncovered).mpr huntouched
  | cons c cs =>
    simp only [putBatchWithRevision]
    cases hst : stampAll cx job.handle clock 0 (c :: cs) with
    | error e => trivial
    | ok stamped =>
      have hlength := congrArg List.length (paths_stampAll hst)
      rw [List.length_map, List.length_map] at hlength
      refine ⟨⟨by omega, by simp⟩, ?_, huncovered⟩
      simp only [early, hlength, decide_true, true_iff]
      exact huntouched

/-- **One step.** -/
theorem stands_taskStep {cx : Codec} {n : ℕ} {tr : List Pc} {pc : Pc} (s : Store) (ch : Choice)
    (hrunning : isRunning pc = true) (h : Passed n tr pc) : Stands n (tr ++ [pc]) (taskStep cx s ch pc).2 := by
  cases pc with
  | idle => exact h.fits.elim
  | reindexRead path => exact h.fits.elim
  | reindexAdd c => exact h.fits.elim
  | restoreGet path no hd =>
    have hn : n = 1 := h.fits
    have huntouched : ∀ p ∈ tr ++ [.restoreGet path no hd], touches p = false := by
      intro p hp
      rcases List.mem_append.mp hp with hp | hp
      · exact h.untouched.mp rfl p hp
      · rw [List.mem_singleton.mp hp]
        rfl
    have huncovered : .invalidate ∉ tr ++ [.restoreGet path no hd] := by
      simp [h.uncovered]
    simp only [taskStep]
    split
    · trivial
    · split
      · trivial
      · rename_i c _
        rw [hn]
        exact @stands_putBatchWithRevision cx [c] _ _ _ huntouched huncovered
  | next todo job =>
    cases todo with
    | nil =>
      have hpos : 0 < n := h.fits.2
      have hearly : early n (.next [] job) = false := by
        simp only [early, List.length_nil, decide_eq_false_iff_not]
        omega
      have hpassed : Passed n (tr ++ [.next [] job]) (.regenList none) :=
        h.plain trivial hearly.symm rfl (by simp)
      exact hpassed
    | cons c todo =>
      have hlt : todo.length < n := h.fits.1
      simp only [taskStep]
      split
      · trivial
      · split
        · exact h.plain hlt rfl rfl (by simp)
        · split <;> exact h.plain hlt rfl rfl (by simp)
  | lookup c markdown todo job =>
    simp only [taskStep]
    split <;> exact h.plain h.fits rfl rfl (by simp)
  | readPre c markdown todo job =>
    simp only [taskStep]
    split
    · trivial
    · exact h.plain h.fits rfl rfl (by simp)
    · split <;> exact h.plain h.fits rfl rfl (by simp)
  | record c markdown op payload pre todo job =>
    simp only [taskStep]
    split
    · trivial
    · exact h.plain h.fits rfl rfl (by simp)
  | writeFile c markdown pre todo job =>
    simp only [taskStep]
    split
    · trivial
    · exact h.plain h.fits rfl rfl (by simp)
  | register c todo job => exact h.plain h.fits rfl rfl (by simp)
  | addIndex c todo job => exact h.touch h.fits rfl rfl
  | enqueueVector c todo job =>
    have hlt : todo.length < n := h.fits
    have hearly : early n (.next todo job) = false := by
      simp only [early, decide_eq_false_iff_not]
      omega
    have hpassed : Passed n (tr ++ [.enqueueVector c todo job]) (.next todo job) :=
      h.plain ⟨Nat.le_of_lt hlt, Nat.zero_lt_of_lt hlt⟩ hearly rfl (by simp)
    exact hpassed
  | regenList deleted => exact h.plain trivial rfl rfl (by simp)
  | regenWrite pending deleted =>
    cases pending with
    | nil => cases deleted <;> exact h.plain trivial rfl rfl (by simp)
    | cons f rest =>
      simp only [taskStep]
      split
      · trivial
      · exact h.plain trivial rfl rfl (by simp)
  | removeVector path => exact h.plain trivial rfl rfl (by simp)
  | invalidate => exact covered_invalidate tr
  | deleteRead path hd =>
    simp only [taskStep]
    split
    · trivial
    · trivial
    · split <;> exact h.plain trivial rfl rfl (by simp)
  | deleteRecord path pre hd => exact h.plain trivial rfl rfl (by simp)
  | deleteEntry path pre => exact h.touch trivial rfl rfl
  | deleteIndex path pre => exact h.touch trivial rfl rfl
  | deleteFile path pre => exact h.touch trivial rfl rfl
  | finished r => cases hrunning

theorem passed_of_stands {n : ℕ} {tr : List Pc} {pc : Pc} (h : Stands n tr pc)
    (hrunning : isRunning pc = true) : Passed n tr pc := by
  cases pc with
  | finished r => cases hrunning
  | _ => exact h

theorem stands_callRun {cx : Codec} {n : ℕ} {pc₀ pc : Pc} {tr : List Pc} (h₀ : Stands n [] pc₀)
    (h : CallRun cx pc₀ tr pc) : Stands n tr pc := by
  induction h with
  | start => exact h₀
  | step s ch _ hrunning ih => exact stands_taskStep s ch hrunning (passed_of_stands ih hrunning)

theorem stands_begin (cx : Codec) (h : Handle) (clock : ℕ → String) {call : Call}
    (hcall : Writes call) : Stands (size call) [] (call.begin cx h clock) := by
  have hpassed {pc : Pc} (hfits : Fits (size call) pc) (hearly : early (size call) pc = true) :
      Passed (size call) [] pc := ⟨hfits, by simp [hearly], by simp⟩
  cases call with
  | put c =>
    simp only [Call.begin]
    split
    · trivial
    · exact @stands_putBatchWithRevision cx [c] _ _ _ (by simp) (by simp)
  | putBatch cs =>
    simp only [Call.begin]
    split
    · trivial
    · exact stands_putBatchWithRevision (by simp) (by simp)
  | putBatchInternal cs => exact stands_putBatchWithRevision (by simp) (by simp)
  | restore path no =>
    simp only [Call.begin]
    split
    · trivial
    · exact hpassed rfl rfl
  | delete path =>
    simp only [Call.begin]
    split
    · trivial
    · exact hpassed trivial rfl
  | deleteInternal path => exact hpassed trivial rfl
  | reindex path => exact hcall.elim

theorem isRunning_of_isStorage {pc : Pc} (h : isStorage pc = true) : isRunning pc = true := by
  cases pc with
  | finished r => cases h
  | _ => rfl

/-- **Every exit.** What the steps of a call have touched is covered by an invalidation exactly
when the call has returned without an error or no later than the first step that touches.
SOURCE: concept_store.rs:291-421, 612-665, vectors.rs:671-677 -/
theorem covered_iff (cx : Codec) (h : Handle) (clock : ℕ → String) {call : Call}
    (hcall : Writes call) {tr : List Pc} {at_ : Option Pc}
    (hexit : Exit cx (call.begin cx h clock) tr at_) :
    Covered tr ↔ ∀ pc, at_ = some pc → early (size call) pc = true := by
  have hstands := stands_begin cx h clock hcall
  have herr {pc : Pc} (hrun : CallRun cx (call.begin cx h clock) tr pc)
      (hrunning : isRunning pc = true) :
      Covered tr ↔ ∀ p, some pc = some p → early (size call) p = true := by
    have hpassed := passed_of_stands (stands_callRun hstands hrun) hrunning
    rw [covered_iff_untouched hpassed.uncovered, ← hpassed.untouched]
    simp only [Option.some.injEq, forall_eq']
  cases hexit with
  | atOnce _ =>
    refine iff_of_true ?_ (by simp)
    intro pre p post hsplit
    simp at hsplit
  | returned hrun => exact iff_of_true (stands_callRun hstands hrun) (by simp)
  | refused s ch hrun hrunning _ => exact herr hrun hrunning
  | failed hrun hstorage => exact herr hrun (isRunning_of_isStorage hstorage)

/-! ## A delete that fails -/

/-- A store with one note. -/
def oneNote : Store :=
  { Store.empty "user:1" with files := fun q => if q = "/port.md" then some "8080" else none }

def deleting : Pc := (Call.delete "/port.md").begin noteCodec {} fun _ => ""

theorem callRun_deleting : CallRun noteCodec deleting [.deleteRead "/port.md" {}]
    (.deleteRecord "/port.md" "8080" {}) := .step oneNote {} .start rfl

/-- The revision could not be recorded: nothing was touched. -/
theorem covered_of_failed_record : Covered [.deleteRead "/port.md" {}] := by
  have hwrites : Writes (.delete "/port.md") := trivial
  apply (covered_iff noteCodec {} (fun _ => "") hwrites (.failed callRun_deleting rfl)).mpr
  intro pc hpc
  cases hpc
  rfl

/-- The row was removed, the index could not be changed. -/
theorem failed_delete_uncovered :
    ¬ ∀ (cx : Codec) (h : Handle) (clock : ℕ → String) (call : Call) (tr : List Pc)
      (at_ : Option Pc), Writes call → Exit cx (call.begin cx h clock) tr at_ → Covered tr := by
  intro hall
  have hrun : CallRun noteCodec deleting
      [.deleteRead "/port.md" {}, .deleteRecord "/port.md" "8080" {}, .deleteEntry "/port.md" "8080"]
      (.deleteIndex "/port.md" "8080") :=
    .step oneNote {} (.step oneNote {} callRun_deleting rfl) rfl
  have hcovered := hall noteCodec {} _ (.delete "/port.md") _ _ trivial (.failed hrun rfl)
  have hmem := hcovered [.deleteRead "/port.md" {}, .deleteRecord "/port.md" "8080" {}]
    (.deleteEntry "/port.md" "8080") [] rfl rfl
  cases hmem

end Mycelium.Analysis.CacheInvalidation
