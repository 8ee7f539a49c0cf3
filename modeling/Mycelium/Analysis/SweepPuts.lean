import Mycelium.Analysis.PutRoundTrip
import Mycelium.Model.LifecycleSweep

/-!
# A put of the sweep over deprecated tags

1. *Phases.* A path is as it was, or its file is the retired concept, with the old document in
   the index or with the new one (`Phase`). What was retired is read back without the tag
   (`get_of_retires`), so it is not due again.
2. *Steps.* A put leaves the other paths alone (`putAt_taskStep`), and at its own it writes the
   file before the document (`pcOk_taskStep`).
3. *The start.* A visit of a path starts a put where the path is due (`pcOk_visit`).
-/

set_option autoImplicit false

namespace Mycelium.Analysis.SweepPuts

open Mycelium.Model.Text Mycelium.Model.Concepts Mycelium.Model.ConceptStore
open Mycelium.Model.LifecycleSweep
open Mycelium.Model.StoreTasks (Pc Choice Call Job taskStep putBatchWithRevision Store.restart)
open Mycelium.Analysis.ConceptRoundTrip Mycelium.Analysis.CallCompletion
open Mycelium.Analysis.RestoreReversal

/-! ## Statements -/

section Statements

variable (cx : Codec) (lower : String → String)

/-- A concept that the sweep retires: it has the tag, and its retired form is accepted. -/
structure Deprecated (c : Concept) : Prop where
  tagged : c.frontmatter.tags.any (isDeprecatedTag lower) = true
  accepted : (retired lower "" c).frontmatter.validated cx = .ok ()

/-- A path that a sweep of its scope comes to. -/
structure Sweepable (s₀ : Store) (name path : String) : Prop where
  swept : name ≠ libraryScope
  registered : s₀.registered path = true
  ordinary : isQueuePath path = false

/-- The concept that takes the place of the one at the path. -/
structure Retires (s₀ : Store) (name path : String) (m : Concept) (markdown : String) : Prop where
  sweepable : Sweepable s₀ name path
  of_read : ∃ c now, s₀.get cx path = .ok c ∧ Deprecated cx lower c ∧ cx.isRfc3339 now = true ∧
    m = retired lower now c
  printed : m.toMarkdown cx = .ok markdown

/-- File and document of the path are what they were. -/
structure Same (s₀ s : Store) (path : String) : Prop where
  file : s.files path = s₀.files path
  index : s.index path = s₀.index path

/-- The file is the retired concept, the document the one from before. -/
structure FileOnly (s₀ s : Store) (name path : String) (m : Concept) : Prop where
  file : ∃ markdown, Retires cx lower s₀ name path m markdown ∧ s.files path = some markdown
  index : s.index path = s₀.index path

/-- File and document are the retired concept. -/
structure Migrated (s₀ s : Store) (name path : String) (m : Concept) : Prop where
  file : ∃ markdown, Retires cx lower s₀ name path m markdown ∧ s.files path = some markdown
  index : s.index path = some m

/-- What becomes of a path. -/
inductive Phase (s₀ s : Store) (name path : String) : Prop
  | same (h : Same s₀ s path)
  | fileOnly (m : Concept) (h : FileOnly cx lower s₀ s name path m)
  | migrated (m : Concept) (h : Migrated cx lower s₀ s name path m)

/-- The sweep retires the concept at the path. -/
def Due (s₀ : Store) (name path : String) : Prop :=
  Sweepable s₀ name path ∧ ∃ c, s₀.get cx path = .ok c ∧ Deprecated cx lower c

/-- Between two sweeps the path is left alone. -/
def LeavesAlone (name path : String) (s : State) : Action → Prop
  | .serve stores => Same (s.stores name) (stores name) path ∧
      (stores name).registered path = (s.stores name).registered path
  | _ => True

/-- The clock of a sweep gives RFC 3339 texts. -/
def ClockedAction : Action → Prop
  | .step ch => Clocked cx ch
  | _ => True

end Statements

variable {cx : Codec} {lower : String → String}

/-! ## The rewrite -/

/-- A retired concept has no tag that the sweep looks for. -/
theorem rewriteIfDeprecated_readBack_retired (lower : String → String) (now now' : String)
    (c : Concept) :
    rewriteIfDeprecated lower now' (readBack (retired lower now c)) = none := by
  have htags : (retired lower now c).frontmatter.tags.any (isDeprecatedTag lower) = false := by
    simp only [retired, List.any_filter, List.any_eq_false]
    intro tag _
    cases isDeprecatedTag lower tag <;> decide
  unfold rewriteIfDeprecated readBack
  exact if_neg (by rw [htags]; decide)

theorem get_congr (cx : Codec) {s₀ s : Store} {path : String} (h : s.files path = s₀.files path) :
    s.get cx path = s₀.get cx path := by
  unfold Store.get Store.read
  rw [h]

theorem validPath_of_get {s : Store} {path : String} {c : Concept} (h : s.get cx path = .ok c) :
    validPath path = true := by
  unfold Store.get Store.read at h
  by_contra hpath
  rw [if_neg hpath] at h
  cases h

theorem sourcePath_of_get {s : Store} {path : String} {c : Concept} (h : s.get cx path = .ok c) :
    c.sourcePath = path ∧ (trim c.frontmatter.conceptType.toList).isEmpty = false := by
  unfold Store.get at h
  split at h
  · cases h
  · cases h
  · rename_i markdown _
    cases hparse : Concept.parse cx path markdown with
    | error e =>
      rw [hparse] at h
      cases h
    | ok c' =>
      rw [hparse] at h
      cases h
      exact parse_eq_ok hparse

/-- **What was retired is read back without the tag.** -/
theorem get_of_retires (hcx : Faithful cx) {s₀ s : Store} {name path markdown : String}
    {m : Concept} (h : Retires cx lower s₀ name path m markdown)
    (hfile : s.files path = some markdown) : s.get cx path = .ok (readBack m) := by
  obtain ⟨c, now, hget, -, hnow, rfl⟩ := h.of_read
  obtain ⟨rfl, htype⟩ := sourcePath_of_get hget
  have hread := get_of_file hcx (s := s) (c := retired lower now c) (validPath_of_get hget)
    ⟨now, rfl, hnow⟩ h.printed hfile
  rw [show (trim (retired lower now c).frontmatter.conceptType.toList).isEmpty = false from htype]
    at hread
  exact hread

theorem untagged_of_retires (hcx : Faithful cx) {s₀ s : Store} {name path markdown : String}
    {m c : Concept} (h : Retires cx lower s₀ name path m markdown)
    (hfile : s.files path = some markdown) (hget : s.get cx path = .ok c) :
    c.frontmatter.tags.any (isDeprecatedTag lower) ≠ true := by
  rw [get_of_retires hcx h hfile] at hget
  cases hget
  obtain ⟨c, now, -, -, -, rfl⟩ := h.of_read
  intro htagged
  have hnone := rewriteIfDeprecated_readBack_retired lower now "" c
  rw [rewriteIfDeprecated, if_pos htagged] at hnone
  cases hnone

/-! ## A put of the sweep -/

/-- What a put of the sweep is called with. -/
def sweepJob : Job where
  handle := sweepHandle
  tag := some .migration
  summary := none

/-- A put of one concept at the path. -/
def PutAt (path : String) : Pc → Prop
  | .next [c] _ | .lookup c _ [] _ | .readPre c _ [] _ | .record c _ _ _ _ [] _
  | .writeFile c _ _ [] _ | .register c [] _ | .addIndex c [] _ | .enqueueVector c [] _ =>
    c.sourcePath = path
  | .regenWrite pending none => ∀ f ∈ pending, isReserved f.1 = true
  | .next [] _ | .regenList none | .invalidate | .finished _ => True
  | _ => False

/-- What a store has at a path is what another has there. -/
structure Kept (s s' : Store) (path : String) : Prop extends Same s s' path where
  registered : s'.registered path = s.registered path

theorem Kept.refl (s : Store) (path : String) : Kept s s path := ⟨⟨rfl, rfl⟩, rfl⟩

theorem Same.trans {s₀ s s' : Store} {path : String} (h : Same s₀ s path) (h' : Same s s' path) :
    Same s₀ s' path := ⟨h'.file.trans h.file, h'.index.trans h.index⟩

/-- INTERNAL: a file at another path. -/
theorem kept_write {s s' : Store} {path content p : String} (hne : p ≠ path)
    (hw : s.write path content = .ok s') : Kept s s' p := by
  rw [write_eq_ok hw]
  exact ⟨⟨if_neg hne, rfl⟩, rfl⟩

theorem kept_register {s : Store} {c : Concept} {now p : String} (hne : p ≠ c.sourcePath) :
    Kept s (s.register c now) p := by
  obtain ⟨-, -, hfiles, hindex⟩ := register_fields s c now
  refine ⟨⟨by rw [hfiles], by rw [hindex]⟩, ?_⟩
  rw [registered_register, decide_eq_false hne, Bool.or_false]

theorem kept_enqueueVector (s : Store) (path p : String) : Kept s (s.enqueueVector path) p := by
  obtain ⟨-, -, hregistry, hfiles, hindex⟩ := enqueueVector_fields s path
  refine ⟨⟨by rw [hfiles], by rw [hindex]⟩, ?_⟩
  unfold Store.registered
  rw [hregistry]

/-- **A put leaves the other paths alone.** -/
theorem putAt_taskStep (cx : Codec) (s : Store) (ch : Choice) {q p : String} {pc : Pc}
    (h : PutAt q pc) (hp : isReserved p = false) : PutAt q (taskStep cx s ch pc).2 ∧
      (p ≠ q → Kept s (taskStep cx s ch pc).1 p) := by
  cases pc with
  | next todo job =>
    cases todo with
    | nil => exact ⟨trivial, fun _ => .refl s p⟩
    | cons c todo =>
      cases todo with
      | cons _ _ => exact h.elim
      | nil =>
        simp only [taskStep]
        split
        · exact ⟨trivial, fun _ => .refl s p⟩
        · split
          · exact ⟨h, fun _ => .refl s p⟩
          · split
            all_goals exact ⟨h, fun _ => .refl s p⟩
  | lookup c markdown todo job =>
    cases todo with
    | cons _ _ => exact h.elim
    | nil =>
      simp only [taskStep]
      split
      all_goals exact ⟨h, fun _ => .refl s p⟩
  | readPre c markdown todo job =>
    cases todo with
    | cons _ _ => exact h.elim
    | nil =>
      simp only [taskStep]
      split
      · exact ⟨trivial, fun _ => .refl s p⟩
      · exact ⟨h, fun _ => .refl s p⟩
      · split
        all_goals exact ⟨h, fun _ => .refl s p⟩
  | record c markdown op payload pre todo job =>
    cases todo with
    | cons _ _ => exact h.elim
    | nil =>
      simp only [taskStep]
      split
      · exact ⟨trivial, fun _ => .refl s p⟩
      · exact ⟨h, fun _ => ⟨⟨rfl, rfl⟩, rfl⟩⟩
  | writeFile c markdown pre todo job =>
    cases todo with
    | cons _ _ => exact h.elim
    | nil =>
      simp only [taskStep]
      split
      · exact ⟨trivial, fun _ => .refl s p⟩
      · rename_i hw
        exact ⟨h, fun hne => kept_write (fun heq => hne (heq.trans h)) hw⟩
  | register c todo job =>
    cases todo with
    | cons _ _ => exact h.elim
    | nil => exact ⟨h, fun hne => kept_register fun heq => hne (heq.trans h)⟩
  | addIndex c todo job =>
    cases todo with
    | cons _ _ => exact h.elim
    | nil => exact ⟨h, fun hne => ⟨⟨rfl, if_neg fun heq => hne (heq.trans h)⟩, rfl⟩⟩
  | enqueueVector c todo job =>
    cases todo with
    | cons _ _ => exact h.elim
    | nil => exact ⟨trivial, fun _ => kept_enqueueVector s _ p⟩
  | regenList deleted =>
    cases deleted with
    | some _ => exact h.elim
    | none => exact ⟨fun f hf => isReserved_of_mem_indexFiles hf, fun _ => .refl s p⟩
  | regenWrite pending deleted =>
    cases deleted with
    | some _ => exact h.elim
    | none =>
      cases pending with
      | nil => exact ⟨trivial, fun _ => .refl s p⟩
      | cons f rest =>
        simp only [taskStep]
        split
        · exact ⟨trivial, fun _ => .refl s p⟩
        · rename_i hw
          refine ⟨fun g hg => h g (List.mem_cons_of_mem _ hg), fun _ => kept_write ?_ hw⟩
          rintro rfl
          rw [h f List.mem_cons_self] at hp
          cases hp
  | invalidate => exact ⟨trivial, fun _ => ⟨⟨rfl, rfl⟩, rfl⟩⟩
  | finished r => exact ⟨trivial, fun _ => .refl s p⟩
  | _ => exact h.elim

section Put

variable (cx lower) (s₀ : Store) (name path : String)

/-- The path is migrated, or the sweep does not retire what is there. -/
def Settled (s : Store) : Prop :=
  (∃ m, Migrated cx lower s₀ s name path m) ∨ (Same s₀ s path ∧ ¬ Due cx lower s₀ name path)

/-- How far the put of the retired concept has come. -/
def PcOk (s : Store) : Pc → Prop
  | .next [m] job =>
    job = sweepJob ∧ Same s₀ s path ∧ ∃ markdown, Retires cx lower s₀ name path m markdown
  | .readPre m markdown [] job =>
    job = sweepJob ∧ Same s₀ s path ∧ Retires cx lower s₀ name path m markdown
  | .record m markdown op _ _ [] job =>
    job = sweepJob ∧ op = .migration ∧ Same s₀ s path ∧ Retires cx lower s₀ name path m markdown
  | .writeFile m markdown _ [] _ => Same s₀ s path ∧ Retires cx lower s₀ name path m markdown
  | .register m [] _ | .addIndex m [] _ => FileOnly cx lower s₀ s name path m
  | .enqueueVector _ [] _ | .next [] _ | .regenList none | .regenWrite _ none | .invalidate =>
    ∃ m, Migrated cx lower s₀ s name path m
  | .finished _ => Settled cx lower s₀ name path s
  | _ => False

end Put

section Put

variable {s₀ s : Store} {name path markdown : String} {m : Concept}

theorem sourcePath_of_retires (h : Retires cx lower s₀ name path m markdown) :
    m.sourcePath = path := by
  obtain ⟨c, now, hget, -, -, rfl⟩ := h.of_read
  exact (sourcePath_of_get hget).1

theorem validPath_of_retires (h : Retires cx lower s₀ name path m markdown) :
    validPath m.sourcePath = true := by
  rw [sourcePath_of_retires h]
  obtain ⟨c, now, hget, -⟩ := h.of_read
  exact validPath_of_get hget

theorem Migrated.of_same {s' : Store} (h : Migrated cx lower s₀ s name path m)
    (hsame : Same s s' path) : Migrated cx lower s₀ s' name path m := by
  obtain ⟨⟨markdown, hretires, hfile⟩, hindex⟩ := h
  exact ⟨⟨markdown, hretires, hsame.file.trans hfile⟩, hsame.index.trans hindex⟩

theorem FileOnly.of_same {s' : Store} (h : FileOnly cx lower s₀ s name path m)
    (hsame : Same s s' path) : FileOnly cx lower s₀ s' name path m := by
  obtain ⟨⟨markdown, hretires, hfile⟩, hindex⟩ := h
  exact ⟨⟨markdown, hretires, hsame.file.trans hfile⟩, hsame.index.trans hindex⟩

/-- INTERNAL: where a put stands tells what has become of its path. -/
theorem phase_of_pcOk {pc : Pc} (h : PcOk cx lower s₀ name path s pc) :
    Phase cx lower s₀ s name path := by
  cases pc with
  | next todo job =>
    cases todo with
    | nil =>
      obtain ⟨m, hm⟩ := h
      exact .migrated m hm
    | cons c todo =>
      cases todo with
      | nil => exact .same h.2.1
      | cons _ _ => exact h.elim
  | readPre c markdown todo job =>
    cases todo with
    | nil => exact .same h.2.1
    | cons _ _ => exact h.elim
  | record c markdown op payload pre todo job =>
    cases todo with
    | nil => exact .same h.2.2.1
    | cons _ _ => exact h.elim
  | writeFile c markdown pre todo job =>
    cases todo with
    | nil => exact .same h.1
    | cons _ _ => exact h.elim
  | register c todo job | addIndex c todo job =>
    cases todo with
    | nil => exact .fileOnly c h
    | cons _ _ => exact h.elim
  | enqueueVector c todo job =>
    cases todo with
    | nil =>
      obtain ⟨m, hm⟩ := h
      exact .migrated m hm
    | cons _ _ => exact h.elim
  | regenList deleted | regenWrite pending deleted =>
    cases deleted with
    | none =>
      obtain ⟨m, hm⟩ := h
      exact .migrated m hm
    | some _ => exact h.elim
  | invalidate =>
    obtain ⟨m, hm⟩ := h
    exact .migrated m hm
  | finished r =>
    obtain ⟨m, hm⟩ | ⟨hsame, -⟩ := h
    · exact .migrated m hm
    · exact .same hsame
  | _ => exact h.elim

/-- **A step of the put**: the file first, then the document. -/
theorem pcOk_taskStep (ch : Choice) (hreserved : isReserved path = false)
    (hregistered : s.registered path = true) {pc : Pc} (hat : PutAt path pc)
    (h : PcOk cx lower s₀ name path s pc) :
    PcOk cx lower s₀ name path (taskStep cx s ch pc).1 (taskStep cx s ch pc).2 ∧
      (taskStep cx s ch pc).1.registered path = true := by
  cases pc with
  | next todo job =>
    cases todo with
    | nil => exact ⟨h, hregistered⟩
    | cons c todo =>
      cases todo with
      | cons _ _ => exact h.elim
      | nil =>
        obtain ⟨rfl, hsame, markdown, hretires⟩ := h
        have hqueue : isQueuePath c.sourcePath = false := by
          rw [sourcePath_of_retires hretires]
          exact hretires.sweepable.ordinary
        simp only [taskStep, hretires.printed, hqueue, sweepJob]
        exact ⟨⟨rfl, hsame, hretires⟩, hregistered⟩
  | readPre c markdown todo job =>
    cases todo with
    | cons _ _ => exact h.elim
    | nil =>
      obtain ⟨rfl, hsame, hretires⟩ := h
      simp only [taskStep, read_valid (validPath_of_retires hretires), sweepJob]
      split
      · rename_i heq
        cases heq
      · exact ⟨⟨rfl, rfl, hsame, hretires⟩, hregistered⟩
      · exact ⟨⟨rfl, rfl, hsame, hretires⟩, hregistered⟩
  | record c markdown op payload pre todo job =>
    cases todo with
    | cons _ _ => exact h.elim
    | nil =>
      obtain ⟨rfl, rfl, hsame, hretires⟩ := h
      exact ⟨⟨⟨hsame.file, hsame.index⟩, hretires⟩, hregistered⟩
  | writeFile c markdown pre todo job =>
    cases todo with
    | cons _ _ => exact h.elim
    | nil =>
      obtain ⟨hsame, hretires⟩ := h
      simp only [taskStep, write_valid (validPath_of_retires hretires)]
      exact ⟨⟨⟨markdown, hretires, if_pos (sourcePath_of_retires hretires).symm⟩, hsame.index⟩,
        hregistered⟩
  | register c todo job =>
    cases todo with
    | cons _ _ => exact h.elim
    | nil =>
      obtain ⟨-, -, hfiles, hindex⟩ := register_fields s c (ch.clock 0)
      refine ⟨FileOnly.of_same h ⟨by rw [taskStep, hfiles], by rw [taskStep, hindex]⟩, ?_⟩
      rw [taskStep, registered_register, hregistered, Bool.true_or]
  | addIndex c todo job =>
    cases todo with
    | cons _ _ => exact h.elim
    | nil => exact ⟨⟨c, h.file, if_pos hat.symm⟩, hregistered⟩
  | enqueueVector c todo job =>
    cases todo with
    | cons _ _ => exact h.elim
    | nil =>
      obtain ⟨m, hm⟩ := h
      have hkept := kept_enqueueVector s c.sourcePath path
      exact ⟨⟨m, hm.of_same hkept.toSame⟩, hkept.registered.trans hregistered⟩
  | regenList deleted =>
    cases deleted with
    | some _ => exact h.elim
    | none => exact ⟨h, hregistered⟩
  | regenWrite pending deleted =>
    cases deleted with
    | some _ => exact h.elim
    | none =>
      obtain ⟨m, hm⟩ := h
      cases pending with
      | nil => exact ⟨⟨m, hm⟩, hregistered⟩
      | cons f rest =>
        simp only [taskStep]
        split
        · exact ⟨.inl ⟨m, hm⟩, hregistered⟩
        · rename_i hw
          have hne : path ≠ f.1 := by
            rintro rfl
            rw [hat f List.mem_cons_self] at hreserved
            cases hreserved
          have hkept := kept_write hne hw
          exact ⟨⟨m, hm.of_same hkept.toSame⟩, hkept.registered.trans hregistered⟩
  | invalidate =>
    obtain ⟨m, hm⟩ := h
    exact ⟨.inl ⟨m, hm.of_same ⟨rfl, rfl⟩⟩, hregistered⟩
  | finished r => exact ⟨h, hregistered⟩
  | _ => exact h.elim

end Put

/-- One storage step writes a file or a document, not both. -/
theorem taskStep_one_write (s : Store) (ch : Choice) (pc : Pc) (path : String) :
    (taskStep cx s ch pc).1.files path = s.files path ∨
      (taskStep cx s ch pc).1.index path = s.index path := by
  cases pc with
  | addIndex c todo job => exact .inl rfl
  | deleteIndex path pre => exact .inl rfl
  | reindexAdd c => exact .inl rfl
  | register c todo job =>
    left
    rw [taskStep, (register_fields s c (ch.clock 0)).2.2.1]
  | enqueueVector c todo job =>
    left
    rw [taskStep, (enqueueVector_fields s c.sourcePath).2.2.2.1]
  | writeFile c markdown pre todo job =>
    right
    simp only [taskStep]
    split
    · rfl
    · rename_i hw
      rw [write_eq_ok hw]
  | regenWrite pending deleted =>
    right
    cases pending with
    | nil => cases deleted <;> rfl
    | cons f rest =>
      simp only [taskStep]
      split
      · rfl
      · rename_i hw
        rw [write_eq_ok hw]
  | next todo job =>
    right
    cases todo with
    | nil => rfl
    | cons c todo =>
      simp only [taskStep]
      split
      · rfl
      · split
        · rfl
        · split <;> rfl
  | restoreGet path no h =>
    right
    simp only [taskStep]
    split
    · rfl
    · split <;> rfl
  | lookup c markdown todo job =>
    right
    simp only [taskStep]
    split <;> rfl
  | readPre c markdown todo job =>
    right
    simp only [taskStep]
    split
    · rfl
    · rfl
    · split <;> rfl
  | record c markdown op payload pre todo job =>
    right
    simp only [taskStep]
    split <;> rfl
  | deleteRead path h =>
    right
    simp only [taskStep]
    split
    · rfl
    · rfl
    · split <;> rfl
  | reindexRead path =>
    right
    simp only [taskStep]
    split
    · rfl
    · rfl
    · split <;> rfl
  | _ => exact .inr rfl

/-! ## What is kept -/

section Keep

variable {s₀ s s' : Store} {name path markdown : String} {m : Concept}

theorem Same.refl (s : Store) (path : String) : Same s s path := ⟨rfl, rfl⟩

theorem Retires.due (h : Retires cx lower s₀ name path m markdown) : Due cx lower s₀ name path := by
  obtain ⟨c, now, hget, hdeprecated, -, -⟩ := h.of_read
  exact ⟨h.sweepable, c, hget, hdeprecated⟩

/-- INTERNAL: a path is as it was, or its file is the retired concept. -/
theorem Phase.same_or_file (h : Phase cx lower s₀ s name path) : Same s₀ s path ∨
    ∃ m markdown, Retires cx lower s₀ name path m markdown ∧ s.files path = some markdown := by
  cases h with
  | same hsame => exact .inl hsame
  | fileOnly m hm => exact .inr ⟨m, hm.file⟩
  | migrated m hm => exact .inr ⟨m, hm.file⟩

/-- INTERNAL: what is not due stays as it is. -/
theorem same_of_not_due (h : ¬ Due cx lower s₀ name path)
    (hphase : Phase cx lower s₀ s name path) : Same s₀ s path := by
  obtain hsame | ⟨m, markdown, hretires, -⟩ := hphase.same_or_file
  · exact hsame
  · exact (h hretires.due).elim

theorem Phase.of_same (h : Phase cx lower s₀ s name path) (hsame : Same s s' path) :
    Phase cx lower s₀ s' name path := by
  cases h with
  | same h => exact .same (h.trans hsame)
  | fileOnly m hm => exact .fileOnly m (hm.of_same hsame)
  | migrated m hm => exact .migrated m (hm.of_same hsame)

theorem Settled.of_same (h : Settled cx lower s₀ name path s) (hsame : Same s s' path) :
    Settled cx lower s₀ name path s' := by
  obtain ⟨m, hm⟩ | ⟨h, hdue⟩ := h
  · exact .inl ⟨m, hm.of_same hsame⟩
  · exact .inr ⟨h.trans hsame, hdue⟩

/-- INTERNAL: a store that has the same there retires the same. -/
theorem Retires.of_kept (h : Retires cx lower s name path m markdown) (hkept : Kept s₀ s path) :
    Retires cx lower s₀ name path m markdown := by
  obtain ⟨⟨hswept, hregistered, hordinary⟩, ⟨c, now, hget, hrest⟩, hprinted⟩ := h
  refine ⟨⟨hswept, ?_, hordinary⟩, ⟨c, now, ?_, hrest⟩, hprinted⟩
  · rw [← hkept.registered, hregistered]
  · rw [← get_congr cx hkept.file, hget]

theorem Due.of_kept (h : Due cx lower s₀ name path) (hkept : Kept s₀ s path) :
    Due cx lower s name path := by
  obtain ⟨⟨hswept, hregistered, hordinary⟩, c, hget, hdeprecated⟩ := h
  refine ⟨⟨hswept, ?_, hordinary⟩, c, ?_, hdeprecated⟩
  · rw [hkept.registered, hregistered]
  · rw [get_congr cx hkept.file, hget]

theorem Migrated.of_kept (h : Migrated cx lower s s' name path m) (hkept : Kept s₀ s path) :
    Migrated cx lower s₀ s' name path m := by
  obtain ⟨⟨markdown, hretires, hfile⟩, hindex⟩ := h
  exact ⟨⟨markdown, hretires.of_kept hkept, hfile⟩, hindex⟩

/-- INTERNAL: what a file says is retired is not due again. -/
theorem not_due_of_file (hcx : Faithful cx)
    (h : ∃ markdown, Retires cx lower s₀ name path m markdown ∧ s.files path = some markdown) :
    ¬ Due cx lower s name path := by
  obtain ⟨markdown, hretires, hfile⟩ := h
  rintro ⟨-, c, hget, hdeprecated⟩
  exact untagged_of_retires hcx hretires hfile hget hdeprecated.tagged

theorem same_restart (s : Store) (path : String) : Kept s (Store.restart s) path :=
  ⟨⟨rfl, rfl⟩, rfl⟩

end Keep

/-! ## The start of a put -/

theorem stampedConcept_retired (now now' : String) (c : Concept) :
    stampedConcept sweepHandle now' (retired lower now c) = retired lower now' c := by
  have hlabel : migrationLabel ≠ "" := by decide
  simp only [stampedConcept, sweepHandle, retired, if_neg hlabel]

/-- INTERNAL: a put of the sweep is refused or comes to its one concept. -/
theorem begin_retired {ch : Choice} {c : Concept} (hqueue : isQueuePath c.sourcePath = false)
    (hreserved : isReserved c.sourcePath = false) {pc : Pc}
    (hpc : pc = (Call.put (retired lower (ch.clock 0) c)).begin cx sweepHandle
      fun i => ch.clock (i + 1)) :
    ((retired lower "" c).frontmatter.validated cx ≠ .ok () ∧ ∃ r, pc = .finished r) ∨
      ((retired lower "" c).frontmatter.validated cx = .ok () ∧
        pc = .next [retired lower (ch.clock 1) c] sweepJob) := by
  have hplace : isQueuePath (retired lower (ch.clock 0) c).sourcePath = false := hqueue
  have hname : isReserved (retired lower (ch.clock 0) c).sourcePath = false := hreserved
  have hvalid : (retired lower (ch.clock 0) c).frontmatter.validated cx =
      (retired lower "" c).frontmatter.validated cx := rfl
  simp only [Call.begin, hplace, Bool.false_eq_true, if_false, putBatchWithRevision,
    stampAll_singleton, stamp_eq, hname, hvalid, stampedConcept_retired] at hpc
  cases hresult : (retired lower "" c).frontmatter.validated cx with
  | error e =>
    rw [hresult] at hpc
    exact .inl ⟨fun h => (by cases h), _, hpc⟩
  | ok u =>
    rw [hresult] at hpc
    exact .inr ⟨rfl, hpc⟩

theorem putAt_begin {h : Handle} {clock : ℕ → String} {c : Concept} :
    PutAt c.sourcePath ((Call.put c).begin cx h clock) := by
  simp only [Call.begin]
  split
  · trivial
  · simp only [putBatchWithRevision, stampAll_singleton]
    cases hstamp : stamp cx h (clock 0) c with
    | error e => trivial
    | ok c' => exact (stamp_eq_ok hstamp).1

/-- What a visit of a path starts. -/
theorem visit_eq_some {s : Store} {ch : Choice} {path : String} {pc : Pc}
    (h : visit cx lower s ch path = some pc) :
    isQueuePath path = false ∧ ∃ c, s.get cx path = .ok c ∧
      c.frontmatter.tags.any (isDeprecatedTag lower) = true ∧
      pc = (Call.put (retired lower (ch.clock 0) c)).begin cx sweepHandle
        fun i => ch.clock (i + 1) := by
  unfold visit at h
  split at h
  · cases h
  · rename_i hqueue
    refine ⟨eq_false_of_ne_true hqueue, ?_⟩
    split at h
    · cases h
    · rename_i c hget
      obtain ⟨m, hrewrite, rfl⟩ := Option.map_eq_some_iff.mp h
      unfold rewriteIfDeprecated at hrewrite
      split at hrewrite
      · rename_i htagged
        cases hrewrite
        exact ⟨c, hget, htagged, rfl⟩
      · cases hrewrite

/-- INTERNAL: a visit of a path starts a put at the path. -/
theorem putAt_visit {s : Store} {ch : Choice} {path : String} {pc : Pc}
    (h : visit cx lower s ch path = some pc) : PutAt path pc := by
  obtain ⟨-, c, hget, -, rfl⟩ := visit_eq_some h
  have hpath : (retired lower (ch.clock 0) c).sourcePath = path := (sourcePath_of_get hget).1
  rw [← hpath]
  exact putAt_begin

/-- INTERNAL: what is due is not passed over. -/
theorem not_due_of_visit {s₀ s : Store} {ch : Choice} {name path : String}
    (h : visit cx lower s ch path = none) (hsame : s.files path = s₀.files path) :
    ¬ Due cx lower s₀ name path := by
  rintro ⟨hsweepable, c, hget, hdeprecated⟩
  rw [← get_congr cx hsame] at hget
  simp only [visit, hsweepable.ordinary, hget, rewriteIfDeprecated, if_pos hdeprecated.tagged,
    Bool.false_eq_true, if_false, Option.map_some] at h
  cases h

/-- INTERNAL: the put that a visit starts. -/
theorem pcOk_visit (hcx : Faithful cx) {s₀ s : Store} {ch : Choice} {name path : String} {pc : Pc}
    (hch : Clocked cx ch) (hreserved : isReserved path = false) (hname : name ≠ libraryScope)
    (hregistered : s₀.registered path = true) (hphase : Phase cx lower s₀ s name path)
    (h : visit cx lower s ch path = some pc) : PcOk cx lower s₀ name path s pc := by
  obtain ⟨hqueue, c, hget, htagged, hpc⟩ := visit_eq_some h
  have hsame : Same s₀ s path := by
    obtain hsame | ⟨m, markdown, hretires, hfile⟩ := hphase.same_or_file
    · exact hsame
    · exact (untagged_of_retires hcx hretires hfile hget htagged).elim
  have hget₀ := (get_congr cx hsame.file).symm.trans hget
  obtain ⟨rfl, -⟩ := sourcePath_of_get hget₀
  obtain ⟨hinvalid, r, rfl⟩ | ⟨hvalid, rfl⟩ := begin_retired hqueue hreserved hpc
  · right
    refine ⟨hsame, ?_⟩
    rintro ⟨-, c', hget', hdeprecated⟩
    rw [hget₀] at hget'
    cases hget'
    exact hinvalid hdeprecated.accepted
  · obtain ⟨markdown, hprinted⟩ := exists_toMarkdown hcx (c := retired lower (ch.clock 1) c)
      ⟨ch.clock 1, rfl, hch 1⟩
    exact ⟨rfl, hsame, markdown, ⟨hname, hregistered, hqueue⟩,
      ⟨c, ch.clock 1, hget₀, ⟨htagged, hvalid⟩, hch 1, rfl⟩, hprinted⟩

end Mycelium.Analysis.SweepPuts
