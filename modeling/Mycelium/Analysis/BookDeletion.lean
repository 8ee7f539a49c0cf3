import Mycelium.Analysis.LibraryCalls
import Mycelium.Analysis.LibraryPaths
import Mycelium.Analysis.OrdinaryPaths
import Mycelium.Analysis.PassageAnchors
import Mycelium.Analysis.RestoreReversal
import Mycelium.Lib.StepSystem

/-!
# What the deletion of a book takes away

The deletion lists the concepts below `/<slug>/` and deletes them one by one, then it deletes
the stack text.

1. *The listing* is the registered paths that begin with the prefix, where no path begins with
   it in another case (`listPrefix_literal`): LIKE does not tell `/Rust/` from `/rust/`.
2. *The loop.* `Without` relates the content at the start to the store in the middle of the
   loop, one delete keeps it for one path more (`without_removed`), and a row without a file
   stays (`ends_deleteEach`).
3. *The contents* that the calls on the library reach have ordinary paths (`ordinary_exec`).
4. *The frame.* The deletion takes what is below `/<slug>/` and nothing else, where the
   content spares the rest (`Spared`): no path below in another case, no row below without
   its file, and no concept of another book at the path of the stack text
   (`deleteBook_frame`).
-/

set_option autoImplicit false

namespace Mycelium.Analysis.BookDeletion

open Mycelium.Model.Text Mycelium.Model.Outline Mycelium.Model.Concepts
open Mycelium.Model.ConceptStore Mycelium.Model.BookLibrary
open Mycelium.Model.StoreTasks (Choice Pc Call)
open Mycelium.Analysis.CallCompletion Mycelium.Analysis.LibraryCalls
open Mycelium.Analysis.LibraryPaths Mycelium.Analysis.OrdinaryPaths
open Mycelium.Analysis.ConceptRoundTrip (noteCodec)
open StepSystem
open Mycelium.Analysis.PassageAnchors (asciiTables)
open Mycelium.Analysis.RestoreReversal (noteChoice noteChoice_clocked)

/-- The directory of a book. -/
def bookDir (slug : String) : String := "/" ++ slug ++ "/"

/-! ## The listing -/

/-- No path begins with this in another case only. -/
def SameCase (s : Store) (start : String) : Prop :=
  ∀ e ∈ s.registry, likePrefix start e.path = true → startsWith e.path start = true

theorem listPrefix_literal (s : Store) (start : String) :
    listPrefix s start = s.list.filter (fun e => startsWith e.path start) ↔ SameCase s start := by
  rw [listPrefix_eq]
  constructor
  · intro h e he hlike
    have hmem : e ∈ s.list.filter fun e => likePrefix start e.path :=
      List.mem_filter.mpr ⟨mem_list.mpr he, hlike⟩
    rw [h] at hmem
    exact (List.mem_filter.mp hmem).2
  · intro h
    apply List.filter_congr
    intro e he
    rw [Bool.eq_iff_iff]
    exact ⟨h e (mem_list.mp he), likePrefix_of_startsWith⟩

/-! ## The loop -/

/-- The concept at this path is as it was: its text, its document and its history. -/
structure Same (s : Store) (q : String) (t : Store) : Prop where
  file : t.files q = s.files q
  document : t.index q = s.index q
  chain : t.revisions.filter (fun r => r.path = q) = s.revisions.filter fun r => r.path = q

/-- The content without the concepts at these paths. -/
structure Without (s : Store) (gone : String → Prop) (t : Store) : Prop where
  rows : ∀ e, e ∈ t.registry ↔ e ∈ s.registry ∧ ¬ gone e.path
  kept : ∀ e ∈ s.registry, ¬ gone e.path → Same s e.path t
  removed : ∀ e ∈ s.registry, gone e.path → t.files e.path = none ∧ t.index e.path = none

variable {cx : Codec} {tables : CharTables} {s t : Store} {gone : String → Prop}

theorem without_none (s : Store) : Without s (fun _ => False) s where
  rows := by simp
  kept _ _ _ := ⟨rfl, rfl, rfl⟩
  removed _ _ h := h.elim

theorem Without.congr {gone' : String → Prop} (h : Without s gone t)
    (hgone : ∀ q, gone q ↔ gone' q) : Without s gone' t := by
  have heq : gone = gone' := funext fun q => propext (hgone q)
  rw [← heq]
  exact h

/-- **One delete of the loop.** -/
theorem without_removed (hs : Ordinary s) (h : Without s gone t) {q : String} {t' : Store}
    (hremoved : Removed t q t') :
    Without s (fun p => gone p ∨ p = q) (regenerated t' (some q)) := by
  obtain ⟨hregistry, hindex, hrevisions⟩ := regenerated_fields t' (some q)
  have hfiles : ∀ e ∈ s.registry,
      (regenerated t' (some q)).files e.path = if e.path = q then none else t.files e.path := by
    intro e he
    rw [files_regenerated_of_ordinary t' (some q) (hs.accepted e he).2, hremoved.files]
  refine ⟨?_, ?_, ?_⟩
  · intro e
    rw [hregistry, hremoved.registry]
    simp only [Store.unregister, List.mem_filter, decide_eq_true_eq]
    rw [h.rows e, not_or, and_assoc]
  · intro e he hkept
    rw [not_or] at hkept
    have hsame := h.kept e he hkept.1
    refine ⟨?_, ?_, ?_⟩
    · rw [hfiles e he, if_neg hkept.2, hsame.file]
    · rw [hindex, hremoved.index]
      simp only [hkept.2, if_false]
      exact hsame.document
    · rw [hrevisions, hremoved.chains e.path hkept.2, hsame.chain]
  · intro e he hgone
    rw [hfiles e he, hindex, hremoved.index]
    by_cases hq : e.path = q
    · simp only [hq, if_true, and_self]
    · simp only [hq, if_false]
      exact h.removed e he (hgone.resolve_right hq)

/-- **The loop.** A row whose file is there goes, one without stays. -/
theorem ends_deleteEach {post : Store → Prop} {slug : String} (hs : Ordinary s)
    {entries : List ConceptEntry} (hentries : ∀ e ∈ entries, e ∈ s.registry)
    (hnodup : (entries.map ConceptEntry.path).Nodup) (hnew : ∀ e ∈ entries, ¬ gone e.path)
    (h : Without s gone t)
    (hpost : ∀ t', Without s (fun q => gone q ∨ ∃ e ∈ entries, e.path = q ∧
      (s.files q).isSome = true) t' → post (t'.deleteFile (stackPathFor slug))) :
    CallEnds cx post t (.deleteEach entries slug : Point tables) := by
  induction entries generalizing t gone with
  | nil =>
    apply callEnds_step rfl
    intro ch _
    apply callEnds_returned
    exact hpost t (h.congr (by simp))
  | cons e entries ih =>
    rw [List.map_cons, List.nodup_cons] at hnodup
    have hrest : ∀ d ∈ entries, d ∈ s.registry := fun d hd => hentries d (List.mem_cons_of_mem e hd)
    have he := hentries e List.mem_cons_self
    have hfile : t.files e.path = s.files e.path := (h.kept e he (hnew e List.mem_cons_self)).file
    apply callEnds_step rfl
    intro ch _
    simp only [Model.BookLibrary.pointStep, Call.begin, (hs.accepted e he).1, Bool.false_eq_true,
      if_false]
    cases hthere : s.files e.path with
    | none =>
      rw [hthere] at hfile
      apply callEnds_deleteOne (Without s gone)
      · exact ends_deleteRead_missing (hs.valid e he) hfile h
      · intro t' ht'
        apply ih hrest hnodup.2 (fun d hd => hnew d (List.mem_cons_of_mem e hd)) ht'
        intro t'' ht''
        apply hpost t''
        apply ht''.congr
        intro q
        apply or_congr_right
        constructor
        · rintro ⟨d, hd, hq⟩
          exact ⟨d, List.mem_cons_of_mem e hd, hq⟩
        · rintro ⟨d, hd, rfl, hsome⟩
          rcases List.mem_cons.mp hd with rfl | hd
          · rw [hthere] at hsome
            cases hsome
          · exact ⟨d, hd, rfl, hsome⟩
    | some pre =>
      rw [hthere] at hfile
      apply callEnds_deleteOne (Without s fun q => gone q ∨ q = e.path)
      · apply ends_deleteRead (hs.valid e he) (hs.accepted e he).1 hfile
        · intro d hd
          exact hs.valid d ((h.rows d).mp hd).1
        · intro t' hremoved
          exact without_removed hs h hremoved
      · intro t' ht'
        apply ih hrest hnodup.2 _ ht'
        · intro t'' ht''
          apply hpost t''
          apply ht''.congr
          intro q
          rw [or_assoc]
          apply or_congr_right
          constructor
          · rintro (rfl | ⟨d, hd, hq⟩)
            · exact ⟨e, List.mem_cons_self, rfl, by rw [hthere]; rfl⟩
            · exact ⟨d, List.mem_cons_of_mem e hd, hq⟩
          · rintro ⟨d, hd, rfl, hsome⟩
            rcases List.mem_cons.mp hd with rfl | hd
            · exact .inl rfl
            · exact .inr ⟨d, hd, rfl, hsome⟩
        · intro d hd hgone
          rcases hgone with hgone | heq
          · exact hnew d (List.mem_cons_of_mem e hd) hgone
          · apply hnodup.1
            rw [← heq]
            exact List.mem_map_of_mem hd

/-! ## The contents -/

/-- What a call on the library knows at its point. -/
def PointOrdinary : Point tables → Prop
  | .putCatalog pc _ | .deleteOne pc _ _ => PcOrdinary pc
  | _ => True

theorem ordinary_pointStep (hs : Ordinary s) (ch : Choice) {p : Point tables}
    (hp : PointOrdinary p) :
    Ordinary (pointStep cx s ch p).1 ∧ PointOrdinary (pointStep cx s ch p).2 := by
  cases p with
  | writeText u =>
    simp only [pointStep]
    split
    · exact ⟨hs, trivial⟩
    · split
      · exact ⟨hs, trivial⟩
      · rename_i s' hw
        refine ⟨hs.of_registry ?_, ?_⟩
        · rw [write_eq_ok hw]
        · unfold writeCatalog
          split
          · trivial
          · exact pcOrdinary_begin ingestHandle ch.clock (show Public (.putBatch u.concepts) from trivial)
  | putCatalog pc written =>
    cases pc with
    | finished r => cases r <;> exact ⟨hs, trivial⟩
    | _ => exact ordinary_taskStep hs ch hp
  | listBook slug =>
    refine ⟨hs, ?_⟩
    trivial
  | deleteEach entries slug =>
    cases entries with
    | nil => exact ⟨hs.of_registry rfl, trivial⟩
    | cons e entries =>
      exact ⟨hs, pcOrdinary_begin {} ch.clock (show Public (.delete e.path) from trivial)⟩
  | deleteOne pc entries slug =>
    cases pc with
    | finished r => exact ⟨hs, trivial⟩
    | _ => exact ordinary_taskStep hs ch hp
  | returned o => exact ⟨hs, trivial⟩

/-- **Every content** that the calls on the library reach has ordinary paths. -/
theorem ordinary_exec (scopeId : String) {as : List (Action tables)} {x : State tables}
    (hrun : exec (step cx) (State.init tables scopeId) as = some x) : Ordinary x.store := by
  have hinit : Ordinary (State.init tables scopeId).store ∧
      PointOrdinary (State.init tables scopeId).point := by
    refine ⟨ordinary_empty scopeId, ?_⟩
    trivial
  have hinv : Ordinary x.store ∧ PointOrdinary x.point := by
    apply exec_invariant (fun x => Ordinary x.store ∧ PointOrdinary x.point) _ hinit hrun
    intro x a x' hx hstep
    cases a with
    | call c =>
      simp only [step] at hstep
      split at hstep
      · cases hstep
        refine ⟨hx.1, ?_⟩
        cases c <;> trivial
      · cases hstep
    | step ch =>
      cases hstep
      exact ordinary_pointStep hx.1 ch hx.2
  exact hinv.1

/-! ## The frame -/

/-- What the deletion of a book is to do: the concepts below its directory go and the others
are as they were. -/
structure Frame (s : Store) (slug : String) (t : Store) : Prop where
  rows : ∀ e, e ∈ t.registry ↔ e ∈ s.registry ∧ ¬ startsWith e.path (bookDir slug) = true
  kept : ∀ e ∈ s.registry, ¬ startsWith e.path (bookDir slug) = true → Same s e.path t
  removed : ∀ e ∈ s.registry, startsWith e.path (bookDir slug) = true →
    t.files e.path = none ∧ t.index e.path = none

/-- The content has nothing that the deletion treats otherwise: a concept of a directory that
differs in case, a concept of another book at the path of the stack text, or below the
directory a row without its file. -/
structure Spared (s : Store) (slug : String) : Prop where
  sameCase : ∀ e ∈ s.registry, (s.files e.path).isSome = true →
    likePrefix (bookDir slug) e.path = true → startsWith e.path (bookDir slug) = true
  text : ∀ e ∈ s.registry, (s.files e.path).isSome = true →
    e.path = stackPathFor slug → startsWith e.path (bookDir slug) = true
  present : ∀ e ∈ s.registry, startsWith e.path (bookDir slug) = true →
    (s.files e.path).isSome = true

/-- INTERNAL: the paths that the loop takes. -/
def Taken (s : Store) (slug q : String) : Prop :=
  ∃ e ∈ listPrefix s (bookDir slug), e.path = q ∧ (s.files q).isSome = true

theorem taken_iff {e : ConceptEntry} (he : e ∈ s.registry) {slug : String} :
    Taken s slug e.path ↔
      likePrefix (bookDir slug) e.path = true ∧ (s.files e.path).isSome = true := by
  constructor
  · rintro ⟨d, hd, hpath, hfile⟩
    have hlike := (mem_listPrefix.mp hd).2
    rw [hpath] at hlike
    exact ⟨hlike, hfile⟩
  · rintro ⟨hlike, hfile⟩
    exact ⟨e, mem_listPrefix.mpr ⟨he, hlike⟩, rfl, hfile⟩

theorem frame_of_spared {slug : String} (h : Without s (Taken s slug) t)
    (hspared : Spared s slug) : Frame s slug (t.deleteFile (stackPathFor slug)) := by
  -- what the loop takes is what is below the directory
  have htaken : ∀ e ∈ s.registry,
      (Taken s slug e.path ↔ startsWith e.path (bookDir slug) = true) := by
    intro e he
    rw [taken_iff he]
    constructor
    · rintro ⟨hlike, hfile⟩
      exact hspared.sameCase e he hfile hlike
    · intro hbelow
      exact ⟨likePrefix_of_startsWith hbelow, hspared.present e he hbelow⟩
  refine ⟨?_, ?_, ?_⟩
  · intro e
    show e ∈ t.registry ↔ _
    rw [h.rows e]
    apply and_congr_right
    intro he
    rw [htaken e he]
  · intro e he hother
    have hsame := h.kept e he (fun ht => hother ((htaken e he).mp ht))
    refine ⟨?_, hsame.document, hsame.chain⟩
    by_cases hstack : e.path = stackPathFor slug
    · cases hfile : s.files e.path with
      | none => simp only [Store.deleteFile, hstack, if_true]
      | some text =>
        have hsome : (s.files e.path).isSome = true := by rw [hfile]; rfl
        exact absurd (hspared.text e he hsome hstack) hother
    · simp only [Store.deleteFile, hstack, if_false]
      exact hsame.file
  · intro e he hbelow
    obtain ⟨hfile, hdocument⟩ := h.removed e he ((htaken e he).mpr hbelow)
    refine ⟨?_, hdocument⟩
    simp only [Store.deleteFile]
    split
    · rfl
    · exact hfile

theorem spared_of_frame {slug : String} (h : Without s (Taken s slug) t)
    (hframe : Frame s slug (t.deleteFile (stackPathFor slug))) : Spared s slug := by
  have hrows : ∀ e ∈ s.registry,
      (Taken s slug e.path ↔ startsWith e.path (bookDir slug) = true) := by
    intro e he
    have hloop := h.rows e
    have hend := hframe.rows e
    have hsame : e ∈ (t.deleteFile (stackPathFor slug)).registry ↔ e ∈ t.registry := Iff.rfl
    rw [hsame, hloop, and_congr_right_iff] at hend
    exact not_iff_not.mp (hend he)
  refine ⟨?_, ?_, ?_⟩
  · intro e he hfile hlike
    exact (hrows e he).mp ((taken_iff he).mpr ⟨hlike, hfile⟩)
  · intro e he hfile hstack
    by_contra hother
    have hkept := (hframe.kept e he hother).file
    simp only [Store.deleteFile, hstack, if_true] at hkept
    rw [hstack, ← hkept] at hfile
    cases hfile
  · intro e he hbelow
    exact ((taken_iff he).mp ((hrows e he).mpr hbelow)).2

theorem ends_deleteBook (hs : Ordinary s) (slug : String) :
    CallEnds cx (fun t => Frame s slug t ↔ Spared s slug) s (.listBook slug : Point tables) := by
  apply callEnds_step rfl
  intro ch _
  apply ends_deleteEach hs _ (nodup_listPrefix hs.distinct _) _ (without_none s)
  · intro t ht
    have hwithout : Without s (Taken s slug) t := ht.congr fun q => by simp [Taken, bookDir]
    exact ⟨spared_of_frame hwithout, frame_of_spared hwithout⟩
  · intro e he
    exact (mem_listPrefix.mp he).1
  · intro e _
    exact id

/-- A deletion that starts on this content. -/
def deleting (tables : CharTables) (s : Store) (slug : String) : State tables where
  store := s
  point := .listBook slug

/-- **The deletion of a book**, with any choices: the listing of a prefix is the literal one
where no path differs from it in case only, and the deletion has its frame where the content
spares the rest.
SOURCE: concept_store.rs:703-747, ingest.rs:69-90 -/
theorem deleteBook_frame (hs : Ordinary s) (slug : String) :
    (∀ start, listPrefix s start = s.list.filter (fun e => startsWith e.path start) ↔
      SameCase s start) ∧
    ∀ choices : ℕ → Choice, (∀ k, Clocked cx (choices k)) →
      ∃ k, let t := ((List.range k).map choices).foldl (advance cx) (deleting tables s slug)
        t.point.isReturned = true ∧ (Frame s slug t.store ↔ Spared s slug) := by
  refine ⟨listPrefix_literal s, ?_⟩
  intro choices hchoices
  obtain ⟨k, o, ho, hpost⟩ := (ends_deleteBook hs slug).exists_result choices hchoices
  exact ⟨k, isReturned_iff.mpr ⟨o, ho⟩, hpost⟩

/-! ## Two books -/

/-- A content with a concept at each of these paths. -/
def shelved (paths : List String) : Store :=
  { Store.empty "global:library" with
    files := fun q => if q ∈ paths then some "x" else none
    registry := paths.map fun q => { path := q, title := q, conceptType := "book", updatedAt := "" } }

theorem ordinary_shelved {paths : List String} (hnodup : paths.Nodup)
    (hpaths : ∀ q ∈ paths, validPath q = true ∧ isQueuePath q = false ∧ isReserved q = false) :
    Ordinary (shelved paths) := by
  refine ⟨?_, ?_, ?_⟩
  · simpa only [shelved, List.map_map, Function.comp_def, List.map_id'] using hnodup
  · intro e he
    obtain ⟨q, hq, rfl⟩ := List.mem_map.mp he
    exact (hpaths q hq).1
  · intro e he
    obtain ⟨q, hq, rfl⟩ := List.mem_map.mp he
    exact (hpaths q hq).2

/-- The slug has a wildcard of LIKE in it, which the other one matches. -/
def alike : Store := shelved ["/a_b/book.md", "/axb/book.md"]

theorem ordinary_alike : Ordinary alike := ordinary_shelved (by decide) (by decide)

theorem deleteBook_frame_alike :
    ∃ k, Frame alike "a_b" (((List.range k).map fun _ => noteChoice).foldl (advance noteCodec)
      (deleting asciiTables alike "a_b")).store := by
  obtain ⟨k, -, hframe⟩ := (@deleteBook_frame noteCodec asciiTables alike ordinary_alike "a_b").2
    (fun _ => noteChoice) (fun _ => noteChoice_clocked)
  refine ⟨k, hframe.mpr ⟨?_, ?_, ?_⟩⟩
  · show ∀ e ∈ alike.registry, _
    decide
  · decide
  · decide

/-- Two books whose slugs differ in case. -/
def twoCases : Store := shelved ["/Rust/book.md", "/rust/book.md"]

theorem ordinary_twoCases : Ordinary twoCases := ordinary_shelved (by decide) (by decide)

theorem other_case_deleted :
    ¬ ∀ (cx : Codec) (tables : CharTables) (s : Store) (slug : String) (choices : ℕ → Choice) (k : ℕ),
      Ordinary s → (∀ e ∈ s.registry, (s.files e.path).isSome = true) →
      (∀ k, Clocked cx (choices k)) →
      let t := ((List.range k).map choices).foldl (advance cx) (deleting tables s slug)
      t.point.isReturned = true →
        (∀ start, listPrefix s start = s.list.filter fun e => startsWith e.path start) ∧
          Frame s slug t.store := by
  intro hall
  obtain ⟨-, hframe⟩ := hall noteCodec asciiTables twoCases "rust" (fun _ => noteChoice) 40
    ordinary_twoCases (by decide) (fun _ => noteChoice_clocked) (by decide +kernel)
  have hkept := (hframe.rows
    { path := "/Rust/book.md", title := "/Rust/book.md", conceptType := "book", updatedAt := "" }).mpr
    ⟨List.mem_cons_self, by decide⟩
  revert hkept
  decide +kernel

end Mycelium.Analysis.BookDeletion
