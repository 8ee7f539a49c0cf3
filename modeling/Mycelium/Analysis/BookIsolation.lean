import Mycelium.Lib.StepSystem
import Mycelium.Analysis.LibraryCalls
import Mycelium.Analysis.LibraryShelf
import Mycelium.Analysis.PassageAnchors

/-!
# Books that do not overwrite one another

Calls on the shared library, one after the other.

1. *One call.* A call that is clear of the other books gets to its end and leaves the store
   holding the shelf after it (`ends_ingestBook`, `ends_deleteBook`).
2. *Every sequence.* `books_kept_apart`: where all calls are clear, every text and every
   catalog concept is read back as it was written.
3. *A book named `library`.* The text of the book `book` is the file of its hub
   (`text_over_library_hub`); without such a book no text is in a catalog's file
   (`allClear_of_slugs`).
-/

set_option autoImplicit false

namespace Mycelium.Analysis.BookIsolation

open Mycelium.Model.Text Mycelium.Model.Outline Mycelium.Model.Concepts
open Mycelium.Model.ConceptStore Mycelium.Model.Catalog Mycelium.Model.BookLibrary
open Mycelium.Model.StoreTasks (Call Choice Pc Job taskStep putBatchWithRevision)
open Mycelium.Analysis.ConceptRoundTrip Mycelium.Analysis.CallCompletion
open Mycelium.Analysis.RestoreReversal (stampedConcept stamp_eq SameButStamps noteChoice
  noteChoice_clocked)
open Mycelium.Analysis.LibraryPaths Mycelium.Analysis.LibraryCalls Mycelium.Analysis.LibraryShelf
open Mycelium.Analysis.PassageAnchors (asciiTables)
open StepSystem Completion

variable {cx : Codec} {tables : CharTables}

variable {σ : Shelf} {s : Store}

/-! ## The put of a catalog -/

/-- INTERNAL: concepts that may be put are all stamped. -/
theorem stampAll_batch {clock : ℕ → String} (hclock : ∀ i, cx.isRfc3339 (clock i) = true)
    {cs : List Concept} (hreserved : ∀ c ∈ cs, isReserved c.sourcePath = false)
    (hvalid : ∀ c ∈ cs, c.frontmatter.validated cx = .ok ()) (i : ℕ) :
    ∃ cs', stampAll cx ingestHandle clock i cs = .ok cs' ∧ StampedBatch cx cs cs' := by
  induction cs generalizing i with
  | nil => exact ⟨[], rfl, by simp, by simp, rfl⟩
  | cons c cs ih =>
    obtain ⟨cs', hcs', hbatch⟩ := ih (fun d hd => hreserved d (List.mem_cons_of_mem c hd))
      (fun d hd => hvalid d (List.mem_cons_of_mem c hd)) (i + 1)
    have hstamp : stamp cx ingestHandle (clock i) c =
        .ok (stampedConcept ingestHandle (clock i) c) := by
      rw [stamp_eq, hreserved c List.mem_cons_self, hvalid c List.mem_cons_self]
      rfl
    refine ⟨stampedConcept ingestHandle (clock i) c :: cs', ?_, ?_, ?_, ?_⟩
    · simp only [stampAll, hstamp, hcs', bind, Except.bind, pure, Except.pure]
    · intro c' hc'
      rcases List.mem_cons.mp hc' with rfl | hc'
      · exact ⟨c, List.mem_cons_self, clock i, hclock i, rfl⟩
      · obtain ⟨d, hd, hnow⟩ := hbatch.origin c' hc'
        exact ⟨d, List.mem_cons_of_mem c hd, hnow⟩
    · intro d hd
      rcases List.mem_cons.mp hd with rfl | hd
      · exact ⟨clock i, hclock i, List.mem_cons_self⟩
      · obtain ⟨now, hnow, hmem⟩ := hbatch.image d hd
        exact ⟨now, hnow, List.mem_cons_of_mem _ hmem⟩
    · rw [List.map_cons, List.map_cons, hbatch.paths]
      rfl

/-- INTERNAL: a reserved name stops the stamping. -/
theorem stampAll_refused {clock : ℕ → String} {cs : List Concept} {c : Concept} (hc : c ∈ cs)
    (hreserved : isReserved c.sourcePath = true) (i : ℕ) :
    ∃ e, stampAll cx ingestHandle clock i cs = .error e := by
  cases hstamp : stampAll cx ingestHandle clock i cs with
  | error e => exact ⟨e, rfl⟩
  | ok cs' =>
    exfalso
    induction cs generalizing i cs' with
    | nil => cases hc
    | cons d cs ih =>
      simp only [stampAll, bind, Except.bind, pure, Except.pure] at hstamp
      split at hstamp
      · cases hstamp
      · rename_i d' hd'
        split at hstamp
        · cases hstamp
        · rename_i cs'' hcs''
          rcases List.mem_cons.mp hc with rfl | hc
          · obtain ⟨hpath, hno⟩ := stamp_eq_ok hd'
            rw [hpath, hreserved] at hno
            cases hno
          · exact ih hc (i + 1) _ hcs''

/-- INTERNAL: the frontmatter of a catalog's concept has no lifecycle fields. -/
theorem validated_of_mem {u : Upload tables} {c : Concept} (h : c ∈ u.concepts) :
    c.frontmatter.validated cx = .ok () := by
  rcases List.mem_cons.mp h with rfl | h
  · rfl
  · obtain ⟨ch, -, rfl⟩ := List.mem_map.mp h
    rfl

/-- INTERNAL: a batch with concepts is stamped first. -/
theorem putBatchWithRevision_stamped {cs : List Concept} (h : cs ≠ []) (job : Job)
    (clock : ℕ → String) : putBatchWithRevision cx cs job clock =
      match stampAll cx job.handle clock 0 cs with
      | .error e => .finished (.error e)
      | .ok stamped => .next stamped job := by
  cases cs with
  | nil => exact absurd rfl h
  | cons c cs => rfl

theorem begin_refused (cx : Codec) {u : Upload tables} (houtline : u.outline ≠ []) (h : ¬ Accepted u)
    (clock : ℕ → String) :
    ∃ e, (Call.putBatch u.concepts).begin cx ingestHandle clock =
      .finished (.error e) := by
  simp only [Call.begin]
  cases hfind : u.concepts.find? fun c => isQueuePath c.sourcePath with
  | some c => exact ⟨_, rfl⟩
  | none =>
    have hqueue : ∀ c ∈ u.concepts, isQueuePath c.sourcePath = false := by
      intro c hc
      simpa using List.find?_eq_none.mp hfind c hc
    have hreserved : ∃ c ∈ u.concepts, isReserved c.sourcePath = true := by
      by_contra hnone
      push Not at hnone
      exact h ⟨houtline, fun c hc => ⟨hqueue c hc, by simpa using hnone c hc⟩⟩
    obtain ⟨c, hc, hres⟩ := hreserved
    have hrefused : ∃ e, stampAll cx ingestHandle clock 0 u.concepts = .error e :=
      stampAll_refused hc hres 0
    obtain ⟨e, he⟩ := hrefused
    refine ⟨e, ?_⟩
    dsimp only
    rw [putBatchWithRevision_stamped (concepts_ne_nil u)]
    simp only [he]

/-- INTERNAL: an accepted catalog is put. -/
theorem ends_putBatch (hcx : Faithful cx) {u : Upload tables} (hs : Holds cx σ s)
    (hslug : SlugShape u.slug.val) (haccepted : Accepted u)
    (hanchors : (u.outline.map chapterAnchorId).Nodup)
    (hfree : u.slug.val = "library" → σ.text "index" = none ∧
      ∀ name c, (name, c) ∈ named u → σ.text name = none) {clock : ℕ → String}
    (hclock : ∀ i, cx.isRfc3339 (clock i) = true) :
    Ends cx (fun t _ => Holds cx (σ.withCatalog u.slug.val (named u)) t) s
      ((Call.putBatch u.concepts).begin cx ingestHandle clock) := by
  obtain ⟨stamped, hstamped, hbatch⟩ := stampAll_batch hclock
    (fun c hc => (haccepted.2 c hc).2) (fun c hc => validated_of_mem hc) 0
  have hfind : (u.concepts.find? fun c => isQueuePath c.sourcePath) = none :=
    List.find?_eq_none.mpr fun c hc => by simp [(haccepted.2 c hc).1]
  simp only [Call.begin, hfind]
  rw [putBatchWithRevision_stamped (concepts_ne_nil u)]
  simp only [hstamped]
  apply ends_batch
  · intro c' hc'
    obtain ⟨name, d, hname, hpath⟩ := exists_name_of_batch hbatch hc'
    obtain ⟨c, hc, now, hnow, rfl⟩ := hbatch.origin c' hc'
    refine ⟨?_, (haccepted.2 c hc).1, exists_toMarkdown hcx ⟨now, rfl, hnow⟩⟩
    rw [hpath]
    exact validPath_chapterPath _ _
  · have hnames : u.concepts.map Concept.sourcePath =
        ((named u).map Prod.fst).map (chapterPath u.slug.val) := by
      rw [concepts_eq, List.map_map, List.map_map]
      apply List.map_congr_left
      rintro ⟨name, c⟩ hname
      exact (mem_named hname).2.1
    rw [hbatch.paths, hnames]
    exact (nodup_names hanchors).map fun _ _ heq => (chapterPath_inj hslug hslug heq).2
  · right
    simp [ingestHandle]
  · intro s' hput
    have hholds := holds_withCatalog hs hslug haccepted hbatch hput hfree
    apply ends_step rfl
    intro _ _
    exact ends_regenList hholds.valid (holds_regenerated hholds none)

/-! ## One call -/

theorem ends_writeCatalog (hcx : Faithful cx) {u : Upload tables} (hslug : SlugShape u.slug.val)
    (hs : Holds cx (σ.withText u.slug.val u.text) s) (hblank : ¬ Blank u)
    (hclear : Clear σ (.ingestBook u)) {clock : ℕ → String}
    (hclock : ∀ i, cx.isRfc3339 (clock i) = true) :
    CallEnds cx (Holds cx (σ.after (.ingestBook u))) s (writeCatalog cx u clock) := by
  simp only [Shelf.after, hblank, if_false]
  obtain ⟨-, hcatalog⟩ := hclear hblank
  by_cases haccepted : Accepted u
  · simp only [haccepted, if_true, writeCatalog, haccepted.1, if_false]
    obtain ⟨hanchors, hlibrary⟩ := hcatalog haccepted
    apply callEnds_putCatalog
    apply ends_putBatch hcx hs hslug haccepted hanchors _ hclock
    intro hname
    obtain ⟨hbook, hindex, hchapters⟩ := hlibrary hname
    -- the book's own text has another file than its concepts
    have hother {name : String} (hne : name ≠ "library") (h : σ.text name = none) :
        (σ.withText u.slug.val u.text).text name = none := by
      simp only [Shelf.withText, hname, hne, if_false]
      exact h
    refine ⟨hother (by decide) hindex, ?_⟩
    intro name c hmem
    apply hother (name_ne_library hmem)
    rcases List.mem_cons.mp hmem with heq | hmem
    · rw [(Prod.mk.inj heq).1]
      exact hbook
    · obtain ⟨ch, hch, heq⟩ := List.mem_map.mp hmem
      rw [← (Prod.mk.inj heq).1]
      exact hchapters ch hch
  · simp only [haccepted, if_false]
    by_cases houtline : u.outline = []
    · simp only [writeCatalog, houtline, if_true]
      exact callEnds_returned hs
    · obtain ⟨e, he⟩ := begin_refused cx houtline haccepted clock
      simp only [writeCatalog, houtline, if_false, he]
      exact callEnds_putCatalog (ends_finished hs)

/-- **One ingest.** -/
theorem ends_ingestBook (hcx : Faithful cx) (htables : Lowercasing tables) {u : Upload tables}
    (hs : Holds cx σ s) (hclear : Clear σ (.ingestBook u)) :
    CallEnds cx (Holds cx (σ.after (.ingestBook u))) s (.writeText u) := by
  have hslug := slugShape_of_admitted htables u.slug.property
  apply callEnds_step rfl
  intro ch hch
  by_cases hblank : Blank u
  · have htrim : trim u.text.toList = [] := hblank
    simp only [pointStep, htrim, if_true, Shelf.after, hblank]
    exact callEnds_returned hs
  · have htrim : ¬ trim u.text.toList = [] := hblank
    have hpath : validPath (stackPathFor u.slug.val) = true := by
      rw [stackPathFor_eq]
      exact validPath_chapterPath _ _
    simp only [pointStep, htrim, if_false, write_valid hpath]
    apply ends_writeCatalog hcx hslug _ hblank hclear hch
    exact holds_withText hs hslug (hclear hblank).1

/-- INTERNAL: the shelf in the middle of a deletion: of the book's catalog the concepts at
these paths are left. -/
def keeping (σ : Shelf) (slug : String) (paths : List String) : Shelf :=
  { σ with
    catalog := fun s name =>
      if s = slug ∧ chapterPath s name ∉ paths then none else σ.catalog s name }

theorem keeping_nil (σ : Shelf) (slug : String) :
    keeping σ slug [] = σ.withoutCatalog slug := by
  simp [keeping, Shelf.withoutCatalog]

theorem keeping_cons {slug name : String} (hslug : SlugShape slug) {paths : List String}
    (hnew : chapterPath slug name ∉ paths) :
    (keeping σ slug (chapterPath slug name :: paths)).withoutConcept slug name =
      keeping σ slug paths := by
  unfold keeping Shelf.withoutConcept
  congr 1
  funext t n
  by_cases ht : t = slug
  · subst ht
    by_cases hn : n = name
    · subst hn
      simp [hnew]
    · have hne : chapterPath t n ≠ chapterPath t name := fun heq =>
        hn (chapterPath_inj hslug hslug heq).2
      simp [hn, hne]
  · simp [ht]

/-- INTERNAL: the listing of a book is its catalog. -/
theorem entries_of_listPrefix {slug : String} (hslug : SlugShape slug) (hs : Holds cx σ s) :
    (∀ e ∈ listPrefix s ("/" ++ slug ++ "/"), ∃ name, e.path = chapterPath slug name ∧
      (σ.catalog slug name).isSome = true) ∧
      ((listPrefix s ("/" ++ slug ++ "/")).map ConceptEntry.path).Nodup ∧
      keeping σ slug ((listPrefix s ("/" ++ slug ++ "/")).map ConceptEntry.path) = σ := by
  refine ⟨?_, ?_, ?_⟩
  · intro e he
    obtain ⟨hmem, hlike⟩ := mem_listPrefix.mp he
    obtain ⟨t, name, hpath, hc⟩ := (hs.registered e.path).mp (registered_of_mem hmem)
    rw [hpath, likePrefix_iff hslug (hs.shapes t name hc)] at hlike
    subst hlike
    exact ⟨name, hpath, hc⟩
  · exact nodup_listPrefix hs.distinct _
  · have hcatalog : (keeping σ slug ((listPrefix s ("/" ++ slug ++ "/")).map
        ConceptEntry.path)).catalog = σ.catalog := by
      funext t name
      simp only [keeping]
      split
      · rename_i hgone
        obtain ⟨rfl, hnot⟩ := hgone
        symm
        rw [← Option.not_isSome_iff_eq_none]
        intro hc
        obtain ⟨e, he, hpath⟩ := registered_iff.mp
          ((hs.registered (chapterPath t name)).mpr ⟨t, name, rfl, hc⟩)
        apply hnot
        rw [List.mem_map]
        refine ⟨e, mem_listPrefix.mpr ⟨he, ?_⟩, hpath⟩
        rw [hpath]
        exact (likePrefix_iff hslug hslug name).mpr rfl
      · rfl
    show (⟨σ.text, (keeping σ slug _).catalog⟩ : LibraryShelf.Shelf) = σ
    rw [hcatalog]

theorem ends_deleteEach {slug : Slug tables} (hslug : SlugShape slug.val)
    (hclear : Clear σ (.deleteBook slug)) {entries : List ConceptEntry}
    (hs : Holds cx (keeping σ slug.val (entries.map ConceptEntry.path)) s)
    (hentries : ∀ e ∈ entries, ∃ name, e.path = chapterPath slug.val name ∧
      (σ.catalog slug.val name).isSome = true)
    (hnodup : (entries.map ConceptEntry.path).Nodup) :
    CallEnds cx (Holds cx (σ.after (.deleteBook slug))) s (.deleteEach entries slug.val : Point tables) := by
  induction entries generalizing s with
  | nil =>
    apply callEnds_step rfl
    intro ch _
    apply callEnds_returned
    rw [List.map_nil, keeping_nil] at hs
    apply holds_withoutText hs
    simp only [Shelf.withoutCatalog]
    split
    · rfl
    · rename_i hne
      exact hclear fun heq => hne heq.symm
  | cons e entries ih =>
    obtain ⟨name, hpath, hc⟩ := hentries e List.mem_cons_self
    rw [List.map_cons, List.nodup_cons] at hnodup
    rw [List.map_cons, hpath] at hs
    rw [hpath] at hnodup
    have hthere : ((keeping σ slug.val (chapterPath slug.val name ::
        entries.map ConceptEntry.path)).catalog slug.val name).isSome = true := by
      simp only [keeping, List.mem_cons_self, not_true_eq_false, and_false, if_false]
      exact hc
    obtain ⟨c, hcat⟩ := Option.isSome_iff_exists.mp hthere
    have hfiled := hs.concepts slug.val name c hcat
    obtain ⟨now, markdown, -, -, hfile⟩ := hfiled.file
    apply callEnds_step rfl
    intro ch _
    simp only [pointStep, hpath, Call.begin, hfiled.ordinary.1, Bool.false_eq_true, if_false]
    apply callEnds_deleteOne (Holds cx (keeping σ slug.val (entries.map ConceptEntry.path)))
    · apply ends_deleteRead (validPath_chapterPath _ _) hfiled.ordinary.1 hfile hs.valid
      intro s' hremoved
      rw [← keeping_cons hslug hnodup.1]
      exact holds_regenerated (holds_removed hs hthere hremoved) _
    · intro t ht
      exact ih ht (fun d hd => hentries d (List.mem_cons_of_mem e hd)) hnodup.2

/-- **One deletion.** -/
theorem ends_deleteBook (htables : Lowercasing tables) {slug : Slug tables}
    (hs : Holds cx σ s) (hclear : Clear σ (.deleteBook slug)) :
    CallEnds cx (Holds cx (σ.after (.deleteBook slug))) s (.listBook slug.val : Point tables) := by
  have hslug := slugShape_of_admitted htables slug.property
  obtain ⟨hentries, hnodup, hkeeping⟩ := entries_of_listPrefix hslug hs
  apply callEnds_step rfl
  intro ch _
  apply ends_deleteEach hslug hclear _ hentries hnodup
  rw [hkeeping]
  exact hs

/-! ## Sequences of calls -/

/-- The shelf after the calls of a run. -/
def shelfAfter (σ : Shelf) : List (Action tables) → Shelf
  | [] => σ
  | .call c :: as => shelfAfter (σ.after c) as
  | .step _ :: as => shelfAfter σ as

/-- Every call of a run is clear on the shelf it finds. -/
def AllClear (σ : Shelf) : List (Action tables) → Prop
  | [] => True
  | .call c :: as => Clear σ c ∧ AllClear (σ.after c) as
  | .step _ :: as => AllClear σ as

def ActionClocked (cx : Codec) : Action tables → Prop
  | .step ch => Clocked cx ch
  | .call _ => True

/-- INTERNAL: a step of the system, whatever it is. -/
theorem ends_action (hcx : Faithful cx) (htables : Lowercasing tables) {t t' : State tables}
    {a : Action tables} (h : CallEnds cx (Holds cx σ) t.store t.point) (ha : ActionClocked cx a)
    (hclear : AllClear σ [a]) (hstep : step cx t a = some t') :
    CallEnds cx (Holds cx (shelfAfter σ [a])) t'.store t'.point := by
  cases a with
  | step ch =>
    cases hstep
    exact h.advance (fun _ c _ hr => advance_of_outcome c hr) ha
  | call c =>
    simp only [step] at hstep
    split at hstep
    · rename_i hreturned
      cases hstep
      have hs := post_of_callEnds h hreturned
      cases c with
      | ingestBook u => exact ends_ingestBook hcx htables hs hclear.1
      | deleteBook slug => exact ends_deleteBook htables hs hclear.1
    · cases hstep

/-- INTERNAL: the call in flight of every state of a run gets to its end. -/
theorem ends_exec (hcx : Faithful cx) (htables : Lowercasing tables) {as : List (Action tables)}
    {t t' : State tables} (h : CallEnds cx (Holds cx σ) t.store t.point)
    (hclock : ∀ a ∈ as, ActionClocked cx a) (hclear : AllClear σ as)
    (hrun : exec (step cx) t as = some t') :
    CallEnds cx (Holds cx (shelfAfter σ as)) t'.store t'.point := by
  induction as generalizing σ t with
  | nil =>
    cases hrun
    exact h
  | cons a as ih =>
    obtain ⟨t₁, hstep, hrest⟩ := exec_cons_eq_some.mp hrun
    have ha := hclock a List.mem_cons_self
    have hrestClock : ∀ b ∈ as, ActionClocked cx b :=
      fun b hb => hclock b (List.mem_cons_of_mem a hb)
    cases a with
    | step ch =>
      have hnext := ends_action hcx htables h ha trivial hstep
      exact ih hnext hrestClock hclear hrest
    | call c =>
      have hnext := ends_action hcx htables h ha ⟨hclear.1, trivial⟩ hstep
      exact ih hnext hrestClock hclear.2 hrest

/-- **Books do not overwrite one another**, where every call is clear. When the calls so far
have returned, every text is the one last ingested and every concept of a catalog is read as
it was written, and a call in flight returns.
SOURCE: ingest.rs:22-132, extract.rs:254-343, concept_store.rs:466-562 -/
theorem books_kept_apart (hcx : Faithful cx) (htables : Lowercasing tables) (scopeId : String)
    {as : List (Action tables)} {t : State tables}
    (hrun : exec (step cx) (State.init tables scopeId) as = some t)
    (hclock : ∀ a ∈ as, ActionClocked cx a) (hclear : AllClear Shelf.empty as) :
    (t.point.isReturned = true → Keeps cx (shelfAfter Shelf.empty as) t.store) ∧
      ∀ choices : ℕ → Choice, (∀ k, Clocked cx (choices k)) →
        ∃ k, let t' := ((List.range k).map choices).foldl (advance cx) t
          t'.point.isReturned = true ∧ Keeps cx (shelfAfter Shelf.empty as) t'.store := by
  have hinit : CallEnds cx (Holds cx Shelf.empty) (State.init tables scopeId).store
      (State.init tables scopeId).point := callEnds_returned (holds_empty cx scopeId)
  have h := ends_exec hcx htables hinit hclock hclear hrun
  refine ⟨fun hreturned => keeps_of_holds hcx (post_of_callEnds h hreturned), ?_⟩
  intro choices hchoices
  obtain ⟨k, o, ho, hpost⟩ := h.exists_result choices hchoices
  exact ⟨k, isReturned_iff.mpr ⟨o, ho⟩, keeps_of_holds hcx hpost⟩

/-- Without a book `library` the texts are apart by themselves. -/
theorem allClear_of_slugs {as : List (Action tables)} (hσ : ∀ name, σ.catalog "library" name = none)
    (hslugs : ∀ u, .call (.ingestBook u) ∈ as → u.slug.val ≠ "library" ∧
      (u.outline.map chapterAnchorId).Nodup) : AllClear σ as := by
  induction as generalizing σ with
  | nil => trivial
  | cons a as ih =>
    have hrest : ∀ u, .call (.ingestBook u) ∈ as → u.slug.val ≠ "library" ∧
        (u.outline.map chapterAnchorId).Nodup :=
      fun u hu => hslugs u (List.mem_cons_of_mem a hu)
    cases a with
    | step ch => exact ih hσ hrest
    | call c =>
      cases c with
      | ingestBook u =>
        obtain ⟨hslug, hanchors⟩ := hslugs u List.mem_cons_self
        refine ⟨fun _ => ⟨⟨hσ _, fun _ => hσ⟩, fun _ => ⟨hanchors, fun h => absurd h hslug⟩⟩, ?_⟩
        apply ih _ hrest
        intro name
        simp only [Shelf.after]
        split
        · exact hσ name
        · split
          · simp only [Shelf.withCatalog, hslug.symm, if_false]
            exact hσ name
          · exact hσ name
      | deleteBook slug =>
        refine ⟨fun _ => hσ _, ?_⟩
        apply ih _ hrest
        intro name
        simp only [Shelf.after, Shelf.withoutText, Shelf.withoutCatalog, hσ name, ite_self]

/-! ## Two books -/

theorem lowercasing_asciiTables : Lowercasing asciiTables := by
  intro c hc d hd
  have hd' : d = c.toLower := List.mem_singleton.mp hd
  subst hd'
  refine ⟨?_, ?_⟩
  · intro hslash
    have hval := toNat_toLower c
    rw [hslash] at hval
    have hc' : c = '/' := by
      apply Char.ext
      apply UInt32.toNat_inj.mp
      show c.toNat = 47
      have h47 : '/'.toNat = 47 := rfl
      rw [h47] at hval
      split at hval <;> omega
    rw [hc'] at hc
    revert hc
    decide
  · apply Char.ext
    apply UInt32.toNat_inj.mp
    show c.toLower.toLower.toNat = c.toLower.toNat
    have hinner := toNat_toLower c
    rw [toNat_toLower c.toLower, if_neg]
    split at hinner <;> omega

def slugLibrary : Slug asciiTables := ⟨"library", by decide, "library".toList, by decide⟩

def slugBook : Slug asciiTables := ⟨"book", by decide, "book".toList, by decide⟩

/-- A book of one chapter. -/
def upload (slug : Slug asciiTables) : Upload asciiTables where
  slug := slug
  text := "# A\n"
  catalog := { slug := slug.val, title := "A", description := "", chapterSummaries := [] }
  catalog_slug := rfl

/-- A call that runs to its end. -/
def wholeCall (c : LibraryCall asciiTables) : List (Action asciiTables) :=
  .call c :: List.replicate 40 (.step noteChoice)

theorem wholeCall_clocked (c : LibraryCall asciiTables) :
    ∀ a ∈ wholeCall c, ActionClocked noteCodec a := by
  intro a ha
  rcases List.mem_cons.mp ha with rfl | ha
  · trivial
  · rw [List.eq_of_mem_replicate ha]
    exact noteChoice_clocked

/-- The text of `book` is deleted before the book `library` comes. -/
def inTurn : List (Action asciiTables) :=
  wholeCall (.ingestBook (upload slugBook)) ++ wholeCall (.deleteBook slugBook) ++
    wholeCall (.ingestBook (upload slugLibrary))

theorem inTurn_clear : AllClear Shelf.empty inTurn := by
  have hanchors : ((upload slugBook).outline.map chapterAnchorId).Nodup := by decide
  refine ⟨fun _ => ⟨⟨rfl, fun _ _ => rfl⟩, fun _ => ⟨hanchors, ?_⟩⟩, fun _ => rfl, fun _ =>
    ⟨⟨rfl, fun _ _ => rfl⟩, fun _ => ⟨hanchors, fun _ => ⟨rfl, rfl, ?_⟩⟩⟩, trivial⟩
  · intro h
    exact absurd h (by decide)
  · decide

set_option maxRecDepth 8000 in
theorem books_kept_apart_inTurn :
    ∃ t, exec (step noteCodec) (State.init asciiTables "global:library") inTurn = some t ∧
      Keeps noteCodec (shelfAfter Shelf.empty inTurn) t.store := by
  obtain ⟨t, hrun, hreturned⟩ := Option.map_eq_some_iff.mp
    (show ((exec (step noteCodec) (State.init asciiTables "global:library") inTurn).map
      fun t => t.point.isReturned) = some true by decide +kernel)
  refine ⟨t, hrun, ?_⟩
  have hclock : ∀ a ∈ inTurn, ActionClocked noteCodec a := by
    intro a ha
    rcases List.mem_append.mp ha with ha | ha
    · rcases List.mem_append.mp ha with ha | ha
      · exact wholeCall_clocked _ a ha
      · exact wholeCall_clocked _ a ha
    · exact wholeCall_clocked _ a ha
  exact (books_kept_apart faithful_noteCodec lowercasing_asciiTables "global:library" hrun hclock
    inTurn_clear).1 hreturned

/-- The book `library` first: the text of `book` is written over its hub. -/
def together : List (Action asciiTables) :=
  wholeCall (.ingestBook (upload slugLibrary)) ++ wholeCall (.ingestBook (upload slugBook))

set_option maxRecDepth 8000 in
theorem text_over_library_hub :
    ¬ ∀ (cx : Codec) (tables : CharTables) (scopeId : String) (as : List (Action tables))
      (t : State tables), Faithful cx → Lowercasing tables →
      exec (step cx) (State.init tables scopeId) as = some t →
      (∀ a ∈ as, ActionClocked cx a) → t.point.isReturned = true →
      Keeps cx (shelfAfter Shelf.empty as) t.store := by
  intro hall
  obtain ⟨t, hrun, hend⟩ := Option.map_eq_some_iff.mp
    (show ((exec (step noteCodec) (State.init asciiTables "global:library") together).map
      fun t => (t.point.isReturned, t.store.files "/library/book.md")) =
        some (true, some "# A\n") by decide)
  obtain ⟨hreturned, hfile⟩ := Prod.mk.inj hend
  have hclock : ∀ a ∈ together, ActionClocked noteCodec a := by
    intro a ha
    rcases List.mem_append.mp ha with ha | ha
    · exact wholeCall_clocked _ a ha
    · exact wholeCall_clocked _ a ha
  have hkeeps := hall noteCodec asciiTables "global:library" together t faithful_noteCodec
    lowercasing_asciiTables hrun hclock hreturned
  obtain ⟨hub, hhub, hpath⟩ := Option.map_eq_some_iff.mp
    (show ((shelfAfter Shelf.empty together).catalog "library" "book").map Concept.sourcePath =
      some "/library/book.md" by decide)
  obtain ⟨c, hget, -⟩ := hkeeps.concepts "library" "book" hub hhub
  rw [hpath] at hget
  have hparse : Concept.parse noteCodec "/library/book.md" "# A\n" = .error .missingFrontmatter := rfl
  unfold Store.get at hget
  rw [read_valid (by decide), hfile] at hget
  simp only [hparse] at hget
  cases hget

end Mycelium.Analysis.BookIsolation
