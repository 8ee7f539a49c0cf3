import Mycelium.Analysis.LibraryPaths
import Mycelium.Analysis.RestoreReversal

/-!
# The shelf

The library as its readers see it: for each book a text, and for each book and name a concept
of its catalog. A call changes it as `Shelf.after` says.

1. *What a call may do.* `Clear` says that a call gives no file to two books: the texts are
   the files of the book `library`, so its hub, its chapters and its generated index meet the
   texts of the slugs `book`, `index` and those of its anchors.
2. *The files.* `Holds` relates a store to the shelf, and each storage step of a call keeps
   it for the shelf with the step's own change (`holds_withText`, `holds_withCatalog`,
   `holds_regenerated`, `holds_removed`, `holds_withoutText`).
3. *The readers.* A store that holds the shelf gives back its texts and its concepts
   (`keeps_of_holds`).
-/

set_option autoImplicit false

namespace Mycelium.Analysis.LibraryShelf

open Mycelium.Model.Text Mycelium.Model.Outline Mycelium.Model.Concepts
open Mycelium.Model.ConceptStore Mycelium.Model.Catalog Mycelium.Model.BookLibrary
open Mycelium.Analysis.ConceptRoundTrip Mycelium.Analysis.CallCompletion
open Mycelium.Analysis.RestoreReversal Mycelium.Analysis.LibraryPaths

/-! ## The shelf and the calls -/

structure Shelf where
  text : String → Option String
  catalog : String → String → Option Concept

def Shelf.empty : Shelf where
  text := fun _ => none
  catalog := fun _ _ => none

def Shelf.withText (σ : Shelf) (slug text : String) : Shelf :=
  { σ with text := fun s => if s = slug then some text else σ.text s }

def Shelf.withoutText (σ : Shelf) (slug : String) : Shelf :=
  { σ with text := fun s => if s = slug then none else σ.text s }

/-- The new catalog of a book over its old one. -/
def Shelf.withCatalog (σ : Shelf) (slug : String) (cs : List (String × Concept)) : Shelf :=
  { σ with
    catalog := fun s name =>
      if s = slug then (cs.lookup name).or (σ.catalog s name) else σ.catalog s name }

def Shelf.withoutCatalog (σ : Shelf) (slug : String) : Shelf :=
  { σ with catalog := fun s name => if s = slug then none else σ.catalog s name }

section Calls

variable {tables : CharTables}

/-- The catalog of an upload, each concept under its name. -/
def named (u : Upload tables) : List (String × Concept) :=
  ("book", buildHubConcept u.catalog u.outline) ::
    u.outline.map fun ch => (anchorText ch, buildChapterConcept tables u.catalog ch)

def Blank (u : Upload tables) : Prop := trim u.text.toList = []

/-- The catalog of the upload is written: there are chapters, and no concept is at a path
that a put refuses. -/
def Accepted (u : Upload tables) : Prop :=
  u.outline ≠ [] ∧ ∀ c ∈ u.concepts, isQueuePath c.sourcePath = false ∧
    isReserved c.sourcePath = false

instance (u : Upload tables) : Decidable (Blank u) := inferInstanceAs (Decidable (_ = _))

instance (u : Upload tables) : Decidable (Accepted u) := inferInstanceAs (Decidable (_ ∧ _))

/-- What a call does to the shelf. -/
def Shelf.after (σ : Shelf) : LibraryCall tables → Shelf
  | .ingestBook u =>
    if Blank u then σ
    else if Accepted u then (σ.withText u.slug.val u.text).withCatalog u.slug.val (named u)
    else σ.withText u.slug.val u.text
  | .deleteBook slug => (σ.withoutCatalog slug.val).withoutText slug.val

/-- The file of the slug's text belongs to no catalog of the book `library`. -/
def FreeFor (σ : Shelf) (slug : String) : Prop :=
  σ.catalog "library" slug = none ∧ (slug = "index" → ∀ name, σ.catalog "library" name = none)

/-- The call gives no file to two books and to two chapters. -/
def Clear (σ : Shelf) : LibraryCall tables → Prop
  | .ingestBook u => ¬ Blank u → FreeFor σ u.slug.val ∧ (Accepted u →
      (u.outline.map chapterAnchorId).Nodup ∧ (u.slug.val = "library" →
        σ.text "book" = none ∧ σ.text "index" = none ∧
          ∀ ch ∈ u.outline, σ.text (anchorText ch) = none))
  | .deleteBook slug => slug.val ≠ "library" → σ.catalog "library" slug.val = none

end Calls

/-! ## The files of the shelf -/

/-- The concept is written at its path as a put writes it. -/
structure Filed (cx : Codec) (s : Store) (path : String) (c : Concept) : Prop where
  place : c.sourcePath = path
  ordinary : isQueuePath path = false ∧ isReserved path = false
  typed : (trim c.frontmatter.conceptType.toList).isEmpty = false
  file : ∃ now markdown, cx.isRfc3339 now = true ∧
    (stampedConcept ingestHandle now c).toMarkdown cx = .ok markdown ∧ s.files path = some markdown

structure Holds (cx : Codec) (σ : Shelf) (s : Store) : Prop where
  slugs : ∀ slug, (σ.text slug).isSome = true → SlugShape slug
  texts : ∀ slug text, σ.text slug = some text → s.files (stackPathFor slug) = some text
  shapes : ∀ slug name, (σ.catalog slug name).isSome = true → SlugShape slug
  concepts : ∀ slug name c, σ.catalog slug name = some c → Filed cx s (chapterPath slug name) c
  registered : ∀ q, s.registered q = true ↔
    ∃ slug name, q = chapterPath slug name ∧ (σ.catalog slug name).isSome = true
  distinct : (s.registry.map ConceptEntry.path).Nodup
  apart : ∀ slug, (σ.text slug).isSome = true → FreeFor σ slug

/-- The shelf without one concept of a book. -/
def Shelf.withoutConcept (σ : Shelf) (slug name : String) : Shelf :=
  { σ with catalog := fun s n => if s = slug ∧ n = name then none else σ.catalog s n }

/-- What the readers find. -/
structure Keeps (cx : Codec) (σ : Shelf) (s : Store) : Prop where
  texts : ∀ slug text, σ.text slug = some text → readStackText s slug = .ok text
  concepts : ∀ slug name c, σ.catalog slug name = some c →
    ∃ c', s.get cx c.sourcePath = .ok c' ∧ SameButStamps c c'

variable {cx : Codec} {σ : Shelf} {s s' : Store}

theorem holds_empty (cx : Codec) (scopeId : String) : Holds cx Shelf.empty (Store.empty scopeId) where
  slugs := by simp [Shelf.empty]
  texts := by simp [Shelf.empty]
  shapes := by simp [Shelf.empty]
  concepts := by simp [Shelf.empty]
  registered := by simp [Shelf.empty, Store.empty, Store.registered]
  distinct := by simp [Store.empty]
  apart := by simp [Shelf.empty]

theorem readStackText_of_file {slug text : String} (h : s.files (stackPathFor slug) = some text) :
    readStackText s slug = .ok text := by
  have hpath : validPath (stackPathFor slug) = true := by
    rw [stackPathFor_eq]
    exact validPath_chapterPath _ _
  simp only [readStackText, read_valid hpath, h]

/-- INTERNAL: a filed concept is read back. -/
theorem get_of_filed (hcx : Faithful cx) {slug name : String} {c : Concept}
    (h : Filed cx s (chapterPath slug name) c) :
    ∃ c', s.get cx c.sourcePath = .ok c' ∧ SameButStamps c c' := by
  obtain ⟨now, markdown, hnow, hmarkdown, hfile⟩ := h.file
  have hstamped : Stamped cx (stampedConcept ingestHandle now c).frontmatter := ⟨now, rfl, hnow⟩
  have hparse := parse_toMarkdown hcx hstamped hmarkdown
  have htyped : (trim (stampedConcept ingestHandle now c).frontmatter.conceptType.toList).isEmpty =
      false := h.typed
  rw [htyped] at hparse
  refine ⟨readBack (stampedConcept ingestHandle now c), ?_, _, _, rfl⟩
  have hpath : (stampedConcept ingestHandle now c).sourcePath = c.sourcePath := rfl
  rw [hpath] at hparse
  unfold Store.get
  rw [h.place] at hparse ⊢
  rw [read_valid (validPath_chapterPath slug name), hfile]
  simp only [hparse]
  rfl

/-- **A store that holds the shelf gives it back.** -/
theorem keeps_of_holds (hcx : Faithful cx) (h : Holds cx σ s) : Keeps cx σ s :=
  ⟨fun slug text ht => readStackText_of_file (h.texts slug text ht),
    fun slug name c hc => get_of_filed hcx (h.concepts slug name c hc)⟩

/-- INTERNAL: the file of the concept is as it was. -/
theorem Filed.frame {path : String} {c : Concept} (h : Filed cx s path c)
    (hfile : s'.files path = s.files path) : Filed cx s' path c := by
  refine ⟨h.place, h.ordinary, h.typed, ?_⟩
  rw [hfile]
  exact h.file

theorem registered_of_mem {e : ConceptEntry} (he : e ∈ s.registry) :
    s.registered e.path = true := registered_iff.mpr ⟨e, he, rfl⟩

theorem Holds.valid (h : Holds cx σ s) : ∀ e ∈ s.registry, validPath e.path = true := by
  intro e he
  obtain ⟨slug, name, hpath, -⟩ := (h.registered e.path).mp (registered_of_mem he)
  rw [hpath]
  exact validPath_chapterPath slug name

/-! ## The steps of a call -/

theorem stackPathFor_inj {s t : String} (h : stackPathFor s = stackPathFor t) : s = t := by
  rw [stackPathFor_eq, stackPathFor_eq] at h
  exact (chapterPath_inj slugShape_library slugShape_library h).2

/-- INTERNAL: no concept of the shelf is in the file of a text that is free for it. -/
theorem Holds.path_ne (h : Holds cx σ s) {slug t name : String} (hfree : FreeFor σ slug)
    (hc : (σ.catalog t name).isSome = true) : chapterPath t name ≠ stackPathFor slug := by
  intro heq
  rw [stackPathFor_eq] at heq
  obtain ⟨rfl, rfl⟩ := chapterPath_inj (h.shapes t name hc) slugShape_library heq
  rw [hfree.1] at hc
  cases hc

/-- The text of a book is written. -/
theorem holds_withText (h : Holds cx σ s) {slug text : String} (hslug : SlugShape slug)
    (hfree : FreeFor σ slug) :
    Holds cx (σ.withText slug text) (written s (stackPathFor slug) text) where
  slugs t ht := by
    by_cases heq : t = slug
    · rw [heq]
      exact hslug
    · simp only [Shelf.withText, heq, if_false] at ht
      exact h.slugs t ht
  texts t x hx := by
    simp only [Shelf.withText] at hx
    simp only [written]
    by_cases heq : t = slug
    · rw [if_pos heq] at hx
      rw [heq, if_pos rfl, hx]
    · rw [if_neg heq] at hx
      rw [if_neg fun hpath => heq (stackPathFor_inj hpath)]
      exact h.texts t x hx
  shapes := h.shapes
  concepts t name c hc := by
    apply (h.concepts t name c hc).frame
    exact if_neg (h.path_ne hfree (Option.isSome_of_mem hc))
  registered := h.registered
  distinct := h.distinct
  apart t ht := by
    by_cases heq : t = slug
    · rw [heq]
      exact hfree
    · simp only [Shelf.withText, heq, if_false] at ht
      exact h.apart t ht

/-- The text of a book is deleted. -/
theorem holds_withoutText (h : Holds cx σ s) {slug : String}
    (hfree : σ.catalog "library" slug = none) :
    Holds cx (σ.withoutText slug) (s.deleteFile (stackPathFor slug)) where
  slugs t ht := by
    simp only [Shelf.withoutText] at ht
    split at ht
    · cases ht
    · exact h.slugs t ht
  texts t x hx := by
    simp only [Shelf.withoutText] at hx
    split at hx
    · cases hx
    · rename_i hne
      have hpath : stackPathFor t ≠ stackPathFor slug := fun heq => hne (stackPathFor_inj heq)
      rw [Store.deleteFile]
      simp only [hpath, if_false]
      exact h.texts t x hx
  shapes := h.shapes
  concepts t name c hc := by
    have hsame : σ.catalog t name = some c := hc
    apply (h.concepts t name c hc).frame
    apply if_neg
    intro heq
    rw [stackPathFor_eq] at heq
    obtain ⟨rfl, rfl⟩ := chapterPath_inj (h.shapes t name (Option.isSome_of_mem hc))
      slugShape_library heq
    rw [hfree] at hsame
    cases hsame
  registered := h.registered
  distinct := h.distinct
  apart t ht := by
    simp only [Shelf.withoutText] at ht
    split at ht
    · cases ht
    · exact h.apart t ht

/-- The indexes are generated again. -/
theorem holds_regenerated (h : Holds cx σ s) (deleted : Option String) :
    Holds cx σ (regenerated s deleted) where
  slugs := h.slugs
  texts t x hx := by
    have hsome := Option.isSome_of_mem hx
    rw [← h.texts t x hx]
    rcases files_regenerated s deleted (stackPathFor t) with hsame | ⟨content, hmem, -⟩
    · exact hsame
    · -- then the text is that of `index` and the book `library` has a concept
      obtain ⟨hindex, e, he, hdir⟩ := stackPath_of_indexFile (h.slugs t hsome) hmem
      obtain ⟨slug, name, hpath, hc⟩ := (h.registered e.path).mp
        (registered_of_mem (mem_list.mp he))
      have hlibrary := slug_of_dirOf (h.shapes slug name hc) hpath hdir
      rw [hlibrary, (h.apart t hsome).2 hindex name] at hc
      cases hc
  shapes := h.shapes
  concepts t name c hc := by
    have hfiled := h.concepts t name c hc
    apply hfiled.frame
    exact files_regenerated_of_ordinary s deleted hfiled.ordinary.2
  registered q := by
    rw [← h.registered q]
    unfold Store.registered
    rw [(regenerated_fields s deleted).1]
  distinct := by
    rw [(regenerated_fields s deleted).1]
    exact h.distinct
  apart := h.apart

/-- INTERNAL: what is left of a catalog was there. -/
theorem catalog_of_withoutConcept {slug name t n : String} {c : Concept}
    (h : (σ.withoutConcept slug name).catalog t n = some c) :
    ¬ (t = slug ∧ n = name) ∧ σ.catalog t n = some c := by
  simp only [Shelf.withoutConcept] at h
  split at h
  · cases h
  · rename_i hne
    exact ⟨hne, h⟩

theorem freeFor_withoutConcept {slug : String} (h : FreeFor σ slug) (t name : String) :
    FreeFor (σ.withoutConcept t name) slug := by
  refine ⟨?_, ?_⟩
  · simp only [Shelf.withoutConcept, h.1, ite_self]
  · intro hindex n
    simp only [Shelf.withoutConcept, h.2 hindex n, ite_self]

/-- One concept of a catalog is deleted. -/
theorem holds_removed (h : Holds cx σ s) {slug name : String}
    (hc : (σ.catalog slug name).isSome = true) (hremoved : Removed s (chapterPath slug name) s') :
    Holds cx (σ.withoutConcept slug name) s' where
  slugs := h.slugs
  texts t x hx := by
    have hne : stackPathFor t ≠ chapterPath slug name :=
      (h.path_ne (h.apart t (Option.isSome_of_mem hx)) hc).symm
    rw [hremoved.files]
    simp only [hne, if_false]
    exact h.texts t x hx
  shapes t n hn := by
    obtain ⟨c, hcat⟩ := Option.isSome_iff_exists.mp hn
    exact h.shapes t n (Option.isSome_of_mem (catalog_of_withoutConcept hcat).2)
  concepts t n c hcat := by
    obtain ⟨hne, hold⟩ := catalog_of_withoutConcept hcat
    apply (h.concepts t n c hold).frame
    rw [hremoved.files]
    apply if_neg
    intro heq
    exact hne (chapterPath_inj (h.shapes t n (Option.isSome_of_mem hold)) (h.shapes slug name hc) heq)
  registered q := by
    have hregistered : s'.registered q = (s.registered q && q ≠ chapterPath slug name) := by
      rw [← registered_unregister]
      unfold Store.registered
      rw [hremoved.registry]
    rw [hregistered, Bool.and_eq_true, h.registered q, decide_eq_true_eq]
    constructor
    · rintro ⟨⟨t, n, rfl, hn⟩, hne⟩
      refine ⟨t, n, rfl, ?_⟩
      have hkeep : ¬ (t = slug ∧ n = name) := by
        rintro ⟨rfl, rfl⟩
        exact hne rfl
      simp only [Shelf.withoutConcept, hkeep, if_false]
      exact hn
    · rintro ⟨t, n, rfl, hn⟩
      obtain ⟨c, hcat⟩ := Option.isSome_iff_exists.mp hn
      obtain ⟨hne, hold⟩ := catalog_of_withoutConcept hcat
      have hn' := Option.isSome_of_mem hold
      exact ⟨⟨t, n, rfl, hn'⟩, fun heq =>
        hne (chapterPath_inj (h.shapes t n hn') (h.shapes slug name hc) heq)⟩
  distinct := by
    rw [hremoved.registry]
    exact h.distinct.sublist (List.filter_sublist.map _)
  apart t ht := freeFor_withoutConcept (h.apart t ht) slug name

/-! ## A new catalog -/

section Catalog

variable {tables : CharTables} {u : Upload tables}

/-- INTERNAL: a named concept is at the path of its name. -/
theorem mem_named {name : String} {c : Concept} (h : (name, c) ∈ named u) :
    c ∈ u.concepts ∧ c.sourcePath = chapterPath u.slug.val name ∧
      (trim c.frontmatter.conceptType.toList).isEmpty = false := by
  rcases List.mem_cons.mp h with heq | hmem
  · obtain ⟨rfl, rfl⟩ := Prod.mk.inj heq
    refine ⟨List.mem_cons_self, ?_, ?_⟩
    · rw [← hubPath_eq, ← u.catalog_slug]
      rfl
    · show (trim "Book".toList).isEmpty = false
      decide
  · obtain ⟨ch, hch, heq⟩ := List.mem_map.mp hmem
    obtain ⟨rfl, rfl⟩ := Prod.mk.inj heq
    refine ⟨List.mem_cons_of_mem _ (List.mem_map_of_mem hch), ?_, ?_⟩
    · rw [← u.catalog_slug]
      rfl
    · show (trim "Chapter".toList).isEmpty = false
      decide

theorem concepts_eq (u : Upload tables) : u.concepts = (named u).map Prod.snd := by
  show _ :: _ = _ :: List.map Prod.snd (List.map _ _)
  rw [List.map_map]
  rfl

theorem concepts_ne_nil (u : Upload tables) : u.concepts ≠ [] := List.cons_ne_nil _ _

theorem exists_named {c : Concept} (h : c ∈ u.concepts) : ∃ name, (name, c) ∈ named u := by
  rw [concepts_eq] at h
  obtain ⟨⟨name, c'⟩, hmem, rfl⟩ := List.mem_map.mp h
  exact ⟨name, hmem⟩

/-- The names of a catalog are different when its anchors are. -/
theorem nodup_names (h : (u.outline.map chapterAnchorId).Nodup) :
    ((named u).map Prod.fst).Nodup := by
  have hanchors : ((named u).map Prod.fst) = "book" :: u.outline.map anchorText := by
    show _ :: List.map Prod.fst (List.map _ _) = _
    rw [List.map_map]
    rfl
  rw [hanchors, List.nodup_cons]
  refine ⟨?_, ?_⟩
  · intro hbook
    obtain ⟨ch, hch, heq⟩ := List.mem_map.mp hbook
    obtain ⟨rest, hstarts⟩ := anchorText_starts hch
    rw [heq] at hstarts
    exact absurd (List.cons.inj hstarts).1 (by decide)
  · have hmap : u.outline.map anchorText = (u.outline.map chapterAnchorId).map String.ofList := by
      rw [List.map_map]
      rfl
    rw [hmap]
    exact h.map fun _ _ heq => String.ofList_injective heq

/-- No concept of a catalog has the name `library`. -/
theorem name_ne_library {name : String} {c : Concept} (h : (name, c) ∈ named u) :
    name ≠ "library" := by
  rcases List.mem_cons.mp h with heq | hmem
  · rw [(Prod.mk.inj heq).1]
    decide
  · obtain ⟨ch, hch, heq⟩ := List.mem_map.mp hmem
    obtain ⟨rest, hstarts⟩ := anchorText_starts hch
    rw [← (Prod.mk.inj heq).1]
    intro hname
    rw [hname] at hstarts
    exact absurd (List.cons.inj hstarts).1 (by decide)

/-- The batch that a put makes of some concepts. -/
structure StampedBatch (cx : Codec) (cs cs' : List Concept) : Prop where
  origin : ∀ c' ∈ cs', ∃ c ∈ cs, ∃ now, cx.isRfc3339 now = true ∧
    c' = stampedConcept ingestHandle now c
  image : ∀ c ∈ cs, ∃ now, cx.isRfc3339 now = true ∧ stampedConcept ingestHandle now c ∈ cs'
  paths : cs'.map Concept.sourcePath = cs.map Concept.sourcePath

/-- INTERNAL: a concept of the new catalog is one of the batch or of the old catalog. -/
theorem catalog_withCatalog {slug t name : String} {cs : List (String × Concept)} {c : Concept}
    (h : (σ.withCatalog slug cs).catalog t name = some c) :
    (t = slug ∧ (name, c) ∈ cs) ∨
      (σ.catalog t name = some c ∧ (t = slug → ∀ p ∈ cs, p.1 ≠ name)) := by
  simp only [Shelf.withCatalog] at h
  split at h
  · rename_i heq
    cases hlookup : cs.lookup name with
    | some d =>
      rw [hlookup] at h
      cases h
      obtain ⟨before, after, hsplit, -⟩ := List.lookup_eq_some_iff.mp hlookup
      left
      refine ⟨heq, ?_⟩
      rw [hsplit]
      exact List.mem_append_right before List.mem_cons_self
    | none =>
      rw [hlookup, Option.none_or] at h
      right
      refine ⟨h, fun _ p hp hname => ?_⟩
      have hne := List.lookup_eq_none_iff.mp hlookup p hp
      rw [hname] at hne
      simp at hne
  · rename_i hne
    exact .inr ⟨h, fun heq => absurd heq hne⟩

/-- INTERNAL: the names of the new catalog are those of the batch and of the old one. -/
theorem isSome_withCatalog (slug t name : String) (cs : List (String × Concept)) :
    ((σ.withCatalog slug cs).catalog t name).isSome = true ↔
      (σ.catalog t name).isSome = true ∨ t = slug ∧ ∃ c, (name, c) ∈ cs := by
  simp only [Shelf.withCatalog]
  by_cases heq : t = slug
  · rw [if_pos heq, Option.isSome_or, Bool.or_eq_true, List.lookup_isSome_iff]
    constructor
    · rintro (⟨⟨n, c⟩, hp, hname⟩ | hold)
      · have hn : name = n := by simpa using hname
        exact .inr ⟨heq, c, hn ▸ hp⟩
      · exact .inl hold
    · rintro (hold | ⟨-, c, hp⟩)
      · exact .inr hold
      · exact .inl ⟨(name, c), hp, by simp⟩
  · rw [if_neg heq]
    constructor
    · exact .inl
    · rintro (hold | ⟨hslug, -⟩)
      · exact hold
      · exact absurd hslug heq

/-- INTERNAL: the paths of a batch are those of the names. -/
theorem exists_name_of_batch {cs' : List Concept} (hbatch : StampedBatch cx u.concepts cs')
    {c' : Concept} (h : c' ∈ cs') :
    ∃ name c, (name, c) ∈ named u ∧ c'.sourcePath = chapterPath u.slug.val name := by
  obtain ⟨c, hc, now, -, rfl⟩ := hbatch.origin c' h
  obtain ⟨name, hname⟩ := exists_named hc
  exact ⟨name, c, hname, (mem_named hname).2.1⟩

/-- INTERNAL: every name of the catalog has its path in the batch. -/
theorem exists_path_of_named {cs' : List Concept} (hbatch : StampedBatch cx u.concepts cs')
    {name : String} {c : Concept} (h : (name, c) ∈ named u) :
    ∃ c' ∈ cs', c'.sourcePath = chapterPath u.slug.val name := by
  obtain ⟨hc, hpath, -⟩ := mem_named h
  obtain ⟨now, -, himage⟩ := hbatch.image c hc
  exact ⟨_, himage, hpath⟩

/-- INTERNAL: a concept of the new catalog is filed. -/
theorem filed_of_named {cs' : List Concept} (hbatch : StampedBatch cx u.concepts cs')
    (haccepted : Accepted u) (hput : PutAll cx s cs' s') {name : String} {c : Concept}
    (h : (name, c) ∈ named u) : Filed cx s' (chapterPath u.slug.val name) c := by
  obtain ⟨hc, hpath, htyped⟩ := mem_named h
  obtain ⟨now, hnow, himage⟩ := hbatch.image c hc
  obtain ⟨markdown, hmarkdown, hfile⟩ := hput.written _ himage
  have hordinary := haccepted.2 c hc
  rw [hpath] at hordinary
  refine ⟨hpath, hordinary, htyped, now, markdown, hnow, hmarkdown, ?_⟩
  rw [← hfile, ← hpath]
  rfl

/-- The catalog of a book is written. -/
theorem holds_withCatalog (h : Holds cx σ s) {cs' : List Concept}
    (hslug : SlugShape u.slug.val) (haccepted : Accepted u)
    (hbatch : StampedBatch cx u.concepts cs') (hput : PutAll cx s cs' s')
    (hfree : u.slug.val = "library" → σ.text "index" = none ∧
      ∀ name c, (name, c) ∈ named u → σ.text name = none) :
    Holds cx (σ.withCatalog u.slug.val (named u)) s' where
  slugs := h.slugs
  texts t x hx := by
    rw [hput.files, h.texts t x hx]
    intro c' hc' heq
    obtain ⟨name, c, hname, hpath⟩ := exists_name_of_batch hbatch hc'
    rw [hpath, stackPathFor_eq] at heq
    obtain ⟨hlibrary, rfl⟩ := chapterPath_inj hslug slugShape_library heq
    have hnone := (hfree hlibrary).2 name c hname
    have hsome : σ.text name = some x := hx
    rw [hnone] at hsome
    cases hsome
  shapes t name hn := by
    rcases (isSome_withCatalog _ _ _ _).mp hn with hold | ⟨rfl, -⟩
    · exact h.shapes t name hold
    · exact hslug
  concepts t name c hc := by
    rcases catalog_withCatalog hc with ⟨rfl, hname⟩ | ⟨hold, hnew⟩
    · exact filed_of_named hbatch haccepted hput hname
    · apply (h.concepts t name c hold).frame
      apply hput.files
      intro c' hc' heq
      obtain ⟨n, d, hn, hpath⟩ := exists_name_of_batch hbatch hc'
      rw [hpath] at heq
      obtain ⟨rfl, rfl⟩ := chapterPath_inj hslug (h.shapes t name (Option.isSome_of_mem hold)) heq
      exact hnew rfl (n, d) hn rfl
  registered q := by
    rw [hput.registered q, h.registered q]
    constructor
    · rintro (⟨t, name, rfl, hn⟩ | ⟨c', hc', rfl⟩)
      · exact ⟨t, name, rfl, (isSome_withCatalog _ _ _ _).mpr (.inl hn)⟩
      · obtain ⟨name, c, hname, hpath⟩ := exists_name_of_batch hbatch hc'
        exact ⟨_, name, hpath, (isSome_withCatalog _ _ _ _).mpr (.inr ⟨rfl, c, hname⟩)⟩
    · rintro ⟨t, name, rfl, hn⟩
      rcases (isSome_withCatalog _ _ _ _).mp hn with hold | ⟨rfl, c, hname⟩
      · exact .inl ⟨t, name, rfl, hold⟩
      · exact .inr (exists_path_of_named hbatch hname)
  distinct := hput.distinct h.distinct
  apart t ht := by
    have hold := h.apart t ht
    have hnone {name : String} (hcat : σ.catalog "library" name = none)
        (hnames : u.slug.val = "library" → ∀ c, (name, c) ∉ named u) :
        (σ.withCatalog u.slug.val (named u)).catalog "library" name = none := by
      rw [← Option.not_isSome_iff_eq_none, isSome_withCatalog]
      rintro (hsome | ⟨hlibrary, c, hname⟩)
      · rw [hcat] at hsome
        cases hsome
      · exact hnames hlibrary.symm c hname
    have hsome : (σ.text t).isSome = true := ht
    refine ⟨hnone hold.1 ?_, ?_⟩
    · intro hlibrary c hname
      rw [(hfree hlibrary).2 t c hname] at hsome
      cases hsome
    · rintro rfl name
      apply hnone (hold.2 rfl name)
      intro hlibrary
      rw [(hfree hlibrary).1] at hsome
      cases hsome

end Catalog

end Mycelium.Analysis.LibraryShelf
