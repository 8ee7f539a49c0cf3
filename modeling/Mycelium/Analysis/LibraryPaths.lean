import Mycelium.Analysis.CallCompletion
import Mycelium.Analysis.CatalogEntries
import Mycelium.Model.BookLibrary

/-!
# Which files of the library are whose

Every file of the shared library that an ingest writes is named by a slug and a name below
it, and no two books share one, but for the book `library`: the stack texts of all books are
in its directory.

1. *Slugs.* A slug has no slash and no capital of ASCII (`slugShape_of_admitted`).
2. *Names.* A path determines its slug and its name (`chapterPath_inj`), hubs and stack texts
   have such paths too (`hubPath_eq`, `stackPathFor_eq`), and a chapter's name starts with
   `ch-` (`anchorText_starts`).
3. *Listings.* The listing of a prefix has the paths that begin with it up to the case of
   ASCII letters (`mem_listPrefix`), for a book its own ones only (`likePrefix_iff`).
4. *Indexes.* A generated index is a stack text's file for the slug `index` only, when the
   book `library` has a catalog (`stackPath_of_indexFile`).
-/

set_option autoImplicit false

namespace Mycelium.Analysis.LibraryPaths

open Mycelium.Model.Text Mycelium.Model.Outline Mycelium.Model.Concepts
open Mycelium.Model.ConceptStore Mycelium.Model.Catalog Mycelium.Model.BookLibrary
open Mycelium.Analysis.CallCompletion Mycelium.Analysis.BookLines
open Mycelium.Analysis.CatalogEntries

/-! ## Slugs -/

/-- What `char::to_lowercase` gives for a letter or a digit: no slash, and no capital of
ASCII. -/
def Lowercasing (tables : CharTables) : Prop :=
  ∀ c, tables.isAlphanumeric c = true → ∀ d ∈ tables.toLowercase c, d ≠ '/' ∧ d.toLower = d

structure SlugShape (slug : String) : Prop where
  noSlash : '/' ∉ slug.toList
  lower : ∀ c ∈ slug.toList, c.toLower = c

/-- The characters of a slug are dashes and what the letters become. -/
theorem forall_mem_slugify {tables : CharTables} {P : Char → Prop} (hdash : P '-')
    (htables : ∀ c, tables.isAlphanumeric c = true → ∀ d ∈ tables.toLowercase c, P d)
    (text : Str) : ∀ d ∈ slugify tables text, P d := by
  have hfold (l : Str) (r : Str × Bool) (hr : ∀ d ∈ r.1, P d) :
      ∀ d ∈ (l.foldl (fun (r : Str × Bool) c =>
        if tables.isAlphanumeric c then (r.1 ++ tables.toLowercase c, false)
        else if !r.2 && r.1 ≠ [] then (r.1 ++ ['-'], true)
        else r) r).1, P d := by
    induction l generalizing r with
    | nil => exact hr
    | cons c l ih =>
      rw [List.foldl_cons]
      apply ih
      intro d hd
      split at hd
      · rename_i hc
        rcases List.mem_append.mp hd with hd | hd
        · exact hr d hd
        · exact htables c hc d hd
      · split at hd
        · rcases List.mem_append.mp hd with hd | hd
          · exact hr d hd
          · rw [List.mem_singleton.mp hd]
            exact hdash
        · exact hr d hd
  intro d hd
  exact hfold text ([], false) (by simp) d ((List.rdropWhile_prefix _ _).subset hd)

theorem mem_slugify {tables : CharTables} (htables : Lowercasing tables) (text : Str) {d : Char}
    (hd : d ∈ slugify tables text) : d ≠ '/' ∧ d.toLower = d :=
  forall_mem_slugify (by decide) htables text d hd

theorem slugShape_of_admitted {tables : CharTables} (htables : Lowercasing tables) {slug : String}
    (h : Admitted tables slug) : SlugShape slug := by
  obtain ⟨-, field, hslug⟩ := h
  have hchars : ∀ d ∈ slug.toList, d ≠ '/' ∧ d.toLower = d := by
    rw [hslug]
    exact fun d hd => mem_slugify htables field hd
  exact ⟨fun h => (hchars '/' h).1 rfl, fun d hd => (hchars d hd).2⟩

theorem slugShape_library : SlugShape "library" := by
  refine ⟨by decide, ?_⟩
  intro d hd
  have hall : "library".toList.all (fun d => d.toLower == d) = true := by decide
  exact eq_of_beq (List.all_eq_true.mp hall d hd)

/-! ## Names -/

theorem toList_chapterPath (slug name : String) : (chapterPath slug name).toList =
    '/' :: (slug.toList ++ '/' :: (name.toList ++ ['.', 'm', 'd'])) := by
  simp [chapterPath, String.toList_append]

theorem chapterPath_inj {s t n m : String} (hs : SlugShape s) (ht : SlugShape t)
    (h : chapterPath s n = chapterPath t m) : s = t ∧ n = m := by
  have hlist := congrArg String.toList h
  rw [toList_chapterPath, toList_chapterPath] at hlist
  obtain ⟨hst, hnm⟩ := slash_split hs.noSlash ht.noSlash (List.cons.inj hlist).2
  exact ⟨String.toList_injective hst, String.toList_injective (List.append_cancel_right hnm)⟩

theorem validPath_chapterPath (slug name : String) : validPath (chapterPath slug name) = true :=
  validPath_iff.mpr ⟨_, toList_chapterPath slug name⟩

theorem hubPath_eq (slug : String) : hubPath slug = chapterPath slug "book" := by
  apply String.toList_injective
  rw [toList_chapterPath]
  simp [hubPath, String.toList_append]

theorem stackPathFor_eq (slug : String) : stackPathFor slug = chapterPath "library" slug := by
  apply String.toList_injective
  rw [toList_chapterPath]
  simp [stackPathFor, String.toList_append]

/-- The anchor of a chapter starts with `ch-`. -/
theorem anchorText_starts {tables : CharTables} {text : Str} {ch : ChapterOutline}
    (h : ch ∈ parseOutline tables text) :
    ∃ rest, (anchorText ch).toList = 'c' :: 'h' :: '-' :: rest := by
  unfold anchorText
  rw [String.toList_ofList]
  by_cases hplain : Plain (bookLines text)
  · rw [parseOutline_plain tables hplain, mem_chaptersFrom] at h
    obtain ⟨pre, ln, post, -, hd, -, -, rfl⟩ := h
    exact ⟨_, rfl⟩
  · rw [parseOutline_named tables hplain, mem_anchoredOutline] at h
    obtain ⟨⟨ch₀, hch₀, heq⟩, -⟩ := mem_assignSections h
    obtain ⟨ln, -, hd, -, hch⟩ := mem_chapters_named.mp hch₀
    obtain ⟨id, n, -, hid, -, rfl⟩ := chapterOf_eq_some.mp hch
    obtain ⟨number, rest, hshape, -⟩ := isChapterId_shape hid
    refine ⟨number ++ '-' :: rest, ?_⟩
    rw [chapterAnchorId_named (show ch.anchorId = some id by rw [heq]), hshape]
    rfl

/-! ## Listings -/

/-- INTERNAL: a slug is as its folded case. -/
theorem map_toLower_slug {slug : String} (h : SlugShape slug) :
    slug.toList.map Char.toLower = slug.toList := by
  conv_rhs => rw [← List.map_id slug.toList]
  exact List.map_congr_left h.lower

/-- The path begins with this, up to the case of ASCII letters. -/
def likePrefix (start path : String) : Bool :=
  (start.toList.map Char.toLower).isPrefixOf (path.toList.map Char.toLower)

/-- INTERNAL: an escaped text reads as its characters. -/
theorem tokens_likeEscape (start : String) :
    SqlLike.tokens '\\' (likeEscape start).toList =
      some (start.toList.map .lit ++ [.anyText]) := by
  unfold likeEscape
  rw [String.toList_ofList]
  induction start.toList with
  | nil => rfl
  | cons c cs ih =>
    rw [List.flatMap_cons, List.append_assoc]
    by_cases hc : c = '%' ∨ c = '_' ∨ c = '\\'
    · rw [if_pos hc, List.cons_append, List.cons_append, List.nil_append, SqlLike.tokens_escaped, ih]
      rfl
    · push Not at hc
      rw [if_neg (by simp [hc]), List.cons_append, List.nil_append,
        SqlLike.tokens_plain hc.2.2 hc.1 hc.2.1, ih]
      rfl

theorem listPrefix_eq (s : Store) (start : String) :
    listPrefix s start = s.list.filter fun e => likePrefix start e.path := by
  unfold listPrefix likePrefix
  congr 1
  funext e
  exact SqlLike.like_literals (tokens_likeEscape start) e.path.toList

/-- **The listing.** The escaped pattern matches the paths that begin with the prefix, up to
the case of ASCII letters. -/
theorem mem_listPrefix {s : Store} {e : ConceptEntry} {start : String} :
    e ∈ listPrefix s start ↔ e ∈ s.registry ∧ likePrefix start e.path = true := by
  rw [listPrefix_eq, List.mem_filter, mem_list]

/-- A listing has no path twice. -/
theorem nodup_listPrefix {s : Store} (hs : (s.registry.map ConceptEntry.path).Nodup)
    (start : String) : ((listPrefix s start).map ConceptEntry.path).Nodup := by
  have hperm : s.list.Perm s.registry := List.perm_insertionSort _ _
  have hlist : (s.list.map ConceptEntry.path).Nodup :=
    (hperm.map ConceptEntry.path).nodup_iff.mpr hs
  exact hlist.sublist (List.filter_sublist.map _)

/-- A path that begins with the prefix does so in every case. -/
theorem likePrefix_of_startsWith {start path : String} (h : startsWith path start = true) :
    likePrefix start path = true := by
  unfold startsWith at h
  unfold likePrefix
  rw [List.isPrefixOf_iff_prefix] at h ⊢
  exact h.map Char.toLower

theorem likePrefix_iff {slug s : String} (hslug : SlugShape slug) (hs : SlugShape s)
    (name : String) : likePrefix ("/" ++ slug ++ "/") (chapterPath s name) = true ↔ s = slug := by
  have hstart : ("/" ++ slug ++ "/").toList.map Char.toLower = '/' :: (slug.toList ++ ['/']) := by
    simp only [String.toList_append, List.map_append, map_toLower_slug hslug]
    rfl
  have hpath : (chapterPath s name).toList.map Char.toLower =
      '/' :: (s.toList ++ '/' :: (name.toList ++ ['.', 'm', 'd']).map Char.toLower) := by
    rw [toList_chapterPath, List.map_cons, List.map_append, map_toLower_slug hs, List.map_cons]
    rfl
  unfold likePrefix
  rw [hstart, hpath, List.isPrefixOf_iff_prefix]
  constructor
  · rintro ⟨tail, htail⟩
    have hrest : slug.toList ++ '/' :: tail =
        s.toList ++ '/' :: (name.toList ++ ['.', 'm', 'd']).map Char.toLower := by
      rw [← (List.cons.inj htail).2]
      simp
    exact String.toList_injective (slash_split hslug.noSlash hs.noSlash hrest).1.symm
  · rintro rfl
    refine ⟨(name.toList ++ ['.', 'm', 'd']).map Char.toLower, ?_⟩
    simp

/-! ## Indexes -/

/-- INTERNAL: the directory of the entries below `/library/`. -/
theorem slug_of_dirOf {e : ConceptEntry} {s name : String} (hs : SlugShape s)
    (hpath : e.path = chapterPath s name) (hdir : dirOf e = "/library") : s = "library" := by
  have hdirname : dirname e.path = some "/library" := by
    unfold dirOf at hdir
    cases hd : dirname e.path with
    | none =>
      rw [hd] at hdir
      exact absurd hdir (by decide)
    | some dir =>
      rw [hd] at hdir
      exact congrArg some hdir
  obtain ⟨base, hbase, -⟩ := toList_of_dirname hdirname
  rw [hpath, toList_chapterPath] at hbase
  have hrest : s.toList ++ '/' :: (name.toList ++ ['.', 'm', 'd']) =
      "library".toList ++ '/' :: base := (List.cons.inj hbase).2
  exact String.toList_injective (slash_split hs.noSlash slugShape_library.noSlash hrest).1

/-- A stack text's file that a regeneration writes is that of the slug `index`. -/
theorem stackPath_of_indexFile {entries : List ConceptEntry} {slug content : String}
    (hslug : SlugShape slug) (h : (stackPathFor slug, content) ∈ indexFiles entries) :
    slug = "index" ∧ ∃ e ∈ entries, dirOf e = "/library" := by
  simp only [indexFiles, indexDirs, List.mem_map, List.mem_insertionSort, List.mem_dedup,
    List.mem_cons, Prod.mk.injEq] at h
  obtain ⟨dir, hdir, hpath, -⟩ := h
  have hlist := congrArg String.toList hpath
  rw [stackPathFor_eq, toList_chapterPath, String.toList_append] at hlist
  have hlast : dir.toList ++ '/' :: ['i', 'n', 'd', 'e', 'x', '.', 'm', 'd'] =
      ('/' :: "library".toList) ++ '/' :: (slug.toList ++ ['.', 'm', 'd']) := hlist
  have hname : '/' ∉ slug.toList ++ ['.', 'm', 'd'] := by
    simp [hslug.noSlash]
  obtain ⟨hd, hn⟩ := slash_split_last (by decide) hname hlast
  have hindex : slug.toList = "index".toList :=
    List.append_cancel_right (hn.symm.trans (show _ = "index".toList ++ ['.', 'm', 'd'] from rfl))
  have hlibrary : dir = "/library" := String.toList_injective hd
  refine ⟨String.toList_injective hindex, ?_⟩
  rcases hdir with rfl | ⟨e, he, rfl⟩
  · exact absurd hlibrary (by decide)
  · exact ⟨e, he, hlibrary⟩

end Mycelium.Analysis.LibraryPaths
