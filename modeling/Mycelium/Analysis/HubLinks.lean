import Mycelium.Analysis.LinkParts
import Mycelium.Model.Catalog

/-!
# The links of a hub

The hub of a book lists a link to each chapter, and the link scanner reads them back. Titles
and the description go into the body as they are.

1. *The hub in parts.* The about text and the lines of the chapters, scanned on their own
   (`scan_hub`, `scan_dark_hub`).
2. *Plain lines.* A title without a closing bracket, a backtick or a line break shows its link
   (`plain_line`).
3. *The links.* They are the chapters' paths where each line shows its own link and nothing
   else, and where no text links on its own only there (`hub_links_exact`).
-/

set_option autoImplicit false

namespace Mycelium.Analysis.HubLinks

open Mycelium.Model.Text Mycelium.Model.Links Mycelium.Model.Outline Mycelium.Model.Catalog
open Mycelium.Analysis.TextLines Mycelium.Analysis.LinkScan Mycelium.Analysis.LinkParts

/-! ## The hub in parts -/

/-- What stands above the list of the chapters. -/
def aboutPart (catalog : BookCatalog) : String :=
  "# About\n\n" ++
    (if catalog.description = "" then
      "Catalog for **" ++ catalog.title ++ "**. Full text lives in the shared library stacks.\n"
    else catalog.description ++ "\n") ++
    "\n# Chapters\n\n"

/-- The list of the chapters. -/
def chapterLines (slug : String) (outline : List ChapterOutline) : List Char :=
  outline.flatMap fun chapter => (hubLine slug chapter).toList

/-- What stands below it. -/
def relatedPart : String := "\n# Related Concepts\n\nChapters link back to this hub.\n"

theorem toList_join (texts : List String) :
    (join "" texts).toList = texts.flatMap String.toList := by
  fun_induction join "" texts with
  | case1 => rfl
  | case2 s =>
    rw [List.flatMap_singleton]
  | case3 s rest hrest ih =>
    rw [List.flatMap_cons, String.toList_append, String.toList_append, ih]
    simp

theorem body_toList (catalog : BookCatalog) (outline : List ChapterOutline) :
    (buildHubConcept catalog outline).body.toList =
      (aboutPart catalog).toList ++
        (chapterLines catalog.slug outline ++ relatedPart.toList) := by
  have hbody : (buildHubConcept catalog outline).body =
      aboutPart catalog ++ join "" (outline.map (hubLine catalog.slug)) ++ relatedPart := rfl
  rw [hbody, String.toList_append, String.toList_append, toList_join, List.flatMap_map,
    List.append_assoc]
  rfl

theorem ended_aboutPart (catalog : BookCatalog) : Ended (aboutPart catalog).toList := by
  rw [aboutPart, String.toList_append]
  exact ended_append (z := "\n# Chapters\n".toList) rfl

/-- INTERNAL: the line of a chapter, with its brackets. -/
theorem hubLine_toList (slug : String) (chapter : ChapterOutline) :
    (hubLine slug chapter).toList =
      '-' :: ' ' :: '[' :: (chapter.title ++ ']' :: '(' ::
        ((chapterPath slug (anchorText chapter)).toList ++ [')', '\n'])) := by
  simp [hubLine, String.toList_append]

theorem ended_hubLine (slug : String) (chapter : ChapterOutline) :
    Ended (hubLine slug chapter).toList := by
  rw [hubLine, String.toList_append]
  exact ended_append (z := [')']) rfl

/-- INTERNAL: a line that begins with `- ` is no fence. -/
theorem isFenceLine_dash (l : List Char) : isFenceLine ('-' :: l) = false := rfl

/-- INTERNAL: the masked line of a chapter begins with its bracket. -/
theorem maskCode_bracket (l : List Char) :
    ∃ rest, maskCode ('-' :: ' ' :: '[' :: l) = '-' :: ' ' :: '[' :: rest := by
  have hline {line : List Char} (lines : List (List Char)) :
      ∃ rest, maskLines false (('-' :: ' ' :: '[' :: line) :: lines) =
        '-' :: ' ' :: '[' :: rest := by
    refine ⟨maskInlineCode line ++ maskLines false lines, ?_⟩
    simp only [maskLines, isFenceLine_dash, Bool.false_eq_true, if_false]
    rfl
  have hdash : ('-' : Char) ≠ '\n' := by decide
  have hspace : (' ' : Char) ≠ '\n' := by decide
  have hbracket : ('[' : Char) ≠ '\n' := by decide
  rw [maskCode, splitInclusive_cons hdash, splitInclusive_cons hspace,
    splitInclusive_cons hbracket]
  cases splitInclusive l with
  | nil => exact hline []
  | cons line lines => exact hline lines

theorem opens_of_bracket (l : List Char) : Opens ('-' :: ' ' :: '[' :: l) := by
  intro x y h
  match x with
  | [] => cases h
  | [_] => cases h
  | [_, _] => cases h
  | a :: b :: c :: x =>
    have hc : '[' = c := by
      injection h with _ h
      injection h with _ h
      injection h
    rw [← hc]
    simp

/-- INTERNAL: nothing closes a bracket below the list. -/
theorem dark_relatedPart (inFence : Bool) :
    ']' ∉ maskLines inFence (splitInclusive relatedPart.toList) := by
  intro hmem
  obtain hc | hc := mem_maskLines hmem
  · exact absurd hc (by decide)
  · rw [flatten_splitInclusive] at hc
    exact absurd hc (by decide)

section Closed

variable {slug : String} {outline : List ChapterOutline}
  (hclosed : ∀ chapter ∈ outline, leavesFence (hubLine slug chapter).toList = false)

include hclosed

/-- INTERNAL: the list of the chapters and what stands below it, no fence being open. -/
theorem links_chapterLines :
    Opens (maskCode (chapterLines slug outline ++ relatedPart.toList)) ∧
      linksOf (maskCode (chapterLines slug outline ++ relatedPart.toList)) =
        outline.flatMap fun chapter => scanLinks (hubLine slug chapter) := by
  induction outline with
  | nil =>
    have hdark := dark_relatedPart false
    exact ⟨opens_of_none hdark, linksOf_of_none hdark⟩
  | cons chapter outline ih =>
    obtain ⟨hopens, hlinks⟩ := ih fun c hc => hclosed c (List.mem_cons_of_mem chapter hc)
    have hchapter := hclosed chapter List.mem_cons_self
    have hended := ended_hubLine slug chapter
    have hsplit : chapterLines slug (chapter :: outline) ++ relatedPart.toList =
        (hubLine slug chapter).toList ++ (chapterLines slug outline ++ relatedPart.toList) := by
      rw [← List.append_assoc]
      rfl
    constructor
    · rw [hsplit, hubLine_toList]
      obtain ⟨rest, hrest⟩ := maskCode_bracket (chapter.title ++ ']' :: '(' ::
        ((chapterPath slug (anchorText chapter)).toList ++ [')', '\n']) ++
          (chapterLines slug outline ++ relatedPart.toList))
      have hshape := opens_of_bracket rest
      rw [← hrest] at hshape
      exact hshape
    · rw [hsplit, linksOf_maskCode_append hended hchapter hopens, hlinks, List.flatMap_cons]
      rfl

/-- The scanner reads the parts of a hub one by one where none of them leaves a fence open. -/
theorem scan_hub {catalog : BookCatalog} (hslug : catalog.slug = slug)
    (habout : leavesFence (aboutPart catalog).toList = false) :
    scanLinks (buildHubConcept catalog outline).body =
      scanLinks (aboutPart catalog) ++
        outline.flatMap fun chapter => scanLinks (hubLine slug chapter) := by
  subst hslug
  obtain ⟨hopens, hlinks⟩ := links_chapterLines hclosed
  have hended := ended_aboutPart catalog
  rw [scanLinks, body_toList, linksOf_maskCode_append hended habout hopens, hlinks]
  rfl

end Closed

/-! ## Plain lines -/

/-- The line of the chapter is one line. -/
def OneLine (slug : String) (chapter : ChapterOutline) : Prop :=
  '\n' ∉ chapter.title ∧ '\n' ∉ (chapterPath slug (anchorText chapter)).toList

instance (slug : String) (chapter : ChapterOutline) : Decidable (OneLine slug chapter) :=
  inferInstanceAs (Decidable (_ ∧ _))

theorem splitInclusive_hubLine {slug : String} {chapter : ChapterOutline}
    (h : OneLine slug chapter) :
    splitInclusive (hubLine slug chapter).toList = [(hubLine slug chapter).toList] := by
  have hline : (hubLine slug chapter).toList = ('-' :: ' ' :: '[' :: (chapter.title ++ ']' :: '(' ::
      ((chapterPath slug (anchorText chapter)).toList ++ [')']))) ++ ['\n'] := by
    rw [hubLine_toList]
    simp
  rw [hline]
  apply splitInclusive_line
  rintro c hc rfl
  simp only [List.mem_cons, List.mem_append, List.not_mem_nil, or_false, h.1, h.2] at hc
  revert hc
  decide

theorem isFenceLine_hubLine (slug : String) (chapter : ChapterOutline) :
    isFenceLine (hubLine slug chapter).toList = false := by
  rw [hubLine_toList]
  exact isFenceLine_dash _

theorem closed_of_oneLine {slug : String} {chapter : ChapterOutline} (h : OneLine slug chapter) :
    leavesFence (hubLine slug chapter).toList = false := by
  rw [leavesFence, splitInclusive_hubLine h]
  apply fenceAfter_of_none
  intro line hline
  rw [List.mem_singleton.mp hline]
  exact isFenceLine_hubLine slug chapter

theorem splitInclusive_chapterLines {slug : String} {outline : List ChapterOutline}
    (h : ∀ chapter ∈ outline, OneLine slug chapter) (l : List Char) :
    splitInclusive (chapterLines slug outline ++ l) =
      (outline.map fun chapter => (hubLine slug chapter).toList) ++ splitInclusive l := by
  induction outline with
  | nil => rfl
  | cons chapter outline ih =>
    have hrest := ih fun c hc => h c (List.mem_cons_of_mem chapter hc)
    rw [chapterLines, List.flatMap_cons, List.append_assoc,
      splitInclusive_ended (ended_hubLine slug chapter),
      splitInclusive_hubLine (h chapter List.mem_cons_self)]
    exact congrArg ((hubLine slug chapter).toList :: ·) hrest

/-- Behind a fence that the about text leaves open the list shows nothing. -/
theorem scan_dark_hub {catalog : BookCatalog} {outline : List ChapterOutline}
    (h : ∀ chapter ∈ outline, OneLine catalog.slug chapter)
    (habout : leavesFence (aboutPart catalog).toList = true) :
    scanLinks (buildHubConcept catalog outline).body = scanLinks (aboutPart catalog) := by
  have hended := ended_aboutPart catalog
  have hblank : BlankLast (maskCode (aboutPart catalog).toList) := blankLast_maskLines hended false
  have hnone : ∀ line ∈ outline.map fun chapter => (hubLine catalog.slug chapter).toList,
      isFenceLine line = false := by
    intro line hline
    obtain ⟨chapter, -, rfl⟩ := List.mem_map.mp hline
    exact isFenceLine_hubLine catalog.slug chapter
  have hdark : ']' ∉ maskLines true
      (splitInclusive (chapterLines catalog.slug outline ++ relatedPart.toList)) := by
    rw [splitInclusive_chapterLines h, maskLines_append, fenceAfter_of_none hnone, List.mem_append,
      not_or]
    refine ⟨?_, dark_relatedPart true⟩
    intro hmem
    exact absurd (eq_blank_of_mem hnone hmem) (by decide)
  rw [scanLinks, body_toList, maskCode_append hended, habout,
    linksOf_append hblank (opens_of_none hdark), linksOf_of_none hdark, List.append_nil]
  rfl

/-- A title, and a path, that the line shows as they are. -/
structure PlainLine (slug : String) (chapter : ChapterOutline) : Prop where
  title : ∀ c ∈ chapter.title, c ≠ ']' ∧ c ≠ '`' ∧ c ≠ '\n'
  path : ∀ c ∈ (chapterPath slug (anchorText chapter)).toList, isTargetChar c = true ∧ c ≠ '`'

/-- The links that a text shows on its own: those of what masking leaves of it. -/
def Shows (text : String) (links : List String) : Prop :=
  ∃ targets, Reads (maskCode text.toList) targets ∧
    (targets.filter isMdTarget).map String.ofList = links

theorem shows_iff {text : String} {links : List String} :
    Shows text links ↔ scanLinks text = links := by
  constructor
  · rintro ⟨targets, hreads, rfl⟩
    exact linksOf_reads hreads
  · rintro rfl
    exact ⟨_, reads_iff.mpr rfl, rfl⟩

theorem PlainLine.oneLine {slug : String} {chapter : ChapterOutline} (h : PlainLine slug chapter) :
    OneLine slug chapter := by
  constructor
  · intro hmem
    exact (h.title _ hmem).2.2 rfl
  · intro hmem
    exact absurd (h.path _ hmem).1 (by decide)

/-- INTERNAL: the path of a chapter is a target. -/
theorem chapterPath_toList (slug anchor : String) :
    ∃ run, (chapterPath slug anchor).toList = '/' :: run ∧
      isMdTarget (chapterPath slug anchor).toList = true := by
  refine ⟨slug.toList ++ '/' :: (anchor.toList ++ ".md".toList), ?_, ?_⟩
  · simp [chapterPath, String.toList_append]
  · rw [isMdTarget, List.isSuffixOf_iff_suffix, chapterPath, String.toList_append]
    exact List.suffix_append _ _

/-- A plain line shows the link of its chapter. -/
theorem plain_line {slug : String} {chapter : ChapterOutline} (h : PlainLine slug chapter) :
    Shows (hubLine slug chapter) [chapterPath slug (anchorText chapter)] := by
  obtain ⟨run, hpath, hmd⟩ := chapterPath_toList slug (anchorText chapter)
  have hticks : '`' ∉ (hubLine slug chapter).toList := by
    rw [hubLine_toList]
    have htitle : '`' ∉ chapter.title := fun hmem => (h.title _ hmem).2.1 rfl
    have hrun : '`' ∉ (chapterPath slug (anchorText chapter)).toList :=
      fun hmem => (h.path _ hmem).2 rfl
    simp [htitle, hrun]
  have hmask : maskCode (hubLine slug chapter).toList = (hubLine slug chapter).toList := by
    rw [maskCode, splitInclusive_hubLine h.oneLine]
    simp only [maskLines, isFenceLine_hubLine, Bool.false_eq_true, if_false, List.append_nil]
    exact maskInlineCode_of_none hticks
  have htext : ']' ∉ chapter.title := fun hmem => (h.title _ hmem).1 rfl
  have hchars : ∀ c ∈ run, isTargetChar c = true := by
    intro c hc
    apply (h.path c _).1
    rw [hpath]
    exact List.mem_cons_of_mem '/' hc
  have hlink : LinkAt ('[' :: (chapter.title ++ ']' :: '(' :: '/' :: (run ++ [')', '\n'])))
      ('/' :: run) ['\n'] := ⟨chapter.title, run, rfl, htext, hchars, rfl⟩
  have hend : ']' ∉ ['\n'] := by decide
  have hdash : '[' ∉ ['-', ' '] := by decide
  refine ⟨['/' :: run], ?_, ?_⟩
  · rw [hmask, hubLine_toList, hpath]
    exact reads_skip hdash (.link hlink (reads_of_none hend))
  · rw [← hpath, List.filter_cons_of_pos hmd, List.filter_nil, List.map_singleton,
      String.ofList_toList]

/-! ## The links -/

/-- The scanner finds the paths of the chapters' concepts, in order. -/
def LinksChapters (tables : CharTables) (catalog : BookCatalog) (outline : List ChapterOutline) :
    Prop :=
  scanLinks (buildHubConcept catalog outline).body =
    outline.map fun chapter => (buildChapterConcept tables catalog chapter).sourcePath

/-- The about text shows no link, no fence is open where the line of a chapter begins, and
each line shows its own link and nothing else. -/
structure Visible (catalog : BookCatalog) (outline : List ChapterOutline) : Prop where
  about : Shows (aboutPart catalog) []
  above : outline ≠ [] → leavesFence (aboutPart catalog).toList = false
  closed : ∀ chapter ∈ outline, leavesFence (hubLine catalog.slug chapter).toList = false
  own : ∀ chapter ∈ outline,
    Shows (hubLine catalog.slug chapter) [chapterPath catalog.slug (anchorText chapter)]

/-- No text links on its own: all links are those of the lines. The titles are of one line. -/
structure Quiet (catalog : BookCatalog) (outline : List ChapterOutline) : Prop where
  about : Shows (aboutPart catalog) []
  oneLine : ∀ chapter ∈ outline, OneLine catalog.slug chapter
  own : ∀ chapter ∈ outline, Shows (hubLine catalog.slug chapter) [] ∨
    Shows (hubLine catalog.slug chapter) [chapterPath catalog.slug (anchorText chapter)]

/-- INTERNAL: lists of at most one entry do not give more than there are. -/
theorem length_flatMap_le {α β : Type} {l : List α} {f : α → List β}
    (h : ∀ a ∈ l, (f a).length ≤ 1) : (l.flatMap f).length ≤ l.length := by
  induction l with
  | nil => exact Nat.le_refl _
  | cons a l ih =>
    have hrest := ih fun b hb => h b (List.mem_cons_of_mem a hb)
    have ha := h a List.mem_cons_self
    rw [List.flatMap_cons, List.length_append, List.length_cons]
    omega

/-- INTERNAL: where they give all, each gives its own. -/
theorem own_of_flatMap {α β : Type} {l : List α} {f : α → List β} {g : α → β}
    (hown : ∀ a ∈ l, f a = [] ∨ f a = [g a]) (hall : l.flatMap f = l.map g) :
    ∀ a ∈ l, f a = [g a] := by
  induction l with
  | nil => simp
  | cons a l ih =>
    have hl : ∀ b ∈ l, f b = [] ∨ f b = [g b] := fun b hb => hown b (List.mem_cons_of_mem a hb)
    obtain ha | ha := hown a List.mem_cons_self
    · exfalso
      have hle : (l.flatMap f).length ≤ l.length := by
        apply length_flatMap_le
        intro b hb
        obtain hb | hb := hl b hb
        · rw [hb]
          exact Nat.zero_le 1
        · rw [hb]
          exact Nat.le_refl 1
      have hlength := congrArg List.length hall
      rw [List.flatMap_cons, ha, List.nil_append, List.length_map, List.length_cons] at hlength
      omega
    · rw [List.flatMap_cons, List.map_cons, ha] at hall
      rw [List.forall_mem_cons]
      exact ⟨ha, ih hl (List.cons.inj hall).2⟩

theorem linksChapters_of_visible {tables : CharTables} {catalog : BookCatalog}
    {outline : List ChapterOutline} (h : Visible catalog outline) :
    LinksChapters tables catalog outline := by
  have habout := shows_iff.mp h.about
  cases hfence : leavesFence (aboutPart catalog).toList with
  | true =>
    have hnil : outline = [] := by
      by_contra hne
      rw [h.above hne] at hfence
      cases hfence
    subst hnil
    rw [LinksChapters, scan_dark_hub (by simp) hfence, habout]
    rfl
  | false =>
    have hown : ∀ chapter ∈ outline, scanLinks (hubLine catalog.slug chapter) =
        [chapterPath catalog.slug (anchorText chapter)] :=
      fun chapter hchapter => shows_iff.mp (h.own chapter hchapter)
    rw [LinksChapters, scan_hub h.closed rfl hfence, habout, List.nil_append,
      List.flatMap_congr hown]
    exact List.map_eq_flatMap.symm

theorem visible_of_linksChapters {tables : CharTables} {catalog : BookCatalog}
    {outline : List ChapterOutline} (hquiet : Quiet catalog outline)
    (h : LinksChapters tables catalog outline) : Visible catalog outline := by
  have hclosed : ∀ chapter ∈ outline,
      leavesFence (hubLine catalog.slug chapter).toList = false :=
    fun chapter hchapter => closed_of_oneLine (hquiet.oneLine chapter hchapter)
  have habout := shows_iff.mp hquiet.about
  cases hfence : leavesFence (aboutPart catalog).toList with
  | true =>
    -- the list shows nothing, so there is no chapter
    rw [LinksChapters, scan_dark_hub hquiet.oneLine hfence, habout] at h
    obtain rfl := List.map_eq_nil_iff.mp h.symm
    exact ⟨hquiet.about, fun hne => absurd rfl hne, hclosed, by simp⟩
  | false =>
    rw [LinksChapters, scan_hub hclosed rfl hfence, habout, List.nil_append] at h
    have hown := own_of_flatMap (fun chapter hchapter =>
      (hquiet.own chapter hchapter).imp shows_iff.mp shows_iff.mp) h
    exact ⟨hquiet.about, fun _ => hfence, hclosed,
      fun chapter hchapter => shows_iff.mpr (hown chapter hchapter)⟩

/-- **Hub links.** The scanner finds the chapters where the hub shows them, and where no text
links on its own only there. SOURCE: extract.rs:263-279, 722-739 -/
theorem hub_links_exact (tables : CharTables) (catalog : BookCatalog)
    (outline : List ChapterOutline) :
    (Visible catalog outline → LinksChapters tables catalog outline) ∧
      (Quiet catalog outline → LinksChapters tables catalog outline → Visible catalog outline) :=
  ⟨linksChapters_of_visible, visible_of_linksChapters⟩

/-- A book with one chapter, and no description. -/
def oneBook : BookCatalog := ⟨"b", "B", "", []⟩

def oneChapter (title slug : Str) : List ChapterOutline := [⟨1, title, slug, [], none, 0⟩]

/-- Tables for Latin letters. -/
def latinTables : CharTables := ⟨Char.isAlphanum, fun c => [c.toLower]⟩

/-- INTERNAL: the line of a plain title. -/
theorem plain_basics : ∀ chapter ∈ oneChapter ['B', 'a'] ['b', 'a'], PlainLine "b" chapter := by
  intro chapter hchapter
  obtain rfl := List.mem_singleton.mp hchapter
  have hpath : (chapterPath "b" (anchorText ⟨1, ['B', 'a'], ['b', 'a'], [], none, 0⟩)).toList.all
      (fun c => isTargetChar c && c ≠ '`') = true := by decide +kernel
  constructor
  · simp
  · intro c hc
    simpa using List.all_eq_true.mp hpath c hc

theorem about_oneBook : Shows (aboutPart oneBook) [] := by
  apply shows_iff.mpr
  decide +kernel

/-- The hub of a plain title links its chapter, and shows it. -/
theorem hub_links_basics :
    LinksChapters latinTables oneBook (oneChapter ['B', 'a'] ['b', 'a']) ∧
      Visible oneBook (oneChapter ['B', 'a'] ['b', 'a']) := by
  have hvisible : Visible oneBook (oneChapter ['B', 'a'] ['b', 'a']) := by
    refine ⟨about_oneBook, fun _ => by decide +kernel, ?_, ?_⟩
    · intro chapter hchapter
      exact closed_of_oneLine (plain_basics chapter hchapter).oneLine
    · intro chapter hchapter
      exact plain_line (plain_basics chapter hchapter)
  have hquiet : Quiet oneBook (oneChapter ['B', 'a'] ['b', 'a']) :=
    ⟨about_oneBook, fun chapter hchapter => (plain_basics chapter hchapter).oneLine,
      fun chapter hchapter => .inr (plain_line (plain_basics chapter hchapter))⟩
  have hexact := hub_links_exact latinTables oneBook (oneChapter ['B', 'a'] ['b', 'a'])
  exact ⟨hexact.1 hvisible, hexact.2 hquiet (hexact.1 hvisible)⟩

/-- A chapter whose title begins with a number in brackets has no link. -/
theorem bracketed_title_lost : ¬ ∀ (tables : CharTables) (catalog : BookCatalog)
    (outline : List ChapterOutline), LinksChapters tables catalog outline := by
  intro hall
  have hlinks := hall latinTables oneBook (oneChapter "[1] Ba".toList "1-ba".toList)
  have hnone : scanLinks (buildHubConcept oneBook
      (oneChapter "[1] Ba".toList "1-ba".toList)).body = [] := by decide +kernel
  rw [LinksChapters, hnone] at hlinks
  cases hlinks

end Mycelium.Analysis.HubLinks
