import Mathlib.Tactic.Cases
import Mycelium.Analysis.BookLines

/-!
# The entries of a catalog

Where the entries of an outline come from, and what their anchors mean to the reader.

1. *Anchors.* The anchor of a chapter parses to the number of the chapter, that of a section
   to both its numbers; a number 0 makes an anchor the reader does not know
   (`meansChapter_counted`, `meansChapter_named`, `meansSection_counted`, `meansSection_named`).
2. *Places.* A chapter stands at a line (`ChapterAt`) and so does a section (`SectionAt`):
   counted in a book without ids, named by the id of the line in one with ids.
3. *Entries.* Every entry of the outline is one of a place, and every place has an entry
   (`entries_at_places`, `chapterAt_has_entry`, `sectionAt_has_entry`).
-/

set_option autoImplicit false

namespace Mycelium.Analysis.CatalogEntries

open Mycelium.Model.Text
open Mycelium.Model.Outline
open Mycelium.Model.Passages
open Mycelium.Analysis.BookLines

/-! ## Numbers in anchors -/

theorem isAsciiDigit_of_mem_decimal {n : ℕ} {c : Char} (h : c ∈ decimal n) :
    isAsciiDigit c = true := by
  have hdigit := Nat.isDigit_of_mem_toDigits (by omega) (by omega) h
  simp only [Char.isDigit, Bool.and_eq_true, decide_eq_true_eq] at hdigit
  simp only [isAsciiDigit, Bool.and_eq_true, decide_eq_true_eq]
  exact hdigit

theorem dash_not_mem_decimal (n : ℕ) : '-' ∉ decimal n := by
  intro h
  have hdigit := isAsciiDigit_of_mem_decimal h
  revert hdigit
  decide

/-- A number that fits is read back. -/
theorem parseU32_decimal {n : ℕ} (hn : n < u32Bound) : parseU32 (decimal n) = some n := by
  have hsign : ∀ rest, decimal n ≠ '+' :: rest := by
    intro rest h
    have hdigit : isAsciiDigit '+' = true := isAsciiDigit_of_mem_decimal (n := n) (by simp [h])
    revert hdigit
    decide
  have hvalue : Nat.ofDigitChars 10 (decimal n) 0 = n := Nat.ofDigitChars_ten_toDigits
  have hall : (decimal n).all isAsciiDigit = true :=
    List.all_eq_true.mpr fun c hc => isAsciiDigit_of_mem_decimal hc
  unfold parseU32
  split
  · rename_i rest heq
    exact absurd heq (hsign rest)
  · simp only [hvalue]
    exact if_pos ⟨Nat.toDigits_ne_nil, hall, hn⟩

theorem parseU32_lt {l : Str} {n : ℕ} (h : parseU32 l = some n) : n < u32Bound := by
  unfold parseU32 at h
  simp only [Option.ite_none_right_eq_some, Option.some.injEq] at h
  obtain ⟨⟨-, -, hlt⟩, hn⟩ := h
  rw [← hn]
  exact hlt

/-! ## Pieces of anchors -/

theorem afterPrefix_append (p l : Str) : afterPrefix p (p ++ l) = some l := by
  simp [afterPrefix]

/-- INTERNAL: the piece before the first separator. -/
theorem splitn_append {x : Str} {c : Char} (hx : c ∉ x) (k : ℕ) (rest : Str) :
    splitn (k + 2) c (x ++ c :: rest) = x :: splitn (k + 1) c rest := by
  have hall : ∀ d ∈ x, decide (d ≠ c) = true := by
    intro d hd
    have hne : d ≠ c := by
      rintro rfl
      exact hx hd
    exact decide_eq_true hne
  have htake : (x ++ c :: rest).takeWhile (· ≠ c) = x := by
    rw [List.takeWhile_append_of_pos hall]
    simp
  have hdrop : (x ++ c :: rest).dropWhile (· ≠ c) = c :: rest := by
    rw [List.dropWhile_append_of_pos hall]
    simp
  simp only [splitn, htake, hdrop]

/-- INTERNAL: two pieces or more have a separator between the first and the second. -/
theorem splitBy_cons_cons {c : Char} {l x y : Str} {ys : List Str}
    (h : splitBy (· == c) l = x :: y :: ys) :
    ∃ rest, l = x ++ c :: rest ∧ c ∉ x ∧ splitBy (· == c) rest = y :: ys := by
  induction l generalizing x with
  | nil => cases h
  | cons d l ih =>
    simp only [splitBy] at h
    split at h
    · rename_i hd
      simp only [List.cons.injEq] at h
      obtain ⟨rfl, hrest⟩ := h
      refine ⟨l, ?_, List.not_mem_nil, hrest⟩
      rw [List.nil_append, eq_of_beq hd]
    · rename_i hd
      split at h
      · cases h
      · rename_i piece pieces hsplit
        cases h
        obtain ⟨rest, hl, hmem, hrest⟩ := ih hsplit
        refine ⟨rest, by rw [hl]; rfl, ?_, hrest⟩
        intro hc
        rcases List.mem_cons.mp hc with rfl | hc
        · exact hd (beq_self_eq_true c)
        · exact hmem hc

/-! ## What an anchor means to the reader -/

/-- The anchor names the chapter with this number, or nothing when the number is 0. -/
def MeansChapter (n : ℕ) (anchor : Str) : Prop :=
  if n = 0 then Anchor.parse anchor = .other anchor ∧ anchor ≠ []
  else ∃ slug, Anchor.parse anchor = .chapter n slug

/-- The anchor names the section with these numbers, or nothing when one of them is 0. -/
def MeansSection (c m : ℕ) (anchor : Str) : Prop :=
  if c = 0 ∨ m = 0 then Anchor.parse anchor = .other anchor ∧ anchor ≠ []
  else ∃ slug, Anchor.parse anchor = .sec c m slug

/-- INTERNAL: a number and a dash after `ch-`. -/
theorem meansChapter_of_number {number : Str} {n : ℕ} (rest : Str) (hdash : '-' ∉ number)
    (hnumber : parseU32 number = some n) :
    MeansChapter n (['c', 'h', '-'] ++ (number ++ '-' :: rest)) := by
  unfold MeansChapter Anchor.parse parseChapter
  rw [afterPrefix_append]
  simp only [splitn_append hdash 0, hnumber]
  split
  · simp
  · simp [splitn]

/-- INTERNAL: two numbers after `sec-`. -/
theorem meansSection_of_numbers {rest c m : Str} {parts : List Str} {i j : ℕ}
    (hsplit : splitn 3 '-' rest = c :: m :: parts) (hc : parseU32 c = some i)
    (hm : parseU32 m = some j) : MeansSection i j (['s', 'e', 'c', '-'] ++ rest) := by
  have hch : parseChapter (['s', 'e', 'c', '-'] ++ rest) = none := by
    simp [parseChapter, afterPrefix]
  unfold MeansSection Anchor.parse
  rw [hch, parseSection, afterPrefix_append]
  simp only [hsplit, hc, hm]
  split
  · simp
  · simp

/-- The anchor of a counted chapter. -/
theorem meansChapter_counted {ch : ChapterOutline} (hid : ch.anchorId = none)
    (hindex : ch.index < u32Bound) : MeansChapter ch.index (chapterAnchorId ch) := by
  have h := meansChapter_of_number ch.slug (dash_not_mem_decimal ch.index)
    (parseU32_decimal hindex)
  unfold chapterAnchorId
  rw [hid]
  simpa using h

/-- The anchor of a counted section. -/
theorem meansSection_counted (tables : CharTables) {ch : ChapterOutline} {sec : SectionOutline}
    (hid : sec.anchorId = none) (hch : ch.index < u32Bound) (hsec : sec.index < u32Bound) :
    MeansSection ch.index sec.index (sectionAnchorId tables ch sec) := by
  have hsplit : splitn 3 '-' (decimal ch.index ++
      '-' :: (decimal sec.index ++ '-' :: slugify tables sec.title)) =
      decimal ch.index :: decimal sec.index :: [slugify tables sec.title] := by
    rw [splitn_append (dash_not_mem_decimal _), splitn_append (dash_not_mem_decimal _)]
    rfl
  have h := meansSection_of_numbers hsplit (parseU32_decimal hch) (parseU32_decimal hsec)
  unfold sectionAnchorId
  rw [hid]
  simpa using h

/-- INTERNAL: the shape of a chapter's id. -/
theorem isChapterId_shape {id : Str} (h : isChapterId id = true) :
    ∃ number rest, id = ['c', 'h', '-'] ++ (number ++ '-' :: rest) ∧ '-' ∉ number ∧
      isNumber number = true ∧ chapterNumberOf id = parseU32 number ∧
      chapterIdNumber id = (parseU32 number).filter fun n => 0 < n := by
  unfold isChapterId at h
  split at h
  · rename_i first number more pieces hsplit
    simp only [Bool.and_eq_true, decide_eq_true_eq] at h
    obtain ⟨rfl, hnumber⟩ := h
    obtain ⟨rest, hid, -, hrest⟩ := splitBy_cons_cons hsplit
    obtain ⟨rest', hrest', hdash, -⟩ := splitBy_cons_cons hrest
    refine ⟨number, rest', ?_, hdash, hnumber, ?_, ?_⟩
    · rw [hid, hrest']
      rfl
    · simp only [chapterNumberOf, hsplit, hnumber, if_true]
    · simp only [chapterIdNumber, hsplit]
  · cases h

/-- The id of a chapter, as an anchor. -/
theorem meansChapter_named {id : Str} {n : ℕ} (hid : isChapterId id = true)
    (hn : chapterIdNumber id = some n) : MeansChapter n id ∧ 0 < n ∧ n < u32Bound := by
  obtain ⟨number, rest, hshape, hdash, -, -, hchapter⟩ := isChapterId_shape hid
  rw [hchapter, Option.filter_eq_some_iff] at hn
  obtain ⟨hnumber, hpos⟩ := hn
  refine ⟨?_, by simpa using hpos, parseU32_lt hnumber⟩
  rw [hshape]
  exact meansChapter_of_number rest hdash hnumber

/-- The reader knows the heading by the same number. -/
theorem namesChapter_named {id : Str} {n : ℕ} (hid : isChapterId id = true)
    (hn : chapterIdNumber id = some n) {b : BookHeading} (hb : b.anchorId = some id) :
    namesChapter n b = true := by
  obtain ⟨number, rest, hshape, -, -, hnumberOf, hchapter⟩ := isChapterId_shape hid
  rw [hchapter, Option.filter_eq_some_iff] at hn
  simp only [namesChapter, hb, Bool.and_eq_true, decide_eq_true_eq]
  refine ⟨?_, hnumberOf.trans hn.1⟩
  rw [hshape]
  simp

/-- The id of a section, as an anchor. -/
theorem meansSection_named {id : Str} {c m : ℕ} (h : sectionNumbersOf id = some (c, m)) :
    MeansSection c m id ∧ c < u32Bound ∧ m < u32Bound := by
  unfold sectionNumbersOf at h
  split at h
  · cases h
  · rename_i rest hrest
    have hid : id = ['s', 'e', 'c', '-'] ++ rest := by
      simp only [afterPrefix, Option.ite_none_right_eq_some, Option.some.injEq] at hrest
      obtain ⟨hstarts, rfl⟩ := hrest
      obtain ⟨t, ht⟩ := List.isPrefixOf_iff_prefix.mp hstarts
      simp [← ht]
    split at h
    · rename_i cpart mpart parts hsplit
      simp only [Option.ite_none_right_eq_some] at h
      obtain ⟨-, h⟩ := h
      split at h
      · rename_i i j hc hm
        simp only [Option.some.injEq, Prod.mk.injEq] at h
        obtain ⟨rfl, rfl⟩ := h
        refine ⟨?_, parseU32_lt hc, parseU32_lt hm⟩
        rw [hid]
        exact meansSection_of_numbers hsplit hc hm
      · cases h
    · cases h

/-! ## Places -/

/-- The id the catalog sees on a line. -/
def catalogId (ln : BookLine) : Option Str := (catalogHeading ln).bind (·.anchorId)

/-- The catalog sees no id in the book. -/
def Plain (lines : List BookLine) : Prop := ∀ ln ∈ lines, catalogId ln = none

/-- The line after `pre` is where the chapter numbered `n` starts. -/
inductive ChapterAt (lines : List BookLine) : ℕ → List BookLine → BookLine → Prop
  | counted {pre : List BookLine} {ln : BookLine} {post : List BookLine}
      (hplain : Plain lines) (hsplit : lines = pre ++ ln :: post) (hlevel : isH1 ln = true) :
      ChapterAt lines (pre.countP isH1 + 1) pre ln
  | named {pre : List BookLine} {ln : BookLine} {post : List BookLine} {id : Str} {n : ℕ}
      (hsplit : lines = pre ++ ln :: post) (hid : catalogId ln = some id)
      (hchapter : isChapterId id = true) (hn : chapterIdNumber id = some n) :
      ChapterAt lines n pre ln

/-- The line after `pre` is where section `m` of chapter `c` starts. -/
inductive SectionAt (lines : List BookLine) : ℕ → ℕ → List BookLine → BookLine → Prop
  | counted {pre : List BookLine} {chapter : BookLine} {mid : List BookLine} {ln : BookLine}
      {post : List BookLine} (hplain : Plain lines)
      (hsplit : lines = pre ++ chapter :: (mid ++ ln :: post)) (hchapter : isH1 chapter = true)
      (hmid : ∀ e ∈ mid, isH1 e = false) (hlevel : isH2 ln = true) :
      SectionAt lines (pre.countP isH1 + 1) (mid.countP isH2 + 1) (pre ++ chapter :: mid) ln
  | named {pre : List BookLine} {ln : BookLine} {post : List BookLine} {id : Str} {c m : ℕ}
      {before : List BookLine} {chapter : BookLine}
      (hsplit : lines = pre ++ ln :: post) (hid : catalogId ln = some id)
      (hchapterId : isChapterId id = false) (hsectionId : isSectionId id = true)
      (hnumbers : sectionNumbersOf id = some (c, m)) (hpos : 0 < c)
      (hplace : ChapterAt lines c before chapter) : SectionAt lines c m pre ln

/-! ## Entries of a counted book -/

/-- INTERNAL: a split of a list that is not empty is at its head or after it. -/
theorem exists_split_cons {α : Type} {a : α} {l : List α} {p : List α → α → List α → Prop} :
    (∃ pre x post, a :: l = pre ++ x :: post ∧ p pre x post) ↔
      p [] a l ∨ ∃ pre x post, l = pre ++ x :: post ∧ p (a :: pre) x post := by
  constructor
  · rintro ⟨pre, x, post, hsplit, h⟩
    cases pre with
    | nil =>
      simp only [List.nil_append, List.cons.injEq] at hsplit
      obtain ⟨rfl, rfl⟩ := hsplit
      exact .inl h
    | cons b pre =>
      simp only [List.cons_append, List.cons.injEq] at hsplit
      obtain ⟨rfl, hl⟩ := hsplit
      exact .inr ⟨pre, x, post, hl, h⟩
  · rintro (h | ⟨pre, x, post, hl, h⟩)
    · exact ⟨[], a, l, rfl, h⟩
    · exact ⟨a :: pre, x, post, by rw [hl]; rfl, h⟩

def chapterEntry (tables : CharTables) (h : Heading) (n : ℕ) (sections : List SectionOutline) :
    ChapterOutline :=
  { index := n % u32Bound, title := h.title, slug := slugify tables h.title, sections := sections,
    anchorId := none, line := h.line }

def sectionEntry (h : Heading) (m : ℕ) : SectionOutline :=
  { index := m % u32Bound, title := h.title, anchorId := none, line := h.line }

/-- The sections of the lines up to the next chapter, `k` of them being before. -/
def sectionsFrom : ℕ → List BookLine → List SectionOutline
  | _, [] => []
  | k, ln :: rest =>
    match catalogHeading ln with
    | none => sectionsFrom k rest
    | some h =>
      if h.level = 1 then []
      else if h.level = 2 then sectionEntry h (k + 1) :: sectionsFrom (k + 1) rest
      else sectionsFrom k rest

/-- The chapters of the lines, `k` of them being before. -/
def chaptersFrom (tables : CharTables) : ℕ → List BookLine → List ChapterOutline
  | _, [] => []
  | k, ln :: rest =>
    match catalogHeading ln with
    | none => chaptersFrom tables k rest
    | some h =>
      if h.level = 1 then
        chapterEntry tables h (k + 1) (sectionsFrom 0 rest) :: chaptersFrom tables (k + 1) rest
      else chaptersFrom tables k rest

/-- INTERNAL: the fold goes on from its last chapter. -/
theorem foldl_plainStep_snoc (tables : CharTables) (lines : List BookLine)
    (acc : List ChapterOutline) (ch : ChapterOutline) :
    (lines.filterMap catalogHeading).foldl (plainStep tables) (acc ++ [ch]) =
      acc ++ { ch with sections := ch.sections ++ sectionsFrom ch.sections.length lines } ::
        chaptersFrom tables (acc.length + 1) lines := by
  induction lines generalizing acc ch with
  | nil => simp [sectionsFrom, chaptersFrom]
  | cons ln rest ih =>
    cases hh : catalogHeading ln with
    | none => simpa only [List.filterMap_cons, hh, sectionsFrom, chaptersFrom] using ih acc ch
    | some h =>
      simp only [List.filterMap_cons, hh, List.foldl_cons, sectionsFrom, chaptersFrom]
      by_cases h1 : h.level = 1
      · have hstep : plainStep tables (acc ++ [ch]) h =
            (acc ++ [ch]) ++ [chapterEntry tables h (acc.length + 1 + 1) []] := by
          simp [plainStep, h1, chapterEntry]
        rw [hstep, ih (acc ++ [ch])]
        simp [h1, chapterEntry]
      · by_cases h2 : h.level = 2
        · have hstep : plainStep tables (acc ++ [ch]) h =
              acc ++ [{ ch with sections :=
                ch.sections ++ [sectionEntry h (ch.sections.length + 1)] }] := by
            simp [plainStep, h2, sectionEntry]
          rw [hstep, ih acc]
          simp [h2]
        · have hstep : plainStep tables (acc ++ [ch]) h = acc ++ [ch] := by
            simp only [plainStep, h1, h2, if_false]
          rw [hstep, ih acc ch]
          simp only [h1, h2, if_false]

theorem foldl_plainStep (tables : CharTables) (lines : List BookLine) :
    (lines.filterMap catalogHeading).foldl (plainStep tables) [] = chaptersFrom tables 0 lines := by
  induction lines with
  | nil => rfl
  | cons ln rest ih =>
    cases hh : catalogHeading ln with
    | none => simpa only [List.filterMap_cons, hh, chaptersFrom] using ih
    | some h =>
      simp only [List.filterMap_cons, hh, List.foldl_cons, chaptersFrom]
      by_cases h1 : h.level = 1
      · have hstep : plainStep tables [] h = [] ++ [chapterEntry tables h 1 []] := by
          simp [plainStep, h1, chapterEntry]
        rw [hstep, foldl_plainStep_snoc]
        simp [h1, chapterEntry]
      · have hstep : plainStep tables [] h = [] := by
          simp [plainStep, h1]
        rw [hstep, ih]
        simp only [h1, if_false]

theorem mem_sectionsFrom {k : ℕ} {lines : List BookLine} {sec : SectionOutline} :
    sec ∈ sectionsFrom k lines ↔ ∃ mid ln post, lines = mid ++ ln :: post ∧
      (∀ e ∈ mid, isH1 e = false) ∧ ∃ h, catalogHeading ln = some h ∧ h.level = 2 ∧
        sec = sectionEntry h (k + mid.countP isH2 + 1) := by
  induction lines generalizing k with
  | nil => simp [sectionsFrom]
  | cons ln rest ih =>
    rw [exists_split_cons]
    have h1 := isH1_iff ln
    have h2 := isH2_iff ln
    cases hh : catalogHeading ln with
    | none =>
      simp only [hh, reduceCtorEq, false_and, exists_false, iff_false, Bool.not_eq_true] at h1 h2
      simp [sectionsFrom, hh, ih, h1, h2]
    | some h =>
      simp only [hh, Option.some.injEq, exists_eq_left'] at h1 h2
      by_cases hl1 : h.level = 1
      · simp [sectionsFrom, hh, hl1, h1.mpr hl1]
      · have hno1 : isH1 ln = false := by simpa using mt h1.mp hl1
        by_cases hl2 : h.level = 2
        · simp [sectionsFrom, hh, hl2, ih, hno1, h2.mpr hl2,
            Nat.add_assoc, Nat.add_comm 1]
        · have hno2 : isH2 ln = false := by simpa using mt h2.mp hl2
          simp [sectionsFrom, hh, hl1, hl2, ih, hno1, hno2]

theorem mem_chaptersFrom {tables : CharTables} {k : ℕ} {lines : List BookLine}
    {ch : ChapterOutline} :
    ch ∈ chaptersFrom tables k lines ↔ ∃ pre ln post, lines = pre ++ ln :: post ∧
      ∃ h, catalogHeading ln = some h ∧ h.level = 1 ∧
        ch = chapterEntry tables h (k + pre.countP isH1 + 1) (sectionsFrom 0 post) := by
  induction lines generalizing k with
  | nil => simp [chaptersFrom]
  | cons ln rest ih =>
    rw [exists_split_cons]
    have h1 := isH1_iff ln
    cases hh : catalogHeading ln with
    | none =>
      simp only [hh, reduceCtorEq, false_and, exists_false, iff_false, Bool.not_eq_true] at h1
      simp [chaptersFrom, hh, ih, h1]
    | some h =>
      simp only [hh, Option.some.injEq, exists_eq_left'] at h1
      by_cases hl1 : h.level = 1
      · simp [chaptersFrom, hh, hl1, ih, h1.mpr hl1, Nat.add_assoc,
          Nat.add_comm 1]
      · have hno1 : isH1 ln = false := by simpa using mt h1.mp hl1
        simp [chaptersFrom, hh, hl1, ih, hno1]

/-! ## Entries of a book with ids -/

/-- INTERNAL: sections are handed out, not made, and chapters keep all else. -/
theorem mem_assignSections {secs : List (ℕ × SectionOutline)} {chs : List ChapterOutline}
    {ch : ChapterOutline} (h : ch ∈ assignSections secs chs) :
    (∃ ch₀ ∈ chs, ch = { ch₀ with sections := ch.sections }) ∧
      ∀ sec ∈ ch.sections, (ch.index, sec) ∈ secs := by
  induction chs generalizing secs with
  | nil => cases h
  | cons first rest ih =>
    simp only [assignSections] at h
    rcases List.mem_cons.mp h with rfl | h
    · refine ⟨⟨first, List.mem_cons_self, rfl⟩, ?_⟩
      intro sec hsec
      rw [List.mem_insertionSort, List.mem_map] at hsec
      obtain ⟨⟨c, sec'⟩, hmem, rfl⟩ := hsec
      rw [List.mem_filter, decide_eq_true_eq] at hmem
      obtain ⟨hmem, rfl⟩ := hmem
      exact hmem
    · obtain ⟨⟨ch₀, hch₀, heq⟩, hsecs⟩ := ih h
      refine ⟨⟨ch₀, List.mem_cons_of_mem first hch₀, heq⟩, ?_⟩
      intro sec hsec
      exact List.mem_of_mem_filter (hsecs sec hsec)

theorem assignSections_keeps {secs : List (ℕ × SectionOutline)} {chs : List ChapterOutline}
    {ch : ChapterOutline} (h : ch ∈ chs) :
    ∃ sections, { ch with sections := sections } ∈ assignSections secs chs := by
  induction chs generalizing secs with
  | nil => cases h
  | cons first rest ih =>
    simp only [assignSections]
    rcases List.mem_cons.mp h with rfl | h
    · exact ⟨_, List.mem_cons_self⟩
    · obtain ⟨sections, hmem⟩ := ih h
      exact ⟨sections, List.mem_cons_of_mem _ hmem⟩

/-- INTERNAL: a section whose chapter there is has an entry. -/
theorem assignSections_hands {secs : List (ℕ × SectionOutline)} {chs : List ChapterOutline}
    {c : ℕ} {sec : SectionOutline} (hsec : (c, sec) ∈ secs) (hch : ∃ ch ∈ chs, ch.index = c) :
    ∃ ch ∈ assignSections secs chs, sec ∈ ch.sections := by
  induction chs generalizing secs with
  | nil =>
    obtain ⟨ch, hmem, -⟩ := hch
    cases hmem
  | cons first rest ih =>
    simp only [assignSections]
    by_cases hc : c = first.index
    · refine ⟨_, List.mem_cons_self, ?_⟩
      rw [List.mem_insertionSort, List.mem_map]
      exact ⟨(c, sec), List.mem_filter.mpr ⟨hsec, decide_eq_true hc⟩, rfl⟩
    · have hkeep : (c, sec) ∈ secs.filter fun e => e.1 ≠ first.index :=
        List.mem_filter.mpr ⟨hsec, decide_eq_true hc⟩
      obtain ⟨ch, hmem, hindex⟩ := hch
      rcases List.mem_cons.mp hmem with rfl | hmem
      · exact absurd hindex.symm hc
      · obtain ⟨ch', hch', hin⟩ := ih hkeep ⟨ch, hmem, hindex⟩
        exact ⟨ch', List.mem_cons_of_mem _ hch', hin⟩

theorem chapterOf_eq_some {tables : CharTables} {h : Heading} {ch : ChapterOutline} :
    chapterOf tables h = some ch ↔ ∃ id n, h.anchorId = some id ∧ isChapterId id = true ∧
      chapterIdNumber id = some n ∧
      ch = { index := n, title := h.title, slug := slugify tables h.title, sections := [],
             anchorId := some id, line := h.line } := by
  unfold chapterOf
  cases hid : h.anchorId with
  | none => simp
  | some id =>
    simp only [Option.ite_none_right_eq_some, Option.map_eq_some_iff, Option.some.injEq,
      exists_and_left, exists_eq_left']
    constructor
    · rintro ⟨hchapter, n, hn, rfl⟩
      exact ⟨hchapter, n, hn, rfl⟩
    · rintro ⟨hchapter, n, hn, rfl⟩
      exact ⟨hchapter, n, hn, rfl⟩

theorem sectionOf_eq_some {h : Heading} {c : ℕ} {sec : SectionOutline} :
    sectionOf h = some (c, sec) ↔ ∃ id m, h.anchorId = some id ∧ isChapterId id = false ∧
      isSectionId id = true ∧ sectionNumbersOf id = some (c, m) ∧ 0 < c ∧
      sec = { index := m, title := h.title, anchorId := some id, line := h.line } := by
  unfold sectionOf
  cases hid : h.anchorId with
  | none => simp
  | some id =>
    cases hchapter : isChapterId id with
    | true => simp [hchapter]
    | false =>
      simp only [hchapter, Bool.false_eq_true, if_false, Option.ite_none_right_eq_some,
        Option.map_eq_some_iff, Option.filter_eq_some_iff, decide_eq_true_eq, Prod.exists,
        Prod.mk.injEq, Option.some.injEq]
      constructor
      · rintro ⟨hsection, c', m, ⟨hnumbers, hpos⟩, rfl, rfl⟩
        exact ⟨id, m, rfl, hchapter, hsection, hnumbers, hpos, rfl⟩
      · rintro ⟨id', m, rfl, -, hsection, hnumbers, hpos, rfl⟩
        exact ⟨hsection, c, m, ⟨hnumbers, hpos⟩, rfl, rfl⟩

/-! ## Entries and places -/

/-- The lines of a book that both scanners look at. -/
def bookLines (text : Str) : List BookLine := openLines 0 false (splitInclusive text)

theorem catalogHeading_line {ln : BookLine} {h : Heading} (hh : catalogHeading ln = some h) :
    h.line = ln.offset := by
  simp only [catalogHeading] at hh
  split at hh
  · cases hh
    rfl
  · cases hh

theorem parseOutline_plain (tables : CharTables) {text : Str} (hplain : Plain (bookLines text)) :
    parseOutline tables text = chaptersFrom tables 0 (bookLines text) := by
  have hnone : ((bookLines text).filterMap catalogHeading).any (fun h => h.anchorId.isSome) =
      false := by
    rw [List.any_eq_false]
    intro h hmem
    rw [List.mem_filterMap] at hmem
    obtain ⟨ln, hln, hh⟩ := hmem
    have hid := hplain ln hln
    simp only [catalogId, hh, Option.bind_some] at hid
    simp [hid]
  unfold parseOutline
  rw [headings_eq]
  change (if ((bookLines text).filterMap catalogHeading).any _ then _ else
    ((bookLines text).filterMap catalogHeading).foldl _ _) = _
  rw [hnone, foldl_plainStep]
  rfl

theorem parseOutline_named (tables : CharTables) {text : Str}
    (hnamed : ¬ Plain (bookLines text)) :
    parseOutline tables text =
      anchoredOutline tables ((bookLines text).filterMap catalogHeading) := by
  have hsome : ((bookLines text).filterMap catalogHeading).any (fun h => h.anchorId.isSome) =
      true := by
    unfold Plain at hnamed
    push Not at hnamed
    obtain ⟨ln, hln, hid⟩ := hnamed
    rw [List.any_eq_true]
    obtain ⟨id, hid⟩ := Option.ne_none_iff_exists'.mp hid
    simp only [catalogId, Option.bind_eq_some_iff] at hid
    obtain ⟨h, hh, hid⟩ := hid
    exact ⟨h, List.mem_filterMap.mpr ⟨ln, hln, hh⟩, by simp [hid]⟩
  unfold parseOutline
  rw [headings_eq]
  change (if ((bookLines text).filterMap catalogHeading).any _ then _ else _) = _
  rw [hsome]
  rfl

theorem mem_anchoredOutline {tables : CharTables} {hs : List Heading} {ch : ChapterOutline} :
    ch ∈ anchoredOutline tables hs ↔
      ch ∈ assignSections (hs.filterMap sectionOf) (hs.filterMap (chapterOf tables)) :=
  List.mem_insertionSort _

/-- INTERNAL: the chapters of a book with ids are at its lines. -/
theorem mem_chapters_named {tables : CharTables} {lines : List BookLine} {ch : ChapterOutline} :
    ch ∈ (lines.filterMap catalogHeading).filterMap (chapterOf tables) ↔
      ∃ ln ∈ lines, ∃ h, catalogHeading ln = some h ∧ chapterOf tables h = some ch := by
  simp only [List.mem_filterMap]
  constructor
  · rintro ⟨h, ⟨ln, hln, hh⟩, hch⟩
    exact ⟨ln, hln, h, hh, hch⟩
  · rintro ⟨ln, hln, h, hh, hch⟩
    exact ⟨h, ⟨ln, hln, hh⟩, hch⟩

theorem mem_sections_named {lines : List BookLine} {e : ℕ × SectionOutline} :
    e ∈ (lines.filterMap catalogHeading).filterMap sectionOf ↔
      ∃ ln ∈ lines, ∃ h, catalogHeading ln = some h ∧ sectionOf h = some e := by
  simp only [List.mem_filterMap]
  constructor
  · rintro ⟨h, ⟨ln, hln, hh⟩, hsec⟩
    exact ⟨ln, hln, h, hh, hsec⟩
  · rintro ⟨ln, hln, h, hh, hsec⟩
    exact ⟨h, ⟨ln, hln, hh⟩, hsec⟩

/-- INTERNAL: the place of a chapter with an id. -/
theorem chapterAt_of_chapterOf {tables : CharTables} {lines : List BookLine} {ln : BookLine}
    {h : Heading} {ch : ChapterOutline} (hln : ln ∈ lines) (hh : catalogHeading ln = some h)
    (hch : chapterOf tables h = some ch) :
    ∃ pre id, ChapterAt lines ch.index pre ln ∧ ch.line = ln.offset ∧ ch.anchorId = some id ∧
      MeansChapter (ch.index % u32Bound) id := by
  obtain ⟨pre, post, hsplit⟩ := List.append_of_mem hln
  obtain ⟨id, n, hid, hchapter, hn, rfl⟩ := chapterOf_eq_some.mp hch
  have hmeans := meansChapter_named hchapter hn
  refine ⟨pre, id, .named hsplit ?_ hchapter hn, catalogHeading_line hh, rfl, ?_⟩
  · simp only [catalogId, hh, Option.bind_some, hid]
  · rw [Nat.mod_eq_of_lt hmeans.2.2]
    exact hmeans.1

/-- INTERNAL: the place of a section with an id, whose chapter has a place. -/
theorem sectionAt_of_sectionOf {lines before : List BookLine} {ln chapter : BookLine} {c : ℕ}
    {h : Heading} {sec : SectionOutline} (hln : ln ∈ lines) (hh : catalogHeading ln = some h)
    (hsec : sectionOf h = some (c, sec)) (hplace : ChapterAt lines c before chapter) :
    ∃ pre id, SectionAt lines c sec.index pre ln ∧ sec.line = ln.offset ∧
      sec.anchorId = some id ∧ MeansSection (c % u32Bound) (sec.index % u32Bound) id := by
  obtain ⟨pre, post, hsplit⟩ := List.append_of_mem hln
  obtain ⟨id, m, hid, hchapter, hsection, hnumbers, hpos, rfl⟩ := sectionOf_eq_some.mp hsec
  have hmeans := meansSection_named hnumbers
  refine ⟨pre, id, .named hsplit ?_ hchapter hsection hnumbers hpos hplace,
    catalogHeading_line hh, rfl, ?_⟩
  · simp only [catalogId, hh, Option.bind_some, hid]
  · rw [Nat.mod_eq_of_lt hmeans.2.1, Nat.mod_eq_of_lt hmeans.2.2]
    exact hmeans.1

theorem chapterAnchorId_named {ch : ChapterOutline} {id : Str} (h : ch.anchorId = some id) :
    chapterAnchorId ch = id := by
  simp only [chapterAnchorId, h]

theorem sectionAnchorId_named (tables : CharTables) (ch : ChapterOutline) {sec : SectionOutline}
    {id : Str} (h : sec.anchorId = some id) : sectionAnchorId tables ch sec = id := by
  simp only [sectionAnchorId, h]

theorem mod_lt (n : ℕ) : n % u32Bound < u32Bound := Nat.mod_lt n (by decide)

theorem meansChapter_entry (tables : CharTables) (h : Heading) (n : ℕ)
    (sections : List SectionOutline) :
    MeansChapter (n % u32Bound) (chapterAnchorId (chapterEntry tables h n sections)) := by
  have hindex : (chapterEntry tables h n sections).index < u32Bound := mod_lt n
  exact meansChapter_counted rfl hindex

theorem meansSection_entry (tables : CharTables) (hc h : Heading) (c m : ℕ)
    (sections : List SectionOutline) :
    MeansSection (c % u32Bound) (m % u32Bound)
      (sectionAnchorId tables (chapterEntry tables hc c sections) (sectionEntry h m)) := by
  have hch : (chapterEntry tables hc c sections).index < u32Bound := mod_lt c
  have hsec : (sectionEntry h m).index < u32Bound := mod_lt m
  exact meansSection_counted tables rfl hch hsec

theorem mem_of_split {lines pre post : List BookLine} {ln : BookLine}
    (h : lines = pre ++ ln :: post) : ln ∈ lines := by
  rw [h]
  exact List.mem_append_right pre List.mem_cons_self

/-- Every chapter of the outline has a place, and its anchor the number of the place. -/
theorem chapter_has_place {tables : CharTables} {text : Str} {ch : ChapterOutline}
    (h : ch ∈ parseOutline tables text) :
    ∃ n pre ln, ChapterAt (bookLines text) n pre ln ∧ ch.line = ln.offset ∧
      MeansChapter (n % u32Bound) (chapterAnchorId ch) := by
  by_cases hplain : Plain (bookLines text)
  · rw [parseOutline_plain tables hplain, mem_chaptersFrom] at h
    simp only [Nat.zero_add] at h
    obtain ⟨pre, ln, post, hsplit, hd, hh, hlevel, rfl⟩ := h
    refine ⟨_, pre, ln, .counted hplain hsplit ((isH1_iff ln).mpr ⟨hd, hh, hlevel⟩),
      catalogHeading_line hh, ?_⟩
    exact meansChapter_entry tables hd _ _
  · rw [parseOutline_named tables hplain, mem_anchoredOutline] at h
    obtain ⟨⟨ch₀, hch₀, heq⟩, -⟩ := mem_assignSections h
    obtain ⟨ln, hln, hd, hh, hch⟩ := mem_chapters_named.mp hch₀
    obtain ⟨pre, id, hplace, hline, hid, hmeans⟩ := chapterAt_of_chapterOf hln hh hch
    refine ⟨ch₀.index, pre, ln, hplace, ?_, ?_⟩
    · rw [heq]
      exact hline
    · rw [chapterAnchorId_named (show ch.anchorId = some id by rw [heq]; exact hid)]
      exact hmeans

/-- Every section of the outline has a place, and its anchor the numbers of the place. -/
theorem section_has_place {tables : CharTables} {text : Str} {ch : ChapterOutline}
    {sec : SectionOutline} (h : ch ∈ parseOutline tables text) (hsec : sec ∈ ch.sections) :
    ∃ c m pre ln, SectionAt (bookLines text) c m pre ln ∧ sec.line = ln.offset ∧
      MeansSection (c % u32Bound) (m % u32Bound) (sectionAnchorId tables ch sec) := by
  by_cases hplain : Plain (bookLines text)
  · rw [parseOutline_plain tables hplain, mem_chaptersFrom] at h
    simp only [Nat.zero_add] at h
    obtain ⟨pre, chapter, post, hsplit, hc, hhc, hlevelc, rfl⟩ := h
    have hin := mem_sectionsFrom.mp hsec
    simp only [Nat.zero_add] at hin
    obtain ⟨mid, ln, rest, hpost, hmid, hd, hh, hlevel, rfl⟩ := hin
    rw [hpost] at hsplit
    refine ⟨_, _, _, ln, .counted hplain hsplit ((isH1_iff chapter).mpr ⟨hc, hhc, hlevelc⟩) hmid
      ((isH2_iff ln).mpr ⟨hd, hh, hlevel⟩), catalogHeading_line hh, ?_⟩
    exact meansSection_entry tables hc hd _ _ _
  · rw [parseOutline_named tables hplain, mem_anchoredOutline] at h
    obtain ⟨⟨ch₀, hch₀, heq⟩, hsecs⟩ := mem_assignSections h
    have hindex : ch.index = ch₀.index := by rw [heq]
    obtain ⟨chapter, hchapter, hc, hhc, hch⟩ := mem_chapters_named.mp hch₀
    obtain ⟨before, -, hplace, -, -, -⟩ := chapterAt_of_chapterOf hchapter hhc hch
    rw [← hindex] at hplace
    obtain ⟨ln, hln, hd, hh, hsecOf⟩ := mem_sections_named.mp (hsecs sec hsec)
    obtain ⟨pre, id, hat, hline, hid, hmeans⟩ := sectionAt_of_sectionOf hln hh hsecOf hplace
    refine ⟨ch.index, sec.index, pre, ln, hat, hline, ?_⟩
    rw [sectionAnchorId_named tables ch hid]
    exact hmeans

theorem not_plain_of_catalogId {lines pre post : List BookLine} {ln : BookLine} {id : Str}
    (hsplit : lines = pre ++ ln :: post) (hid : catalogId ln = some id) : ¬ Plain lines := by
  intro hplain
  have hnone := hplain ln (mem_of_split hsplit)
  rw [hid] at hnone
  cases hnone

/-- INTERNAL: the chapter an id makes. -/
theorem chapterOf_of_id (tables : CharTables) {ln : BookLine} {id : Str} {n : ℕ}
    (hid : catalogId ln = some id) (hchapter : isChapterId id = true)
    (hn : chapterIdNumber id = some n) :
    ∃ h ch, catalogHeading ln = some h ∧ chapterOf tables h = some ch ∧ ch.index = n ∧
      ch.anchorId = some id := by
  simp only [catalogId, Option.bind_eq_some_iff] at hid
  obtain ⟨h, hh, hid⟩ := hid
  exact ⟨h, _, hh, chapterOf_eq_some.mpr ⟨id, n, hid, hchapter, hn, rfl⟩, rfl, rfl⟩

/-- Every place of a chapter has an entry. -/
theorem chapterAt_has_entry (tables : CharTables) {text : Str} {n : ℕ} {pre : List BookLine}
    {ln : BookLine} (h : ChapterAt (bookLines text) n pre ln) :
    ∃ ch ∈ parseOutline tables text, ch.line = ln.offset ∧
      MeansChapter (n % u32Bound) (chapterAnchorId ch) := by
  cases h with
  | @counted _ _ post hplain hsplit hlevel =>
    obtain ⟨hd, hh, hlevel⟩ := (isH1_iff ln).mp hlevel
    refine ⟨_, ?_, catalogHeading_line hh,
      meansChapter_entry tables hd (pre.countP isH1 + 1) (sectionsFrom 0 post)⟩
    rw [parseOutline_plain tables hplain, mem_chaptersFrom]
    exact ⟨pre, ln, post, hsplit, hd, hh, hlevel, by rw [Nat.zero_add]⟩
  | named hsplit hid hchapter hn =>
    obtain ⟨hd, ch, hh, hch, rfl, hchId⟩ := chapterOf_of_id tables hid hchapter hn
    have hmem := mem_chapters_named.mpr ⟨ln, mem_of_split hsplit, hd, hh, hch⟩
    obtain ⟨sections, hassigned⟩ := assignSections_keeps hmem
    obtain ⟨-, -, -, hline, -, -⟩ := chapterAt_of_chapterOf (mem_of_split hsplit) hh hch
    refine ⟨{ ch with sections := sections }, ?_, hline, ?_⟩
    · rw [parseOutline_named tables (not_plain_of_catalogId hsplit hid), mem_anchoredOutline]
      exact hassigned
    · have hmeans := meansChapter_named hchapter hn
      rw [Nat.mod_eq_of_lt hmeans.2.2]
      simp only [chapterAnchorId, hchId]
      exact hmeans.1

/-- Every place of a section has an entry. -/
theorem sectionAt_has_entry (tables : CharTables) {text : Str} {c m : ℕ} {pre : List BookLine}
    {ln : BookLine} (h : SectionAt (bookLines text) c m pre ln) :
    ∃ ch ∈ parseOutline tables text, ∃ sec ∈ ch.sections, sec.line = ln.offset ∧
      MeansSection (c % u32Bound) (m % u32Bound) (sectionAnchorId tables ch sec) := by
  cases h with
  | @counted before chapter mid _ post hplain hsplit hchapter hmid hlevel =>
    obtain ⟨hc, hhc, hlevelc⟩ := (isH1_iff chapter).mp hchapter
    obtain ⟨hd, hh, hlevel⟩ := (isH2_iff ln).mp hlevel
    refine ⟨chapterEntry tables hc (before.countP isH1 + 1) (sectionsFrom 0 (mid ++ ln :: post)), ?_,
      sectionEntry hd (mid.countP isH2 + 1), ?_, catalogHeading_line hh,
      meansSection_entry tables hc hd _ _ _⟩
    · rw [parseOutline_plain tables hplain, mem_chaptersFrom]
      exact ⟨before, chapter, _, hsplit, hc, hhc, hlevelc, by rw [Nat.zero_add]⟩
    · refine mem_sectionsFrom.mpr ⟨mid, ln, post, rfl, hmid, hd, hh, hlevel, ?_⟩
      rw [Nat.zero_add]
  | named hsplit hid hchapterId hsectionId hnumbers hpos hplace =>
    have hnamed := not_plain_of_catalogId hsplit hid
    have hmeans := meansSection_named hnumbers
    simp only [catalogId, Option.bind_eq_some_iff] at hid
    obtain ⟨hd, hh, hid⟩ := hid
    have hsecOf := sectionOf_eq_some.mpr ⟨_, m, hid, hchapterId, hsectionId, hnumbers, hpos, rfl⟩
    have hsecMem := mem_sections_named.mpr ⟨ln, mem_of_split hsplit, hd, hh, hsecOf⟩
    have hchMem : ∃ ch ∈ ((bookLines text).filterMap catalogHeading).filterMap (chapterOf tables),
        ch.index = c := by
      cases hplace with
      | counted hplain => exact absurd hplain hnamed
      | named hsplit' hid' hchapter' hn' =>
        obtain ⟨hd', ch, hh', hch, hindex, -⟩ := chapterOf_of_id tables hid' hchapter' hn'
        exact ⟨ch, mem_chapters_named.mpr ⟨_, mem_of_split hsplit', hd', hh', hch⟩, hindex⟩
    obtain ⟨ch, hch, hin⟩ := assignSections_hands hsecMem hchMem
    refine ⟨ch, ?_, _, hin, catalogHeading_line hh, ?_⟩
    · rw [parseOutline_named tables hnamed, mem_anchoredOutline]
      exact hch
    · rw [sectionAnchorId_named tables ch rfl, Nat.mod_eq_of_lt hmeans.2.1,
        Nat.mod_eq_of_lt hmeans.2.2]
      exact hmeans.1

end Mycelium.Analysis.CatalogEntries
