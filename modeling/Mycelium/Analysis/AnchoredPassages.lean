import Mycelium.Analysis.BookPartition

/-!
# The passages of a book with ids

When the passage of an anchor is that of a heading with its id.

1. *Exactness.* The passage starts at a heading whose id has the numbers of the anchor and
   ends before the next heading that bounds it, or there is none (`Exact`).
2. *Chapters.* They are taken by ids only (`chapter_exact`).
3. *Sections.* One that no id names is counted, as in a book without ids: the passage is
   exact unless the count finds a section (`anchored_exact_iff`).
-/

set_option autoImplicit false

namespace Mycelium.Analysis.AnchoredPassages

open Mycelium.Model.Text
open Mycelium.Model.Outline
open Mycelium.Model.Passages
open Mycelium.Analysis.BookLines
open Mycelium.Analysis.CatalogEntries
open Mycelium.Analysis.BookCounting
open Mycelium.Analysis.PassageAnchors
open Mycelium.Analysis.BookPartition

/-- There is no passage, or it runs from a heading with the first property to the next one
that has the second. -/
def HeadingPassage (slug text anchor : Str) (maxChars : ℕ) (names : BookHeading → Bool)
    (bounds : BookHeading → BookHeading → Bool) : Prop :=
  (∃ a, extractPassageCapped slug anchor text maxChars = .error (.anchorNotFound a)) ∨
    ∃ pre h post p, bookHeadings text = pre ++ h :: post ∧ names h = true ∧
      extractPassageCapped slug anchor text maxChars = .ok p ∧ p.start = h.offset ∧
      p.text = (slice text (h.offset, nextOffset (bounds h) post text.length)).take maxChars

/-- A chapter is that of a `ch-` id up to the next `ch-` id, a section that of a `sec-` id up
to the next heading of its level or above. -/
structure Exact (slug text anchor : Str) (maxChars : ℕ) : Prop where
  chapter : ∀ n s, Anchor.parse anchor = .chapter n s →
    HeadingPassage slug text anchor maxChars (namesChapter n) fun _ => isChapterHeading
  sec : ∀ c m s, Anchor.parse anchor = .sec c m s →
    HeadingPassage slug text anchor maxChars (namesSection c m) fun h e => e.level ≤ h.level

theorem firstHeading_split {p : BookHeading → Bool} {hs rest : List BookHeading} {h : BookHeading}
    (hfirst : firstHeading p hs = some (h, rest)) : ∃ pre, hs = pre ++ h :: rest ∧ p h = true := by
  induction hs with
  | nil => cases hfirst
  | cons first hs ih =>
    simp only [firstHeading] at hfirst
    split at hfirst
    · rename_i hp
      cases hfirst
      exact ⟨[], rfl, hp⟩
    · obtain ⟨pre, hsplit, hp⟩ := ih hfirst
      exact ⟨first :: pre, by rw [hsplit]; rfl, hp⟩

/-- INTERNAL: a book with a heading is not blank. -/
theorem not_blank_of_heading {text : Str} {h : BookHeading} (hh : h ∈ bookHeadings text) :
    (trim text).isEmpty = false := by
  rw [bookHeadings_eq] at hh
  obtain ⟨ln, hln, hb⟩ := List.mem_filterMap.mp hh
  have hhash : '#' ∈ ln.raw := by
    simp only [readerHeading] at hb
    split at hb
    · rename_i hhead
      exact (List.dropWhile_suffix _).subset (List.mem_of_mem_head? hhead)
    · cases hb
  obtain ⟨pre, post, hsplit⟩ := List.append_of_mem hln
  obtain ⟨after, -, hdrop⟩ := drop_eq hsplit
  have hin : '#' ∈ text.drop ln.offset := by
    rw [hdrop]
    exact List.mem_append_left _ hhash
  exact trim_not_empty (List.mem_of_mem_drop hin) (by decide)

/-- INTERNAL: the passage of a heading that was found. -/
theorem headingPassage_of_span {slug text anchor : Str} {names : BookHeading → Bool}
    {bounds : BookHeading → BookHeading → Bool} {h : BookHeading} {pre post : List BookHeading}
    (maxChars : ℕ) (hblank : (trim text).isEmpty = false)
    (hsplit : bookHeadings text = pre ++ h :: post) (hnames : names h = true)
    (hspan : anchorSpan text anchor = .ok (h.offset, nextOffset (bounds h) post text.length)) :
    HeadingPassage slug text anchor maxChars names bounds := by
  have hread := extractPassageCapped_eq slug anchor maxChars hblank
  rw [hspan] at hread
  exact .inr ⟨pre, h, post, _, hsplit, hnames, hread, rfl, rfl⟩

theorem chapter_exact {slug text anchor s : Str} {n : ℕ} (maxChars : ℕ)
    (hid : ∃ h ∈ bookHeadings text, h.anchorId ≠ none)
    (hanchor : Anchor.parse anchor = .chapter n s) :
    HeadingPassage slug text anchor maxChars (namesChapter n) fun _ => isChapterHeading := by
  obtain ⟨b, hb, hsome⟩ := hid
  have hblank := not_blank_of_heading hb
  have hany : ((bookHeadings text).any fun h => h.anchorId.isSome) = true :=
    List.any_eq_true.mpr ⟨b, hb, Option.isSome_iff_ne_none.mpr hsome⟩
  have hspan : anchorSpan text anchor = extractChapter text n := by rw [anchorSpan, hanchor]
  simp only [extractChapter, hany, if_true] at hspan
  cases hfirst : firstHeading (namesChapter n) (bookHeadings text) with
  | none =>
    rw [hfirst] at hspan
    exact .inl ⟨_, no_passage hblank hspan⟩
  | some r =>
    obtain ⟨h, post⟩ := r
    rw [hfirst] at hspan
    obtain ⟨pre, hsplit, hnames⟩ := firstHeading_split hfirst
    exact headingPassage_of_span maxChars hblank hsplit hnames hspan

/-- A section with an id is the one at its heading. -/
theorem section_exact {slug text anchor s : Str} {c m : ℕ} (maxChars : ℕ)
    (hnamed : ∃ h ∈ bookHeadings text, namesSection c m h = true)
    (hanchor : Anchor.parse anchor = .sec c m s) :
    HeadingPassage slug text anchor maxChars (namesSection c m) fun h e => e.level ≤ h.level := by
  obtain ⟨b, hb, hnames⟩ := hnamed
  have hspan : anchorSpan text anchor = extractSection text c m := by rw [anchorSpan, hanchor]
  rw [extractSection, anchoredSection_eq] at hspan
  cases hfirst : firstHeading (namesSection c m) (bookHeadings text) with
  | none =>
    rw [bookHeadings_eq] at hfirst hb
    obtain ⟨ln, hln, hln'⟩ := List.mem_filterMap.mp hb
    have hno := noneOf_of_firstHeading hfirst ln hln b hln'
    rw [hnames] at hno
    cases hno
  | some r =>
    obtain ⟨h, post⟩ := r
    rw [hfirst] at hspan
    obtain ⟨pre, hsplit, hp⟩ := firstHeading_split hfirst
    exact headingPassage_of_span maxChars (not_blank_of_heading hb) hsplit hp hspan

/-- A section without an id is what the count gives. -/
theorem section_counted_iff {slug text anchor s : Str} {c m maxChars : ℕ}
    (hblank : (trim text).isEmpty = false)
    (hnone : ∀ h ∈ bookHeadings text, namesSection c m h = false)
    (hanchor : Anchor.parse anchor = .sec c m s) :
    HeadingPassage slug text anchor maxChars (namesSection c m) (fun h e => e.level ≤ h.level) ↔
      ∀ part, (bookParts text)[c - 1]? = some part → part.body.countP isH2 < m := by
  have hspan := counted_section_span hanchor hnone
  obtain ⟨-, hm⟩ := section_pos hanchor
  constructor
  · rintro (⟨a, hread⟩ | ⟨pre, h, post, p, hsplit, hnames, -⟩) part hpart
    · by_contra hge
      have hin : m - 1 < part.sections.length := by
        rw [length_sections]
        omega
      rw [hpart] at hspan
      simp only [spanAt, List.getElem?_eq_getElem hin] at hspan
      rw [extractPassageCapped_eq slug anchor maxChars hblank, hspan] at hread
      cases hread
    · have hno : namesSection c m h = false := by
        apply hnone
        rw [hsplit]
        exact List.mem_append_right pre List.mem_cons_self
      rw [hnames] at hno
      cases hno
  · intro hfew
    left
    cases hpart : (bookParts text)[c - 1]? with
    | none =>
      rw [hpart] at hspan
      exact ⟨_, no_passage hblank hspan⟩
    | some part =>
      rw [hpart] at hspan
      have hlength : part.sections.length ≤ m - 1 := by
        have hcount := hfew part hpart
        rw [length_sections]
        omega
      simp only [spanAt, List.getElem?_eq_none hlength] at hspan
      exact ⟨_, no_passage hblank hspan⟩

/-- In a book with ids the passage is exact unless a section that no id names is found by
counting headings. -/
theorem anchored_exact_iff (slug : Str) {text : Str} (anchor : Str) (maxChars : ℕ)
    (hid : ∃ h ∈ bookHeadings text, h.anchorId ≠ none) :
    Exact slug text anchor maxChars ↔ ∀ c m s, Anchor.parse anchor = .sec c m s →
      (∃ h ∈ bookHeadings text, namesSection c m h = true) ∨
        ∀ part, (bookParts text)[c - 1]? = some part → part.body.countP isH2 < m := by
  have hblank : (trim text).isEmpty = false := by
    obtain ⟨b, hb, -⟩ := hid
    exact not_blank_of_heading hb
  constructor
  · intro hexact c m s hanchor
    by_cases hnamed : ∃ h ∈ bookHeadings text, namesSection c m h = true
    · exact .inl hnamed
    · right
      have hnone : ∀ h ∈ bookHeadings text, namesSection c m h = false :=
        fun h hh => Bool.eq_false_of_not_eq_true fun hnames => hnamed ⟨h, hh, hnames⟩
      exact (section_counted_iff hblank hnone hanchor).mp (hexact.sec c m s hanchor)
  · intro hcount
    refine ⟨fun n s hanchor => chapter_exact maxChars hid hanchor, ?_⟩
    intro c m s hanchor
    by_cases hnamed : ∃ h ∈ bookHeadings text, namesSection c m h = true
    · exact section_exact maxChars hnamed hanchor
    · have hnone : ∀ h ∈ bookHeadings text, namesSection c m h = false :=
        fun h hh => Bool.eq_false_of_not_eq_true fun hnames => hnamed ⟨h, hh, hnames⟩
      rcases hcount c m s hanchor with hnames | hfew
      · exact absurd hnames hnamed
      · exact (section_counted_iff hblank hnone hanchor).mpr hfew

/-- A chapter with an id, and a section without. -/
def halfNamedBook : Str := "# A \x7b#ch-1-a\x7d\n## B\n".toList

theorem anchored_exact_chapter : Exact [] halfNamedBook "ch-1-a".toList 40 :=
  (anchored_exact_iff [] _ 40 (by decide)).mpr (by
    intro c m s hanchor
    have hparse : Anchor.parse "ch-1-a".toList = .chapter 1 ['a'] := by decide
    rw [hparse] at hanchor
    cases hanchor)

/-- The section is served by counting. -/
theorem counted_section_served : ¬ ∀ slug text anchor maxChars,
    (∃ h ∈ bookHeadings text, h.anchorId ≠ none) → Exact slug text anchor maxChars := by
  intro hall
  have hexact := hall [] halfNamedBook "sec-1-1-b".toList 40 (by decide)
  have hread : extractPassageCapped [] "sec-1-1-b".toList halfNamedBook 40 =
      .ok { slug := [], anchor := "sec-1-1-b".toList, text := "## B\n".toList, start := 14 } := by
    decide
  have hnone : ∀ h ∈ bookHeadings halfNamedBook, namesSection 1 1 h = false := by decide
  obtain ⟨a, herror⟩ | ⟨pre, h, post, p, hsplit, hnames, -⟩ := hexact.sec 1 1 ['b'] (by decide)
  · rw [hread] at herror
    cases herror
  · have hno : namesSection 1 1 h = false := by
      apply hnone
      rw [hsplit]
      exact List.mem_append_right pre List.mem_cons_self
    rw [hnames] at hno
    cases hno

end Mycelium.Analysis.AnchoredPassages
