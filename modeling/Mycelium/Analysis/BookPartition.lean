import Mycelium.Analysis.PassageAnchors

/-!
# The partition of a plain book

What the passages of a book without ids make when they are put together.

1. *Slices.* Spans that follow each other cut consecutive slices, and together they are the
   slice from the first place to the end (`flatMap_spansOf`).
2. *Passages.* In a plain book the passage of an anchor is the slice at the position that
   its number counts to (`chapter_passage`, `section_passage`).
3. *Partition.* The chapters make up the text from the first heading on, and each chapter is
   its text before the first section and the sections (`plain_book_partition`).
-/

set_option autoImplicit false

namespace Mycelium.Analysis.BookPartition

open Mycelium.Model.Text
open Mycelium.Model.Outline
open Mycelium.Model.Passages
open Mycelium.Analysis.BookLines
open Mycelium.Analysis.CatalogEntries
open Mycelium.Analysis.BookCounting
open Mycelium.Analysis.PassageAnchors

/-! ## Slices -/

def slice (text : Str) (span : ℕ × ℕ) : Str := (text.drop span.1).take (span.2 - span.1)

theorem slice_append (text : Str) {a b c : ℕ} (hab : a ≤ b) (hbc : b ≤ c) :
    slice text (a, b) ++ slice text (b, c) = slice text (a, c) := by
  have hlength : c - a = (b - a) + (c - b) := by omega
  have hdrop : text.drop b = (text.drop a).drop (b - a) := by
    rw [List.drop_drop, Nat.add_sub_cancel' hab]
  unfold slice
  dsimp only
  rw [hlength, List.take_add, hdrop]

theorem slice_self (text : Str) (a : ℕ) : slice text (a, a) = [] := by
  unfold slice
  rw [Nat.sub_self, List.take_zero]

theorem slice_to_end (text : Str) (a : ℕ) : slice text (a, text.length) = text.drop a := by
  apply List.take_of_length_le
  rw [List.length_drop]

/-- The slices from one place to the next are the slice from the first to the end. -/
theorem flatMap_spansOf (text : Str) {stop : ℕ} {l : List ℕ} (hsorted : l.Pairwise (· ≤ ·))
    (hstop : ∀ s ∈ l, s ≤ stop) :
    (spansOf stop l).flatMap (slice text) = slice text (l.head?.getD stop, stop) := by
  induction l with
  | nil => exact (slice_self text stop).symm
  | cons s rest ih =>
    rw [List.pairwise_cons] at hsorted
    have hrest := ih hsorted.2 fun s' hs' => hstop s' (List.mem_cons_of_mem s hs')
    simp only [spansOf, List.flatMap_cons, hrest, List.head?_cons, Option.getD_some]
    cases rest with
    | nil =>
      show slice text (s, stop) ++ slice text (stop, stop) = slice text (s, stop)
      rw [slice_self, List.append_nil]
    | cons next rest =>
      have hnext : s ≤ next := hsorted.1 next List.mem_cons_self
      have hend : next ≤ stop := hstop next (List.mem_cons_of_mem s List.mem_cons_self)
      exact slice_append text hnext hend

/-- INTERNAL: lines stand in the order of their places. -/
theorem openLines_sorted (offset : ℕ) (inFence : Bool) (lines : List Str) :
    (openLines offset inFence lines).Pairwise fun a b => a.offset ≤ b.offset := by
  induction lines generalizing offset inFence with
  | nil => exact List.Pairwise.nil
  | cons raw rest ih =>
    simp only [openLines]
    split
    · exact ih _ _
    · split
      · exact ih _ _
      · refine List.pairwise_cons.mpr ⟨?_, ih _ _⟩
        intro later hlater
        have hbounds := (openLines_bounds hlater).1
        show offset ≤ later.offset
        omega

theorem places_sorted (p : BookLine → Bool) {lines : List BookLine}
    (h : lines.Pairwise fun a b => a.offset ≤ b.offset) : (places p lines).Pairwise (· ≤ ·) := by
  unfold places
  rw [List.pairwise_map]
  exact h.sublist List.filter_sublist

theorem mem_places {p : BookLine → Bool} {lines : List BookLine} {s : ℕ} (h : s ∈ places p lines) :
    ∃ ln ∈ lines, ln.offset = s := by
  obtain ⟨ln, hln, rfl⟩ := List.mem_map.mp h
  exact ⟨ln, List.mem_of_mem_filter hln, rfl⟩

theorem length_spansOf (stop : ℕ) (l : List ℕ) : (spansOf stop l).length = l.length := by
  induction l with
  | nil => rfl
  | cons s rest ih => rw [spansOf, List.length_cons, ih, List.length_cons]

theorem length_places (p : BookLine → Bool) (lines : List BookLine) :
    (places p lines).length = lines.countP p := by
  rw [places, List.length_map, List.countP_eq_length_filter]

theorem length_bookParts (text : Str) : (bookParts text).length = (bookLines text).countP isH1 := by
  rw [bookParts, ← List.length_map (f := Part.span), span_partsOf, length_spansOf, length_places]

theorem length_sections (part : Part) : part.sections.length = part.body.countP isH2 := by
  rw [Part.sections, length_spansOf, length_places]

/-! ## Passages -/

theorem parseChapter_shape {anchor : Str} {a : Anchor} (h : parseChapter anchor = some a) :
    a = .other anchor ∨ ∃ n s, a = .chapter n s ∧ 0 < n := by
  simp only [parseChapter] at h
  split at h
  · cases h
  · split at h
    · cases h
    · split at h
      · cases h
      · split at h
        · cases h
          exact .inl rfl
        · rename_i hne
          cases h
          exact .inr ⟨_, _, rfl, Nat.pos_of_ne_zero hne⟩

theorem parseSection_shape {anchor : Str} {a : Anchor} (h : parseSection anchor = some a) :
    a = .other anchor ∨ ∃ c m s, a = .sec c m s ∧ 0 < c ∧ 0 < m := by
  simp only [parseSection] at h
  split at h
  · cases h
  · split at h
    · split at h
      · split at h
        · cases h
          exact .inl rfl
        · rename_i hne
          cases h
          exact .inr ⟨_, _, _, rfl, by omega, by omega⟩
      · cases h
    · cases h

/-- An anchor names a chapter or a section by positive numbers, or is itself. -/
theorem parse_shape (anchor : Str) : Anchor.parse anchor = .other anchor ∨
    (∃ n s, Anchor.parse anchor = .chapter n s ∧ 0 < n) ∨
      ∃ c m s, Anchor.parse anchor = .sec c m s ∧ 0 < c ∧ 0 < m := by
  unfold Anchor.parse
  cases hchapter : parseChapter anchor with
  | some a =>
    rcases parseChapter_shape hchapter with rfl | hshape
    · exact .inl rfl
    · exact .inr (.inl hshape)
  | none =>
    cases hsection : parseSection anchor with
    | some a =>
      rcases parseSection_shape hsection with rfl | hshape
      · exact .inl rfl
      · exact .inr (.inr hshape)
    | none => exact .inl rfl

theorem chapter_pos {anchor s : Str} {n : ℕ} (h : Anchor.parse anchor = .chapter n s) : 0 < n := by
  rcases parse_shape anchor with hother | ⟨n', s', hchapter, hpos⟩ | ⟨c, m, s', hsection, -⟩
  · rw [hother] at h
    cases h
  · rw [hchapter] at h
    cases h
    exact hpos
  · rw [hsection] at h
    cases h

theorem section_pos {anchor s : Str} {c m : ℕ} (h : Anchor.parse anchor = .sec c m s) :
    0 < c ∧ 0 < m := by
  rcases parse_shape anchor with hother | ⟨n, s', hchapter, -⟩ | ⟨c', m', s', hsection, hpos⟩
  · rw [hother] at h
    cases h
  · rw [hchapter] at h
    cases h
  · rw [hsection] at h
    cases h
    exact hpos

/-- INTERNAL: the passage of a span that the cap leaves whole. -/
theorem passage_of_span {slug anchor text : Str} {maxChars : ℕ} {span : ℕ × ℕ}
    (hblank : (trim text).isEmpty = false) (hcap : text.length ≤ maxChars)
    (hspan : anchorSpan text anchor = .ok span) :
    ∃ p, extractPassageCapped slug anchor text maxChars = .ok p ∧ p.text = slice text span := by
  rw [extractPassageCapped_eq slug anchor maxChars hblank, hspan]
  refine ⟨_, rfl, ?_⟩
  apply List.take_of_length_le
  rw [List.length_take, List.length_drop]
  omega

theorem no_passage {slug anchor text : Str} {maxChars : ℕ} {e : PassageError}
    (hblank : (trim text).isEmpty = false) (hspan : anchorSpan text anchor = .error e) :
    extractPassageCapped slug anchor text maxChars = .error e := by
  rw [extractPassageCapped_eq slug anchor maxChars hblank, hspan]
  rfl

/-- The text has no heading with an id. -/
def NoIds (text : Str) : Prop := ∀ h ∈ bookHeadings text, h.anchorId = none

/-- In a plain book chapters are counted. -/
theorem chapter_span {anchor text s : Str} {n : ℕ} (hplain : NoIds text)
    (hanchor : Anchor.parse anchor = .chapter n s) :
    anchorSpan text anchor = spanAt (chapterNotFound n) ((bookParts text).map Part.span) (n - 1) := by
  have hno : ((bookHeadings text).any fun h => h.anchorId.isSome) = false := by
    rw [List.any_eq_false]
    intro h hh
    rw [hplain h hh]
    exact Bool.false_ne_true
  rw [anchorSpan, hanchor, ← countBasedChapter_eq text (chapter_pos hanchor)]
  simp only [extractChapter, hno, Bool.false_eq_true, if_false]

/-- INTERNAL: sections are counted where no id names them. -/
theorem counted_section_span {anchor text s : Str} {c m : ℕ}
    (hanchor : Anchor.parse anchor = .sec c m s)
    (hnone : ∀ h ∈ bookHeadings text, namesSection c m h = false) :
    anchorSpan text anchor = match (bookParts text)[c - 1]? with
      | none => .error (chapterNotFound c)
      | some part => spanAt (sectionNotFound c m) part.sections (m - 1) := by
  have hfirst : firstHeading (namesSection c m) (bookHeadings text) = none := by
    rw [bookHeadings_eq]
    apply firstHeading_of_noneOf
    intro ln hln b hb
    apply hnone
    rw [bookHeadings_eq]
    exact List.mem_filterMap.mpr ⟨ln, hln, hb⟩
  obtain ⟨hc, hm⟩ := section_pos hanchor
  rw [anchorSpan, hanchor]
  simp only [extractSection, anchoredSection_eq, hfirst, Option.map_none]
  exact countBasedSection_eq text hc hm

theorem section_span {anchor text s : Str} {c m : ℕ} (hplain : NoIds text)
    (hanchor : Anchor.parse anchor = .sec c m s) :
    anchorSpan text anchor = match (bookParts text)[c - 1]? with
      | none => .error (chapterNotFound c)
      | some part => spanAt (sectionNotFound c m) part.sections (m - 1) := by
  apply counted_section_span hanchor
  intro h hh
  rw [namesSection, hplain h hh]

/-! ## Partition -/

/-- The passages of several anchors, one after the other. -/
def readAll (slug text : Str) (maxChars : ℕ) (anchors : List Str) : Except PassageError Str :=
  (anchors.mapM fun a => extractPassageCapped slug a text maxChars).map fun ps =>
    ps.flatMap (·.text)

/-- INTERNAL: passages that are slices make up what the slices do. -/
theorem readAll_of_slices {slug text : Str} {maxChars : ℕ} {anchors : List Str}
    {spans : List (ℕ × ℕ)}
    (h : List.Forall₂ (fun a span => ∃ p, extractPassageCapped slug a text maxChars = .ok p ∧
      p.text = slice text span) anchors spans) :
    readAll slug text maxChars anchors = .ok (spans.flatMap (slice text)) := by
  induction h with
  | nil => rfl
  | @cons a span as spans hfirst hrest ih =>
    obtain ⟨p, hp, htext⟩ := hfirst
    unfold readAll at ih ⊢
    rw [List.mapM_cons, hp, List.flatMap_cons, ← htext]
    cases hps : as.mapM fun a => extractPassageCapped slug a text maxChars with
    | error e =>
      rw [hps] at ih
      cases ih
    | ok ps =>
      rw [hps] at ih
      have hjoined := Except.ok.inj ih
      rw [← hjoined]
      rfl

/-- INTERNAL: anchors that are numbered from 1 stand for the spans at their positions. -/
theorem readAll_numbered {slug text : Str} {maxChars : ℕ} {spans : List (ℕ × ℕ)}
    {anchors : ℕ → Str} (hblank : (trim text).isEmpty = false) (hcap : text.length ≤ maxChars)
    (hspan : ∀ (i : ℕ) (hi : i < spans.length), anchorSpan text (anchors (i + 1)) = .ok spans[i]) :
    readAll slug text maxChars ((List.range spans.length).map fun i => anchors (i + 1)) =
      .ok (spans.flatMap (slice text)) := by
  apply readAll_of_slices
  rw [List.forall₂_iff_get]
  refine ⟨by rw [List.length_map, List.length_range], ?_⟩
  intro i hi hi'
  rw [List.get_eq_getElem, List.get_eq_getElem, List.getElem_map, List.getElem_range]
  exact passage_of_span hblank hcap (hspan i hi')

/-- The text of a part before its first section. -/
def Part.intro (text : Str) (part : Part) : Str :=
  slice text (part.head.offset, nextPlace isH2 part.body part.stop)

/-- The reader splits a book into chapters and the chapters into sections, and knows no others. -/
structure Partitioned (slug text : Str) (maxChars : ℕ) : Prop where
  chapters : ∀ anchors : ℕ → Str,
    (∀ i < (bookLines text).countP isH1, ∃ s, Anchor.parse (anchors (i + 1)) = .chapter (i + 1) s) →
    readAll slug text maxChars
        ((List.range ((bookLines text).countP isH1)).map fun i => anchors (i + 1)) =
      .ok (text.drop (nextPlace isH1 (bookLines text) text.length))
  sections : ∀ (n : ℕ) (part : Part) (anchor s : Str) (anchors : ℕ → Str),
    (bookParts text)[n - 1]? = some part → Anchor.parse anchor = .chapter n s →
    (∀ i < part.body.countP isH2, ∃ s, Anchor.parse (anchors (i + 1)) = .sec n (i + 1) s) →
    ∃ p joined, extractPassageCapped slug anchor text maxChars = .ok p ∧
      readAll slug text maxChars
        ((List.range (part.body.countP isH2)).map fun i => anchors (i + 1)) = .ok joined ∧
      p.text = Part.intro text part ++ joined
  noChapter : ∀ (n : ℕ) (anchor s : Str), Anchor.parse anchor = .chapter n s →
    (bookLines text).countP isH1 < n →
    extractPassageCapped slug anchor text maxChars = .error (chapterNotFound n)
  noSection : ∀ (n m : ℕ) (anchor s : Str), Anchor.parse anchor = .sec n m s →
    (∀ part, (bookParts text)[n - 1]? = some part → part.body.countP isH2 < m) →
    ∃ a, extractPassageCapped slug anchor text maxChars = .error (.anchorNotFound a)

theorem length_spans (text : Str) :
    ((bookParts text).map Part.span).length = (bookLines text).countP isH1 := by
  rw [List.length_map, length_bookParts]

theorem chapters_joined {slug text : Str} {maxChars : ℕ} {anchors : ℕ → Str}
    (hblank : (trim text).isEmpty = false) (hplain : NoIds text) (hcap : text.length ≤ maxChars)
    (hanchors : ∀ i < (bookLines text).countP isH1,
      ∃ s, Anchor.parse (anchors (i + 1)) = .chapter (i + 1) s) :
    readAll slug text maxChars
        ((List.range ((bookLines text).countP isH1)).map fun i => anchors (i + 1)) =
      .ok (text.drop (nextPlace isH1 (bookLines text) text.length)) := by
  rw [← length_spans] at hanchors ⊢
  have hspan (i : ℕ) (hi : i < ((bookParts text).map Part.span).length) :
      anchorSpan text (anchors (i + 1)) = .ok ((bookParts text).map Part.span)[i] := by
    obtain ⟨s, hparse⟩ := hanchors i hi
    rw [chapter_span hplain hparse, Nat.add_sub_cancel, spanAt, List.getElem?_eq_getElem hi]
    rfl
  have hsorted : (places isH1 (bookLines text)).Pairwise (· ≤ ·) :=
    places_sorted isH1 (openLines_sorted 0 false _)
  rw [readAll_numbered hblank hcap hspan, bookParts, span_partsOf, flatMap_spansOf text hsorted,
    ← nextPlace_eq, slice_to_end]
  intro s hs
  obtain ⟨ln, hln, rfl⟩ := mem_places hs
  exact (Nat.le_add_right _ _).trans (bookLines_bound hln)

/-- INTERNAL: the lines before a heading stand before it. -/
theorem body_le_next {lines : List BookLine} {stop : ℕ} {ln : BookLine}
    (hsorted : lines.Pairwise fun a b => a.offset ≤ b.offset) (hstop : ∀ e ∈ lines, e.offset ≤ stop)
    (h : ln ∈ bodyOf lines) : ln.offset ≤ nextPlace isH1 lines stop := by
  induction lines with
  | nil => cases h
  | cons first rest ih =>
    rw [List.pairwise_cons] at hsorted
    rw [bodyOf_cons] at h
    rw [nextPlace_cons]
    by_cases hfirst : isH1 first = true
    · rw [if_pos hfirst] at h
      cases h
    · rw [if_neg hfirst] at h ⊢
      cases h with
      | head => exact le_nextPlace hsorted.1 (hstop _ List.mem_cons_self)
      | tail _ h => exact ih hsorted.2 (fun e he => hstop e (List.mem_cons_of_mem _ he)) h

/-- INTERNAL: the lines of a part stand in order between its heading and its end. -/
theorem body_bounds {text : Str} {i : ℕ} {part : Part} (h : (bookParts text)[i]? = some part) :
    part.body.Pairwise (fun a b => a.offset ≤ b.offset) ∧
      (∀ ln ∈ part.body, part.head.offset ≤ ln.offset ∧ ln.offset ≤ part.stop) ∧
      part.head.offset ≤ part.stop := by
  obtain ⟨pre, post, hsplit, -, -, hbody, hstop⟩ := split_of_part h
  have hsorted : (bookLines text).Pairwise fun a b => a.offset ≤ b.offset :=
    openLines_sorted 0 false _
  have hend : ∀ ln ∈ bookLines text, ln.offset ≤ text.length :=
    fun ln hln => (Nat.le_add_right _ _).trans (bookLines_bound hln)
  rw [hsplit] at hsorted hend
  obtain ⟨hhead, hpost⟩ := List.pairwise_cons.mp (List.pairwise_append.mp hsorted).2.1
  have hpostEnd : ∀ ln ∈ post, ln.offset ≤ text.length :=
    fun ln hln => hend ln (List.mem_append_right pre (List.mem_cons_of_mem _ hln))
  have hsub : part.body.Sublist post := by
    rw [hbody]
    exact List.takeWhile_sublist _
  refine ⟨hpost.sublist hsub, ?_, ?_⟩
  · intro ln hln
    refine ⟨hhead ln (hsub.subset hln), ?_⟩
    rw [hstop]
    rw [hbody] at hln
    exact body_le_next hpost hpostEnd hln
  · rw [hstop]
    exact le_nextPlace hhead (hend _ (List.mem_append_right pre List.mem_cons_self))

/-- A part is its text before the first section and the sections. -/
theorem part_eq_sections {text : Str} {i : ℕ} {part : Part} (h : (bookParts text)[i]? = some part) :
    slice text part.span = Part.intro text part ++ part.sections.flatMap (slice text) := by
  obtain ⟨hsorted, hlines, hstop⟩ := body_bounds h
  have hle : ∀ s ∈ places isH2 part.body, s ≤ part.stop := by
    intro s hs
    obtain ⟨ln, hln, rfl⟩ := mem_places hs
    exact (hlines ln hln).2
  have hfirst : part.head.offset ≤ nextPlace isH2 part.body part.stop :=
    le_nextPlace (fun ln hln => (hlines ln hln).1) hstop
  have hlast : nextPlace isH2 part.body part.stop ≤ part.stop := by
    unfold nextPlace
    cases hfind : part.body.find? isH2 with
    | none => exact le_refl _
    | some ln => exact (hlines ln (List.mem_of_find?_eq_some hfind)).2
  rw [Part.sections, flatMap_spansOf text (places_sorted isH2 hsorted) hle, ← nextPlace_eq]
  exact (slice_append text hfirst hlast).symm

theorem sections_joined {slug text anchor s : Str} {maxChars n : ℕ} {part : Part}
    {anchors : ℕ → Str} (hblank : (trim text).isEmpty = false) (hplain : NoIds text)
    (hcap : text.length ≤ maxChars) (hpart : (bookParts text)[n - 1]? = some part)
    (hanchor : Anchor.parse anchor = .chapter n s)
    (hanchors : ∀ i < part.body.countP isH2,
      ∃ s, Anchor.parse (anchors (i + 1)) = .sec n (i + 1) s) :
    ∃ p joined, extractPassageCapped slug anchor text maxChars = .ok p ∧
      readAll slug text maxChars
        ((List.range (part.body.countP isH2)).map fun i => anchors (i + 1)) = .ok joined ∧
      p.text = Part.intro text part ++ joined := by
  have hchapter : anchorSpan text anchor = .ok part.span := by
    rw [chapter_span hplain hanchor, spanAt, List.getElem?_map, hpart]
    rfl
  rw [← length_sections] at hanchors ⊢
  have hspan (i : ℕ) (hi : i < part.sections.length) :
      anchorSpan text (anchors (i + 1)) = .ok part.sections[i] := by
    obtain ⟨s, hparse⟩ := hanchors i hi
    rw [section_span hplain hparse, hpart, Nat.add_sub_cancel]
    simp only [spanAt]
    rw [List.getElem?_eq_getElem hi]
    rfl
  obtain ⟨p, hp, htext⟩ : ∃ p, extractPassageCapped slug anchor text maxChars = .ok p ∧
      p.text = slice text part.span := passage_of_span hblank hcap hchapter
  refine ⟨p, _, hp, readAll_numbered hblank hcap hspan, ?_⟩
  rw [htext, part_eq_sections hpart]

/-- In a book without ids chapters and sections are a partition of the text. -/
theorem plain_book_partition (slug : Str) {text : Str} {maxChars : ℕ}
    (hblank : (trim text).isEmpty = false) (hplain : ∀ h ∈ bookHeadings text, h.anchorId = none)
    (hcap : text.length ≤ maxChars) : Partitioned slug text maxChars where
  chapters := fun _ hanchors => chapters_joined hblank hplain hcap hanchors
  sections := fun _ _ _ _ _ hpart hanchor hanchors =>
    sections_joined hblank hplain hcap hpart hanchor hanchors
  noChapter := by
    intro n anchor s hanchor hbeyond
    apply no_passage hblank
    rw [chapter_span hplain hanchor, spanAt, List.getElem?_eq_none]
    · rfl
    · rw [length_spans]
      omega
  noSection := by
    intro n m anchor s hanchor hbeyond
    have hspan := section_span hplain hanchor
    cases hpart : (bookParts text)[n - 1]? with
    | none =>
      rw [hpart] at hspan
      exact ⟨_, no_passage hblank hspan⟩
    | some part =>
      rw [hpart] at hspan
      have hlength : part.sections.length ≤ m - 1 := by
        have hm := hbeyond part hpart
        rw [length_sections]
        omega
      simp only [spanAt, List.getElem?_eq_none hlength] at hspan
      exact ⟨_, no_passage hblank hspan⟩

/-- A line before the first chapter, a section, a heading in a fence and a second chapter. -/
def plainBook : Str := "x\n# A\n## B\n~~~\n# D\n~~~\n# C".toList

theorem plain_book_two_chapters : Partitioned [] plainBook 40 ∧
    readAll [] plainBook 40 ["ch-1-a".toList, "ch-2-c".toList] = .ok (plainBook.drop 2) :=
  ⟨plain_book_partition [] (by decide) (by decide) (by decide), by decide⟩

end Mycelium.Analysis.BookPartition
