import Mycelium.Analysis.BookCounting

/-!
# Catalog anchors and the passages behind them

When the reader finds the heading line that a catalog entry came from.

1. *Counting.* The reader finds the chapter and the section with the number that the
   catalog counted (`countBasedChapter_found`, `countBasedSection_found`).
2. *Ids.* The reader takes the first heading whose id has the number (`FirstOf`).
3. *Passages.* A span that starts at a line and ends after it is a passage that begins with
   the line (`reads_of_span`, `span_of_reads`).
4. *Places.* A place is read exactly when the reader's rule leads there
   (`chapter_read_iff`, `section_read_iff`), and a book is when all its places are
   (`catalog_anchors_read_iff`).
-/

set_option autoImplicit false

namespace Mycelium.Analysis.PassageAnchors

open Mycelium.Model.Text
open Mycelium.Model.Outline
open Mycelium.Model.Passages
open Mycelium.Analysis.BookLines
open Mycelium.Analysis.CatalogEntries
open Mycelium.Analysis.BookCounting

/-! ## Counting -/

/-- The chapter with a number is found at the heading counted so far. -/
theorem countBasedChapter_found {text : Str} {pre post : List BookLine} {ln : BookLine}
    (hsplit : bookLines text = pre ++ ln :: post) (hln : isH1 ln = true) :
    ∃ stop, countBasedChapter (pre.countP isH1 + 1) 0 0 none false (splitInclusive text) =
      .ok (ln.offset, stop) ∧ ln.offset + ln.raw.length ≤ stop := by
  obtain ⟨hlater, hend⟩ := later_of_split hsplit
  have hpos : 0 < pre.countP isH1 + 1 := by omega
  refine ⟨nextPlace isH1 post text.length, ?_, le_nextPlace hlater hend⟩
  rw [countBasedChapter_eq text hpos, bookParts, span_partsOf, hsplit, spanAt,
    Nat.add_sub_cancel, span_of_split isH1 text.length post hln]
  rfl

/-- The section with a number, in the chapter with a number. -/
theorem countBasedSection_found {text : Str} {pre mid post : List BookLine}
    {chapter ln : BookLine} (hsplit : bookLines text = pre ++ chapter :: (mid ++ ln :: post))
    (hchapter : isH1 chapter = true) (hmid : ∀ e ∈ mid, isH1 e = false) (hln : isH2 ln = true) :
    ∃ stop, countBasedSection text (pre.countP isH1 + 1) (mid.countP isH2 + 1) =
      .ok (ln.offset, stop) ∧ ln.offset + ln.raw.length ≤ stop := by
  have hpart := @part_of_split text.length pre (mid ++ ln :: post) chapter hchapter
  have hat : bookLines text = (pre ++ chapter :: mid) ++ ln :: post := by
    rw [hsplit, List.append_assoc, List.cons_append]
  obtain ⟨hlater, hend⟩ := later_of_split hat
  have hbody : bodyOf (mid ++ ln :: post) = mid ++ ln :: bodyOf post := by
    unfold bodyOf
    rw [List.takeWhile_append_of_pos fun e he => by rw [hmid e he]; rfl,
      List.takeWhile_cons_of_pos (by rw [isH1_of_isH2 hln]; rfl)]
  have hstop : ln.offset + ln.raw.length ≤ nextPlace isH1 (mid ++ ln :: post) text.length := by
    have hfind : (mid ++ ln :: post).find? isH1 = post.find? isH1 := by
      rw [List.find?_append, List.find?_eq_none.mpr fun e he => ne_true_of_eq_false (hmid e he),
        List.find?_cons_of_neg (ne_true_of_eq_false (isH1_of_isH2 hln))]
      rfl
    rw [nextPlace, hfind]
    exact le_nextPlace hlater hend
  have hc : 0 < pre.countP isH1 + 1 := by omega
  have hm : 0 < mid.countP isH2 + 1 := by omega
  refine ⟨nextPlace isH2 (bodyOf post) (nextPlace isH1 (mid ++ ln :: post) text.length), ?_,
    le_nextPlace (fun e he => hlater e (List.takeWhile_subset _ he)) hstop⟩
  rw [countBasedSection_eq text hc hm, bookParts, hsplit,
    Nat.add_sub_cancel, hpart]
  simp only [Part.sections, hbody, spanAt, Nat.add_sub_cancel]
  rw [span_of_split isH2 _ (bodyOf post) hln]
  rfl

/-! ## Ids -/

/-- The line after `pre` is the first that the reader sees a heading with the property on. -/
def FirstOf (p : BookHeading → Bool) (pre : List BookLine) (ln : BookLine) : Prop :=
  (∃ b, readerHeading ln = some b ∧ p b = true) ∧
    ∀ e ∈ pre, ∀ b, readerHeading e = some b → p b = false

/-- The reader sees no heading with the property. -/
def NoneOf (p : BookHeading → Bool) (lines : List BookLine) : Prop :=
  ∀ e ∈ lines, ∀ b, readerHeading e = some b → p b = false

theorem readerHeading_offset {ln : BookLine} {b : BookHeading} (h : readerHeading ln = some b) :
    b.offset = ln.offset := by
  simp only [readerHeading, Option.map_eq_some_iff] at h
  obtain ⟨r, -, rfl⟩ := h
  rfl

/-- INTERNAL: the search of the reader ends at the first heading with the property. -/
theorem firstHeading_of_firstOf {p : BookHeading → Bool} {pre : List BookLine}
    {ln : BookLine} (post : List BookLine) (h : FirstOf p pre ln) :
    ∃ b, readerHeading ln = some b ∧ firstHeading p ((pre ++ ln :: post).filterMap readerHeading) =
      some (b, post.filterMap readerHeading) := by
  obtain ⟨⟨b, hb, hp⟩, hbefore⟩ := h
  refine ⟨b, hb, ?_⟩
  induction pre with
  | nil => simp [hb, firstHeading, hp]
  | cons first pre ih =>
    have hrest := ih fun e he => hbefore e (List.mem_cons_of_mem first he)
    cases hfirst : readerHeading first with
    | none => simpa [List.filterMap_cons, hfirst] using hrest
    | some b' =>
      have hno := hbefore first List.mem_cons_self b' hfirst
      simpa [List.filterMap_cons, hfirst, firstHeading, hno] using hrest

theorem firstOf_of_firstHeading {p : BookHeading → Bool} {lines : List BookLine} {b : BookHeading}
    {rest : List BookHeading} (h : firstHeading p (lines.filterMap readerHeading) = some (b, rest)) :
    ∃ pre ln post, lines = pre ++ ln :: post ∧ FirstOf p pre ln ∧ readerHeading ln = some b := by
  induction lines with
  | nil => cases h
  | cons first lines ih =>
    have hgo (hno : ∀ b', readerHeading first = some b' → p b' = false)
        (hrest : firstHeading p (lines.filterMap readerHeading) = some (b, rest)) :
        ∃ pre ln post, first :: lines = pre ++ ln :: post ∧ FirstOf p pre ln ∧
          readerHeading ln = some b := by
      obtain ⟨pre, ln, post, hlines, ⟨hln, hbefore⟩, hb⟩ := ih hrest
      refine ⟨first :: pre, ln, post, by rw [hlines]; rfl, ⟨hln, ?_⟩, hb⟩
      intro e he
      rcases List.mem_cons.mp he with rfl | he
      · exact hno
      · exact hbefore e he
    cases hfirst : readerHeading first with
    | none =>
      simp only [List.filterMap_cons, hfirst] at h
      apply hgo _ h
      intro b' hb'
      rw [hfirst] at hb'
      cases hb'
    | some b' =>
      simp only [List.filterMap_cons, hfirst, firstHeading] at h
      split at h
      · rename_i hp
        cases h
        exact ⟨[], first, lines, rfl, ⟨⟨b, hfirst, hp⟩, fun e he => absurd he List.not_mem_nil⟩,
          hfirst⟩
      · rename_i hp
        apply hgo _ h
        intro b'' hb''
        rw [hfirst] at hb''
        cases hb''
        exact Bool.eq_false_of_not_eq_true hp

theorem noneOf_of_firstHeading {p : BookHeading → Bool} {lines : List BookLine}
    (h : firstHeading p (lines.filterMap readerHeading) = none) : NoneOf p lines := by
  induction lines with
  | nil => exact fun e he => absurd he List.not_mem_nil
  | cons first lines ih =>
    intro e he b hb
    cases hfirst : readerHeading first with
    | none =>
      simp only [List.filterMap_cons, hfirst] at h
      rcases List.mem_cons.mp he with rfl | he
      · rw [hfirst] at hb
        cases hb
      · exact ih h e he b hb
    | some b' =>
      simp only [List.filterMap_cons, hfirst, firstHeading] at h
      split at h
      · cases h
      · rename_i hp
        rcases List.mem_cons.mp he with rfl | he
        · rw [hfirst] at hb
          cases hb
          exact Bool.eq_false_of_not_eq_true hp
        · exact ih h e he b hb

theorem firstHeading_of_noneOf {p : BookHeading → Bool} {lines : List BookLine}
    (h : NoneOf p lines) : firstHeading p (lines.filterMap readerHeading) = none := by
  cases hfirst : firstHeading p (lines.filterMap readerHeading) with
  | none => rfl
  | some r =>
    obtain ⟨b, rest⟩ := r
    obtain ⟨pre, ln, post, hlines, ⟨⟨b', hb', hp⟩, -⟩, -⟩ := firstOf_of_firstHeading hfirst
    have hno := h ln (mem_of_split hlines) b' hb'
    rw [hp] at hno
    cases hno

/-- INTERNAL: two headings at one place are one. -/
theorem split_unique {text : Str} {pre pre' post post' : List BookLine} {ln ln' : BookLine}
    (h : bookLines text = pre ++ ln :: post) (h' : bookLines text = pre' ++ ln' :: post')
    (hraw : 0 < ln.raw.length) (hraw' : 0 < ln'.raw.length) (hoff : ln.offset = ln'.offset) :
    pre = pre' ∧ ln = ln' := by
  have hboth := h.symm.trans h'
  rcases List.append_eq_append_iff.mp hboth with ⟨mid, hpre, hrest⟩ | ⟨mid, hpre, hrest⟩
  · cases mid with
    | nil =>
      simp only [List.nil_append, List.cons.injEq, List.append_nil] at hrest hpre
      exact ⟨hpre.symm, hrest.1⟩
    | cons first mid =>
      simp only [List.cons_append, List.cons.injEq] at hrest
      obtain ⟨rfl, hpost⟩ := hrest
      have hin : ln' ∈ post := by
        rw [hpost]
        simp
      have hlater := openLines_later h hin
      omega
  · cases mid with
    | nil =>
      simp only [List.nil_append, List.cons.injEq, List.append_nil] at hrest hpre
      exact ⟨hpre, hrest.1.symm⟩
    | cons first mid =>
      simp only [List.cons_append, List.cons.injEq] at hrest
      obtain ⟨rfl, hpost⟩ := hrest
      have hin : ln ∈ post' := by
        rw [hpost]
        simp
      have hlater := openLines_later h' hin
      omega

/-! ## Passages -/

/-- The anchor gives a passage that begins with the line at this place. -/
def Reads (slug anchor text : Str) (maxChars line : ℕ) : Prop :=
  ∃ p raw rest, extractPassageCapped slug anchor text maxChars = .ok p ∧ p.start = line ∧
    splitInclusive (text.drop line) = raw :: rest ∧ raw <+: p.text

/-- The span an anchor stands for. -/
def anchorSpan (text anchor : Str) : Except PassageError (ℕ × ℕ) :=
  match Anchor.parse anchor with
  | .chapter index _ => extractChapter text index
  | .sec chapter number _ => extractSection text chapter number
  | .other a => if a.isEmpty then .ok (0, text.length) else .error (.anchorNotFound a)

theorem extractPassageCapped_eq (slug anchor : Str) {text : Str} (maxChars : ℕ)
    (hblank : (trim text).isEmpty = false) :
    extractPassageCapped slug anchor text maxChars = (anchorSpan text anchor).map fun span =>
      { slug := slug, anchor := anchor, start := span.1,
        text := ((text.drop span.1).take (span.2 - span.1)).take maxChars } := by
  unfold extractPassageCapped anchorSpan
  simp only [hblank, Bool.false_eq_true, if_false]
  cases Anchor.parse anchor with
  | chapter index s => cases hspan : extractChapter text index <;> rfl
  | sec chapter number s => cases hspan : extractSection text chapter number <;> rfl
  | other a =>
    dsimp only
    split
    · rfl
    · rfl

theorem hash_mem_raw {ln : BookLine} {h : Heading} (hh : catalogHeading ln = some h) :
    '#' ∈ ln.raw := by
  simp only [catalogHeading] at hh
  split at hh
  · rename_i hhead
    obtain ⟨e, hraw, -⟩ := trimStart_stripLineEnd ln.raw
    simp only [isHeading, Bool.and_eq_true, decide_eq_true_eq] at hhead
    obtain ⟨c, hc⟩ := List.exists_mem_of_length_pos hhead.1.1
    have hhash : c = '#' := by simpa using List.mem_takeWhile_imp hc
    have hin : c ∈ trimStart ln.raw := by
      rw [hraw]
      exact List.mem_append_left e ((List.takeWhile_prefix _).subset hc)
    rw [← hhash]
    exact (List.dropWhile_suffix _).subset hin
  · cases hh

/-- INTERNAL: the text from a line on begins with the line. -/
theorem drop_eq {text : Str} {pre post : List BookLine} {ln : BookLine}
    (hsplit : bookLines text = pre ++ ln :: post) :
    ∃ after, splitInclusive (text.drop ln.offset) = ln.raw :: after ∧
      text.drop ln.offset = ln.raw ++ after.flatten := by
  obtain ⟨after, hpieces, -, -⟩ := splitInclusive_at hsplit
  refine ⟨after, hpieces, ?_⟩
  rw [← flatten_splitInclusive (text.drop ln.offset), hpieces]
  rfl

theorem not_blank {text : Str} {pre post : List BookLine} {ln : BookLine} {h : Heading}
    (hsplit : bookLines text = pre ++ ln :: post) (hh : catalogHeading ln = some h) :
    (trim text).isEmpty = false := by
  obtain ⟨after, -, hdrop⟩ := drop_eq hsplit
  have hin : '#' ∈ text.drop ln.offset := by
    rw [hdrop]
    exact List.mem_append_left _ (hash_mem_raw hh)
  exact trim_not_empty (List.mem_of_mem_drop hin) (by decide)

/-- A span from a heading line past its end is a passage that begins with the line. -/
theorem reads_of_span {slug anchor text : Str} {maxChars stop : ℕ} {pre post : List BookLine}
    {ln : BookLine} {h : Heading} (hcap : text.length ≤ maxChars)
    (hsplit : bookLines text = pre ++ ln :: post) (hh : catalogHeading ln = some h)
    (hspan : anchorSpan text anchor = .ok (ln.offset, stop))
    (hstop : ln.offset + ln.raw.length ≤ stop) : Reads slug anchor text maxChars ln.offset := by
  obtain ⟨after, hpieces, hdrop⟩ := drop_eq hsplit
  refine ⟨{ slug := slug, anchor := anchor, start := ln.offset,
            text := ((text.drop ln.offset).take (stop - ln.offset)).take maxChars },
    ln.raw, after, ?_, rfl, hpieces, ?_⟩
  · rw [extractPassageCapped_eq slug anchor maxChars (not_blank hsplit hh), hspan]
    rfl
  · have hlen : ln.raw.length ≤ text.length := by
      have hle := congrArg List.length hdrop
      rw [List.length_drop, List.length_append] at hle
      omega
    rw [List.prefix_take_iff, List.prefix_take_iff, hdrop]
    exact ⟨⟨List.prefix_append _ _, by omega⟩, by omega⟩

theorem span_of_reads {slug anchor text : Str} {maxChars line : ℕ} {pre post : List BookLine}
    {ln : BookLine} {h : Heading} (hsplit : bookLines text = pre ++ ln :: post)
    (hh : catalogHeading ln = some h) (hreads : Reads slug anchor text maxChars line) :
    ∃ stop, anchorSpan text anchor = .ok (line, stop) := by
  obtain ⟨p, raw, rest, hp, hstart, -, -⟩ := hreads
  rw [extractPassageCapped_eq slug anchor maxChars (not_blank hsplit hh)] at hp
  cases hspan : anchorSpan text anchor with
  | error e =>
    rw [hspan] at hp
    cases hp
  | ok span =>
    rw [hspan] at hp
    cases hp
    rw [← hstart]
    exact ⟨span.2, rfl⟩

theorem anchorSpan_chapter (text : Str) {anchor : Str} {n : ℕ} (h : MeansChapter n anchor) :
    anchorSpan text anchor =
      if n = 0 then .error (.anchorNotFound anchor) else extractChapter text n := by
  unfold MeansChapter at h
  split at h
  · rename_i hn
    rw [anchorSpan, h.1, if_pos hn]
    simp [h.2]
  · rename_i hn
    obtain ⟨slug, hparse⟩ := h
    rw [anchorSpan, hparse, if_neg hn]

theorem anchorSpan_section (text : Str) {anchor : Str} {c m : ℕ} (h : MeansSection c m anchor) :
    anchorSpan text anchor =
      if c = 0 ∨ m = 0 then .error (.anchorNotFound anchor) else extractSection text c m := by
  unfold MeansSection at h
  split at h
  · rename_i hzero
    rw [anchorSpan, h.1, if_pos hzero]
    simp [h.2]
  · rename_i hzero
    obtain ⟨slug, hparse⟩ := h
    rw [anchorSpan, hparse, if_neg hzero]

/-! ## Places -/

def hasId (b : BookHeading) : Bool := b.anchorId.isSome

theorem bookHeadings_eq (text : Str) :
    bookHeadings text = (bookLines text).filterMap readerHeading :=
  collectHeadings_eq 0 false (splitInclusive text)

/-- INTERNAL: the reader sees an id exactly when some heading has one. -/
theorem any_id_iff (text : Str) :
    ((bookHeadings text).any fun b => b.anchorId.isSome) = true ↔
      ¬ NoneOf hasId (bookLines text) := by
  unfold NoneOf
  push Not
  rw [bookHeadings_eq, List.any_eq_true]
  constructor
  · rintro ⟨b, hb, hid⟩
    obtain ⟨ln, hln, hread⟩ := List.mem_filterMap.mp hb
    exact ⟨ln, hln, b, hread, ne_false_of_eq_true hid⟩
  · rintro ⟨ln, hln, b, hread, hid⟩
    exact ⟨b, List.mem_filterMap.mpr ⟨ln, hln, hread⟩, eq_true_of_ne_false hid⟩

theorem hasId_of_namesChapter {n : ℕ} {b : BookHeading} (h : namesChapter n b = true) :
    hasId b = true := by
  unfold namesChapter at h
  split at h
  · rename_i hid
    simp [hasId, hid]
  · cases h

theorem hasId_of_namesSection {c m : ℕ} {b : BookHeading} (h : namesSection c m b = true) :
    hasId b = true := by
  unfold namesSection at h
  split at h
  · rename_i hid
    simp [hasId, hid]
  · cases h

theorem not_noneOf_of_firstOf {p : BookHeading → Bool} {lines pre post : List BookLine}
    {ln : BookLine} (hsplit : lines = pre ++ ln :: post) (h : FirstOf p pre ln)
    (hid : ∀ b, p b = true → hasId b = true) : ¬ NoneOf hasId lines := by
  intro hnone
  obtain ⟨⟨b, hb, hp⟩, -⟩ := h
  have hno := hnone ln (mem_of_split hsplit) b hb
  rw [hid b hp] at hno
  cases hno

theorem chapterAt_split {lines pre : List BookLine} {ln : BookLine} {n : ℕ}
    (h : ChapterAt lines n pre ln) :
    ∃ post hd, lines = pre ++ ln :: post ∧ catalogHeading ln = some hd := by
  cases h with
  | counted hplain hsplit hlevel =>
    obtain ⟨hd, hh, -⟩ := (isH1_iff ln).mp hlevel
    exact ⟨_, hd, hsplit, hh⟩
  | named hsplit hid hchapter hn =>
    obtain ⟨hd, hh, -⟩ := Option.bind_eq_some_iff.mp hid
    exact ⟨_, hd, hsplit, hh⟩

theorem sectionAt_split {lines pre : List BookLine} {ln : BookLine} {c m : ℕ}
    (h : SectionAt lines c m pre ln) :
    ∃ post hd, lines = pre ++ ln :: post ∧ catalogHeading ln = some hd := by
  cases h with
  | counted hplain hsplit hchapter hmid hlevel =>
    obtain ⟨hd, hh, -⟩ := (isH2_iff ln).mp hlevel
    exact ⟨_, hd, by rw [hsplit, List.append_assoc]; rfl, hh⟩
  | named hsplit hid hchapterId hsectionId hnumbers hpos hplace =>
    obtain ⟨hd, hh, -⟩ := Option.bind_eq_some_iff.mp hid
    exact ⟨_, hd, hsplit, hh⟩

theorem sectionAt_chapter {lines pre : List BookLine} {ln : BookLine} {c m : ℕ}
    (h : SectionAt lines c m pre ln) : ∃ before chapter, ChapterAt lines c before chapter := by
  cases h with
  | counted hplain hsplit hchapter hmid hlevel => exact ⟨_, _, .counted hplain hsplit hchapter⟩
  | named hsplit hid hchapterId hsectionId hnumbers hpos hplace => exact ⟨_, _, hplace⟩

/-- INTERNAL: the id of a line is one the reader sees there. -/
theorem reader_sees_id {ln : BookLine} {id : Str} (h : catalogId ln = some id) :
    ∃ b, readerHeading ln = some b ∧ b.anchorId = some id := by
  obtain ⟨hd, hh, hid⟩ := Option.bind_eq_some_iff.mp h
  obtain ⟨b, hb, hbid, -⟩ := readerHeading_of_anchorId hh hid
  exact ⟨b, hb, hbid⟩

theorem raw_pos {ln : BookLine} {h : Heading} (hh : catalogHeading ln = some h) :
    0 < ln.raw.length := List.length_pos_of_mem (hash_mem_raw hh)

theorem raw_pos_of_reader {ln : BookLine} {b : BookHeading} (h : readerHeading ln = some b) :
    0 < ln.raw.length := by
  apply List.length_pos_of_ne_nil
  intro hnil
  rw [readerHeading, hnil] at h
  cases h

/-- INTERNAL: a search that ends at the place of a line ends at the line. -/
theorem firstOf_of_offset {text : Str} {p : BookHeading → Bool} {pre post : List BookLine}
    {ln : BookLine} {hd : Heading} {b : BookHeading} {rest : List BookHeading}
    (hsplit : bookLines text = pre ++ ln :: post) (hh : catalogHeading ln = some hd)
    (hfirst : firstHeading p (bookHeadings text) = some (b, rest)) (hoff : b.offset = ln.offset) :
    FirstOf p pre ln := by
  rw [bookHeadings_eq] at hfirst
  obtain ⟨pre', ln', post', hsplit', hfirstOf, hb⟩ := firstOf_of_firstHeading hfirst
  have hsame : ln.offset = ln'.offset := by
    rw [← hoff]
    exact readerHeading_offset hb
  obtain ⟨rfl, rfl⟩ := split_unique hsplit hsplit' (raw_pos hh) (raw_pos_of_reader hb) hsame
  exact hfirstOf

/-- INTERNAL: the next heading, if any, is after the line. -/
theorem nextOffset_after {text : Str} {pre post : List BookLine} {ln : BookLine}
    (hsplit : bookLines text = pre ++ ln :: post) (p : BookHeading → Bool) :
    ln.offset + ln.raw.length ≤
      nextOffset p (post.filterMap readerHeading) text.length := by
  unfold nextOffset
  cases hfind : (post.filterMap readerHeading).find? p with
  | none =>
    have hbounds := openLines_bounds (mem_of_split hsplit)
    rw [flatten_splitInclusive] at hbounds
    simp only [Option.map_none, Option.getD_none]
    omega
  | some b =>
    obtain ⟨later, hlater, hb⟩ := List.mem_filterMap.mp (List.mem_of_find?_eq_some hfind)
    simp only [Option.map_some, Option.getD_some]
    rw [readerHeading_offset hb]
    exact openLines_later hsplit hlater

/-- A chapter's place is read exactly when the reader sees no ids, or takes this line for the
chapter. -/
theorem chapter_read_iff {slug anchor text : Str} {maxChars n : ℕ} {pre : List BookLine}
    {ln : BookLine} (hcap : text.length ≤ maxChars) (hplace : ChapterAt (bookLines text) n pre ln)
    (hmeans : MeansChapter n anchor) (hpos : 0 < n) :
    Reads slug anchor text maxChars ln.offset ↔
      NoneOf hasId (bookLines text) ∨ FirstOf (namesChapter n) pre ln := by
  obtain ⟨post, hd, hsplit, hh⟩ := chapterAt_split hplace
  have hspan : anchorSpan text anchor = extractChapter text n := by
    rw [anchorSpan_chapter text hmeans, if_neg (by omega)]
  constructor
  · intro hreads
    obtain ⟨stop, hfound⟩ := span_of_reads hsplit hh hreads
    rw [hspan] at hfound
    by_cases hnone : NoneOf hasId (bookLines text)
    · exact .inl hnone
    · right
      simp only [extractChapter, (any_id_iff text).mpr hnone, if_true] at hfound
      split at hfound
      · rename_i b rest hfirst
        simp only [Except.ok.injEq, Prod.mk.injEq] at hfound
        exact firstOf_of_offset hsplit hh hfirst hfound.1
      · cases hfound
  · rintro (hnone | hfirst)
    · have hno : ((bookHeadings text).any fun b => b.anchorId.isSome) = false :=
        Bool.eq_false_of_not_eq_true fun hany => (any_id_iff text).mp hany hnone
      cases hplace with
      | counted hplain _ hlevel =>
        obtain ⟨stop, hfound, hstop⟩ := countBasedChapter_found hsplit hlevel
        refine reads_of_span hcap hsplit hh ?_ hstop
        rw [hspan]
        simp only [extractChapter, hno, Bool.false_eq_true, if_false]
        exact hfound
      | named _ hid hchapter hn =>
        obtain ⟨b, hb, hbid⟩ := reader_sees_id hid
        have hnoId := hnone ln (mem_of_split hsplit) b hb
        simp [hasId, hbid] at hnoId
    · have hsome := not_noneOf_of_firstOf hsplit hfirst fun b => hasId_of_namesChapter
      obtain ⟨b, hb, hfound⟩ := firstHeading_of_firstOf post hfirst
      rw [← hsplit, ← bookHeadings_eq] at hfound
      refine reads_of_span hcap hsplit hh ?_ (nextOffset_after hsplit isChapterHeading)
      rw [hspan]
      simp only [extractChapter, (any_id_iff text).mpr hsome, if_true, hfound,
        readerHeading_offset hb]

/-- INTERNAL: the search by ids, in a book where the reader sees one or not. -/
theorem anchoredSection_eq (text : Str) (c m : ℕ) :
    anchoredSection text c m = (firstHeading (namesSection c m) (bookHeadings text)).map fun r =>
      (r.1.offset, nextOffset (fun h => h.level ≤ r.1.level) r.2 text.length) := by
  simp only [anchoredSection]
  split
  · rename_i hall
    have hnone : NoneOf (namesSection c m) (bookLines text) := by
      intro ln hln b hb
      have hmem : b ∈ bookHeadings text := by
        rw [bookHeadings_eq]
        exact List.mem_filterMap.mpr ⟨ln, hln, hb⟩
      have hno := List.all_eq_true.mp hall b hmem
      rw [Option.isNone_iff_eq_none] at hno
      simp only [namesSection, hno]
    rw [bookHeadings_eq, firstHeading_of_noneOf hnone]
    rfl
  · rfl

/-- A section's place is read exactly when no id the reader sees names the section, or this
line is the first that does. -/
theorem section_read_iff {slug anchor text : Str} {maxChars c m : ℕ} {pre : List BookLine}
    {ln : BookLine} (hcap : text.length ≤ maxChars)
    (hplace : SectionAt (bookLines text) c m pre ln) (hmeans : MeansSection c m anchor)
    (hc : 0 < c) (hm : 0 < m) :
    Reads slug anchor text maxChars ln.offset ↔
      NoneOf (namesSection c m) (bookLines text) ∨ FirstOf (namesSection c m) pre ln := by
  obtain ⟨post, hd, hsplit, hh⟩ := sectionAt_split hplace
  have hspan : anchorSpan text anchor = extractSection text c m := by
    rw [anchorSpan_section text hmeans, if_neg (by omega)]
  constructor
  · intro hreads
    obtain ⟨stop, hfound⟩ := span_of_reads hsplit hh hreads
    rw [hspan, extractSection, anchoredSection_eq] at hfound
    cases hfirst : firstHeading (namesSection c m) (bookHeadings text) with
    | none =>
      rw [bookHeadings_eq] at hfirst
      exact .inl (noneOf_of_firstHeading hfirst)
    | some r =>
      rw [hfirst] at hfound
      simp only [Option.map_some, Except.ok.injEq, Prod.mk.injEq] at hfound
      exact .inr (firstOf_of_offset hsplit hh hfirst hfound.1)
  · rintro (hnone | hfirst)
    · cases hplace with
      | counted _ hsplit' hchapter hmid hlevel =>
        obtain ⟨stop, hfound, hstop⟩ := countBasedSection_found hsplit' hchapter hmid hlevel
        refine reads_of_span hcap hsplit hh ?_ hstop
        rw [hspan, extractSection, anchoredSection_eq, bookHeadings_eq,
          firstHeading_of_noneOf hnone]
        exact hfound
      | named _ hid hchapterId hsectionId hnumbers hpos hplace =>
        obtain ⟨b, hb, hbid⟩ := reader_sees_id hid
        have hno := hnone ln (mem_of_split hsplit) b hb
        simp [namesSection, hbid, hnumbers] at hno
    · obtain ⟨b, hb, hfound⟩ := firstHeading_of_firstOf post hfirst
      rw [← hsplit, ← bookHeadings_eq] at hfound
      refine reads_of_span hcap hsplit hh ?_
        (nextOffset_after hsplit fun h => decide (h.level ≤ b.level))
      rw [hspan, extractSection, anchoredSection_eq, hfound]
      simp only [Option.map_some, readerHeading_offset hb]

/-! ## Books -/

/-- Every anchor of the catalog gives a passage that begins with the line of its entry. -/
def AllRead (tables : CharTables) (slug text : Str) (maxChars : ℕ) : Prop :=
  ∀ ch ∈ parseOutline tables text,
    Reads slug (chapterAnchorId ch) text maxChars ch.line ∧
      ∀ sec ∈ ch.sections, Reads slug (sectionAnchorId tables ch sec) text maxChars sec.line

/-- The numbers of the catalog fit an anchor, and the reader takes no other line for them. -/
structure FoundAgain (lines : List BookLine) : Prop where
  chapters : ∀ {n : ℕ} {pre : List BookLine} {ln : BookLine}, ChapterAt lines n pre ln →
    n < u32Bound ∧ (NoneOf hasId lines ∨ FirstOf (namesChapter n) pre ln)
  sections : ∀ {c m : ℕ} {pre : List BookLine} {ln : BookLine}, SectionAt lines c m pre ln →
    0 < m ∧ m < u32Bound ∧
      (NoneOf (namesSection c m) lines ∨ FirstOf (namesSection c m) pre ln)

theorem u32Bound_pos : 0 < u32Bound := by decide

theorem chapterAt_pos {lines pre : List BookLine} {ln : BookLine} {n : ℕ}
    (h : ChapterAt lines n pre ln) : 0 < n := by
  cases h with
  | counted hplain hsplit hlevel => omega
  | named hsplit hid hchapter hn => exact (meansChapter_named hchapter hn).2.1

/-- INTERNAL: counting up to a number passes all smaller ones. -/
theorem exists_nth {α : Type} {p : α → Bool} {l : List α} {k : ℕ} (h : k < l.countP p) :
    ∃ pre a post, l = pre ++ a :: post ∧ p a = true ∧ pre.countP p = k := by
  induction l generalizing k with
  | nil => simp at h
  | cons x l ih =>
    rw [List.countP_cons] at h
    by_cases hx : p x = true
    · cases k with
      | zero => exact ⟨[], x, l, rfl, hx, rfl⟩
      | succ k =>
        rw [if_pos hx] at h
        obtain ⟨pre, a, post, hl, ha, hcount⟩ := ih (show k < l.countP p by omega)
        refine ⟨x :: pre, a, post, by rw [hl]; rfl, ha, ?_⟩
        rw [List.countP_cons, if_pos hx, hcount]
    · rw [if_neg hx] at h
      obtain ⟨pre, a, post, hl, ha, hcount⟩ := ih (show k < l.countP p by omega)
      refine ⟨x :: pre, a, post, by rw [hl]; rfl, ha, ?_⟩
      rw [List.countP_cons, if_neg hx, hcount, Nat.add_zero]

/-- INTERNAL: the anchor of a number 0 gives no passage. -/
theorem not_reads_of_zero {slug anchor text : Str} {maxChars line : ℕ} {pre post : List BookLine}
    {ln : BookLine} {hd : Heading} (hsplit : bookLines text = pre ++ ln :: post)
    (hh : catalogHeading ln = some hd)
    (hspan : anchorSpan text anchor = .error (.anchorNotFound anchor)) :
    ¬ Reads slug anchor text maxChars line := by
  intro hreads
  obtain ⟨stop, hfound⟩ := span_of_reads hsplit hh hreads
  rw [hspan] at hfound
  cases hfound

/-- INTERNAL: where all is read, chapters have numbers that fit. -/
theorem chapter_lt {tables : CharTables} {slug text : Str} {maxChars n : ℕ} {pre : List BookLine}
    {ln : BookLine} (hall : AllRead tables slug text maxChars)
    (h : ChapterAt (bookLines text) n pre ln) : n < u32Bound := by
  cases h with
  | named hsplit hid hchapter hn => exact (meansChapter_named hchapter hn).2.2
  | @counted _ _ post hplain hsplit hlevel =>
    by_contra hge
    have hcount : u32Bound - 1 < (bookLines text).countP isH1 := by
      rw [hsplit, List.countP_append, List.countP_cons, if_pos hlevel]
      have hpos := u32Bound_pos
      omega
    obtain ⟨before, chapter, rest, hat, hH1, hbefore⟩ := exists_nth hcount
    have hplace : ChapterAt (bookLines text) (before.countP isH1 + 1) before chapter :=
      .counted hplain hat hH1
    obtain ⟨hd, hh, -⟩ := (isH1_iff chapter).mp hH1
    obtain ⟨ch, hch, -, hmeans⟩ := chapterAt_has_entry tables hplace
    have hzero : (before.countP isH1 + 1) % u32Bound = 0 := by
      rw [hbefore, Nat.sub_add_cancel u32Bound_pos, Nat.mod_self]
    refine not_reads_of_zero hat hh ?_ (hall ch hch).1
    rw [anchorSpan_chapter text hmeans, if_pos hzero]

/-- INTERNAL: nor is there a section whose number is no number. -/
theorem section_mod_ne_zero {tables : CharTables} {slug text : Str} {maxChars c m : ℕ}
    {pre : List BookLine} {ln : BookLine} (hall : AllRead tables slug text maxChars)
    (h : SectionAt (bookLines text) c m pre ln) : m % u32Bound ≠ 0 := by
  intro hzero
  obtain ⟨post, hd, hsplit, hh⟩ := sectionAt_split h
  obtain ⟨ch, hch, sec, hsec, -, hmeans⟩ := sectionAt_has_entry tables h
  refine not_reads_of_zero hsplit hh ?_ ((hall ch hch).2 sec hsec)
  rw [anchorSpan_section text hmeans, if_pos (.inr hzero)]

theorem section_lt {tables : CharTables} {slug text : Str} {maxChars c m : ℕ}
    {pre : List BookLine} {ln : BookLine} (hall : AllRead tables slug text maxChars)
    (h : SectionAt (bookLines text) c m pre ln) : m < u32Bound := by
  cases h with
  | named hsplit hid hchapterId hsectionId hnumbers hpos hplace =>
    exact (meansSection_named hnumbers).2.2
  | @counted before chapter mid _ post hplain hsplit hchapter hmid hlevel =>
    by_contra hge
    have hcount : u32Bound - 1 < (mid ++ [ln]).countP isH2 := by
      rw [List.countP_append, List.countP_cons, if_pos hlevel]
      have hpos := u32Bound_pos
      omega
    obtain ⟨mid', ln', rest, hat, hH2, hmid'⟩ := exists_nth hcount
    have hlines : bookLines text = before ++ chapter :: (mid' ++ ln' :: (rest ++ post)) := by
      rw [hsplit, List.append_cons mid ln post, hat]
      simp
    have hno : ∀ e ∈ mid', isH1 e = false := by
      intro e he
      have hin : e ∈ mid ++ [ln] := by
        rw [hat]
        exact List.mem_append_left _ he
      rcases List.mem_append.mp hin with hin | hin
      · exact hmid e hin
      · rw [List.mem_singleton.mp hin]
        exact isH1_of_isH2 hlevel
    refine section_mod_ne_zero hall (.counted hplain hlines hchapter hno hH2) ?_
    rw [hmid', Nat.sub_add_cancel u32Bound_pos, Nat.mod_self]

/-- The catalog and the reader agree on a book exactly when the reader finds every place of the
catalog again. -/
theorem catalog_anchors_read_iff (tables : CharTables) (slug text : Str) {maxChars : ℕ}
    (hcap : text.length ≤ maxChars) :
    AllRead tables slug text maxChars ↔ FoundAgain (bookLines text) := by
  constructor
  · intro hall
    refine ⟨?_, ?_⟩
    · intro n pre ln hplace
      have hlt := chapter_lt hall hplace
      refine ⟨hlt, ?_⟩
      obtain ⟨ch, hch, hline, hmeans⟩ := chapterAt_has_entry tables hplace
      rw [Nat.mod_eq_of_lt hlt] at hmeans
      have hreads := (hall ch hch).1
      rw [hline] at hreads
      exact (chapter_read_iff hcap hplace hmeans (chapterAt_pos hplace)).mp hreads
    · intro c m pre ln hplace
      obtain ⟨before, chapter, hchapter⟩ := sectionAt_chapter hplace
      have hc := chapter_lt hall hchapter
      have hm := section_lt hall hplace
      have hne := section_mod_ne_zero hall hplace
      obtain ⟨ch, hch, sec, hsec, hline, hmeans⟩ := sectionAt_has_entry tables hplace
      rw [Nat.mod_eq_of_lt hm] at hne hmeans
      rw [Nat.mod_eq_of_lt hc] at hmeans
      have hreads := (hall ch hch).2 sec hsec
      rw [hline] at hreads
      have hpos : 0 < m := by omega
      exact ⟨hpos, hm,
        (section_read_iff hcap hplace hmeans (chapterAt_pos hchapter) hpos).mp hreads⟩
  · intro hfound ch hch
    refine ⟨?_, ?_⟩
    · obtain ⟨n, pre, ln, hplace, hline, hmeans⟩ := chapter_has_place hch
      obtain ⟨hlt, hreader⟩ := hfound.chapters hplace
      rw [Nat.mod_eq_of_lt hlt] at hmeans
      rw [hline]
      exact (chapter_read_iff hcap hplace hmeans (chapterAt_pos hplace)).mpr hreader
    · intro sec hsec
      obtain ⟨c, m, pre, ln, hplace, hline, hmeans⟩ := section_has_place hch hsec
      obtain ⟨before, chapter, hchapter⟩ := sectionAt_chapter hplace
      obtain ⟨hc, -⟩ := hfound.chapters hchapter
      obtain ⟨hpos, hm, hreader⟩ := hfound.sections hplace
      rw [Nat.mod_eq_of_lt hc, Nat.mod_eq_of_lt hm] at hmeans
      rw [hline]
      exact (section_read_iff hcap hplace hmeans (chapterAt_pos hchapter) hpos).mpr hreader

/-! ## Two books

The second is the smallest on which the two scanners differ: a blank after the id. -/

/-- The tables on ASCII. -/
def asciiTables : CharTables where
  isAlphanumeric := isAsciiAlphanumeric
  toLowercase := fun c => [c.toLower]

/-- A chapter with a section, both with ids. -/
def idBook : Str :=
  ['#', ' ', 'A', ' ', '{', '#', 'c', 'h', '-', '1', '-', 'a', '}', '\n',
   '#', '#', ' ', 'B', ' ', '{', '#', 's', 'e', 'c', '-', '1', '-', '1', '-', 'b', '}', '\n']

set_option maxRecDepth 4000 in
theorem foundAgain_idBook : FoundAgain (bookLines idBook) := by
  refine (catalog_anchors_read_iff asciiTables [] idBook (show idBook.length ≤ 40 by decide)).mp ?_
  have houtline : parseOutline asciiTables idBook =
      [{ index := 1, title := ['A'], slug := ['a'],
         sections := [{ index := 1, title := ['B'],
                        anchorId := some ['s', 'e', 'c', '-', '1', '-', '1', '-', 'b'], line := 14 }],
         anchorId := some ['c', 'h', '-', '1', '-', 'a'], line := 0 }] := by decide
  intro ch hch
  rw [houtline, List.mem_singleton] at hch
  subst hch
  refine ⟨⟨_, _, _, rfl, rfl, rfl, by decide⟩, ?_⟩
  intro sec hsec
  rw [List.mem_singleton] at hsec
  subst hsec
  exact ⟨_, _, _, rfl, rfl, rfl, by decide⟩

/-- A chapter with an id and a blank after it. -/
def blankBook : Str := ['#', ' ', 'A', ' ', '{', '#', 'a', '}', ' ', '\n']

/-- The catalog counts the chapter, the reader looks for its id. -/
theorem blankBook_not_read :
    ¬ ∀ (tables : CharTables) (slug text : Str) (maxChars : ℕ), text.length ≤ maxChars →
      AllRead tables slug text maxChars := by
  intro hall
  have houtline : parseOutline asciiTables blankBook =
      [{ index := 1, title := ['A', ' ', '{', '#', 'a', '}'], slug := ['a', '-', 'a'],
         sections := [], anchorId := none, line := 0 }] := by decide
  obtain ⟨⟨p, raw, rest, hp, -⟩, -⟩ := hall asciiTables [] blankBook 10 (by decide) _
    (by rw [houtline]; exact List.mem_singleton.mpr rfl)
  cases hp

end Mycelium.Analysis.PassageAnchors
