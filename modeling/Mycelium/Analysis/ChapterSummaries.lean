import Mycelium.Analysis.BookPartition
import Mycelium.Model.Descriptions

/-!
# Whether a summary is of its own chapter

1. *Numbered lines.* The scan for descriptions numbers lines, the reader counts characters:
   the lines from one number up to another are the slice between their places (`slice_lines`).
2. *The scan.* It takes a chapter from its heading up to the next heading that bounds it
   (`catalogSpan_of_lines`, `lines_of_catalogSpan`).
3. *The reader.* So does the reader, with headings and bounds of its own
   (`readerSpan_iff`).
4. *Summaries.* The summary of an entry is that of its passage exactly when the entry at the
   position of its number has the heading and the bound that the reader finds
   (`chapter_described_iff`).
-/

set_option autoImplicit false

namespace Mycelium.Analysis.ChapterSummaries

open Mycelium.Model.Text
open Mycelium.Model.Outline
open Mycelium.Model.Passages
open Mycelium.Model.Catalog
open Mycelium.Model.Descriptions
open Mycelium.Analysis.TextLines
open Mycelium.Analysis.BookLines
open Mycelium.Analysis.CatalogEntries
open Mycelium.Analysis.BookCounting
open Mycelium.Analysis.PassageAnchors
open Mycelium.Analysis.BookPartition

/-! ## Numbered lines -/

/-- The lines outside fences with their numbers. -/
def numberedLines : ℕ → ℕ → Bool → List Str → List (ℕ × BookLine)
  | _, _, _, [] => []
  | line, offset, inFence, raw :: rest =>
    let next := offset + raw.length
    if isFence (trimStart raw) then numberedLines (line + 1) next (!inFence) rest
    else if inFence then numberedLines (line + 1) next inFence rest
    else (line, { offset := offset, raw := raw }) :: numberedLines (line + 1) next inFence rest

/-- The place of the line with a number. -/
def placeOf (lines : List Str) (i : ℕ) : ℕ := (lines.take i).flatten.length

theorem map_snd_numberedLines (line offset : ℕ) (inFence : Bool) (lines : List Str) :
    (numberedLines line offset inFence lines).map Prod.snd = openLines offset inFence lines := by
  induction lines generalizing line offset inFence with
  | nil => rfl
  | cons raw rest ih =>
    simp only [numberedLines, openLines]
    split
    · exact ih _ _ _
    · split
      · exact ih _ _ _
      · rw [List.map_cons, ih]

theorem numberedLines_place {line offset : ℕ} {inFence : Bool} {lines : List Str} {r : ℕ × BookLine}
    (h : r ∈ numberedLines line offset inFence lines) :
    ∃ k < lines.length, r.1 = line + k ∧ r.2.offset = offset + placeOf lines k := by
  induction lines generalizing line offset inFence with
  | nil => cases h
  | cons raw rest ih =>
    have hgo {fence : Bool} (hrest : r ∈ numberedLines (line + 1) (offset + raw.length) fence rest) :
        ∃ k < (raw :: rest).length, r.1 = line + k ∧
          r.2.offset = offset + placeOf (raw :: rest) k := by
      obtain ⟨k, hk, hline, hplace⟩ := ih hrest
      refine ⟨k + 1, Nat.succ_lt_succ hk, by omega, ?_⟩
      rw [hplace, placeOf, placeOf, List.take_succ_cons, List.flatten_cons, List.length_append]
      omega
    simp only [numberedLines] at h
    split at h
    · exact hgo h
    · split at h
      · exact hgo h
      · cases h with
        | head => exact ⟨0, Nat.succ_pos _, rfl, rfl⟩
        | tail _ h => exact hgo h

theorem numberedLines_sorted (line offset : ℕ) (inFence : Bool) (lines : List Str) :
    (numberedLines line offset inFence lines).Pairwise fun a b => a.1 < b.1 := by
  induction lines generalizing line offset inFence with
  | nil => exact List.Pairwise.nil
  | cons raw rest ih =>
    simp only [numberedLines]
    split
    · exact ih _ _ _
    · split
      · exact ih _ _ _
      · refine List.pairwise_cons.mpr ⟨?_, ih _ _ _⟩
        intro r hr
        obtain ⟨k, -, hline, -⟩ := numberedLines_place hr
        show line < r.1
        omega

/-- What the scan for descriptions sees on a line. -/
def numbered (r : ℕ × BookLine) : Option NumberedHeading :=
  (catalogHeading r.2).map fun h => { line := r.1, level := h.level, anchorId := h.anchorId }

theorem line_of_numbered {r : ℕ × BookLine} {h : NumberedHeading} (hr : numbered r = some h) :
    h.line = r.1 := by
  simp only [numbered, Option.map_eq_some_iff] at hr
  obtain ⟨_, -, rfl⟩ := hr
  rfl

theorem numberedHeadings_eq (line offset : ℕ) (inFence : Bool) (lines : List Str) :
    numberedHeadings line inFence lines =
      (numberedLines line offset inFence lines).filterMap numbered := by
  induction lines generalizing line offset inFence with
  | nil => rfl
  | cons raw rest ih =>
    simp only [numberedHeadings, numberedLines, isFence_trimStart]
    split
    · exact ih _ _ _
    · split
      · exact ih _ _ _
      · rw [List.filterMap_cons]
        simp only [numbered, catalogHeading]
        split
        · rw [ih _ (offset + raw.length)]
          rfl
        · exact ih _ _ _

theorem flatten_split (lines : List Str) (i : ℕ) :
    lines.flatten = (lines.take i).flatten ++ (lines.drop i).flatten := by
  rw [← List.flatten_append, List.take_append_drop]

/-- INTERNAL: a text from a line on. -/
theorem drop_placeOf (text : Str) (i : ℕ) :
    text.drop (placeOf (splitInclusive text) i) = ((splitInclusive text).drop i).flatten := by
  have hsplit := flatten_split (splitInclusive text) i
  rw [flatten_splitInclusive] at hsplit
  calc text.drop (placeOf (splitInclusive text) i)
      = (((splitInclusive text).take i).flatten ++ ((splitInclusive text).drop i).flatten).drop
          (placeOf (splitInclusive text) i) := by rw [← hsplit]
    _ = ((splitInclusive text).drop i).flatten := List.drop_left

/-- The lines from one number up to another. -/
theorem slice_lines (text : Str) {i j : ℕ} (h : i ≤ j) :
    slice text (placeOf (splitInclusive text) i, placeOf (splitInclusive text) j) =
      (((splitInclusive text).drop i).take (j - i)).flatten := by
  have hlength : placeOf (splitInclusive text) j - placeOf (splitInclusive text) i =
      (((splitInclusive text).drop i).take (j - i)).flatten.length := by
    have hsum : i + (j - i) = j := Nat.add_sub_cancel' h
    unfold placeOf
    nth_rewrite 1 [← hsum]
    rw [List.take_add, List.flatten_append, List.length_append]
    omega
  unfold slice
  dsimp only
  rw [drop_placeOf, hlength, flatten_split ((splitInclusive text).drop i) (j - i)]
  exact List.take_left

/-- INTERNAL: a passage of whole lines has these lines. -/
theorem splitInclusive_lines (text : Str) (i k : ℕ) :
    splitInclusive (((splitInclusive text).drop i).take k).flatten =
      ((splitInclusive text).drop i).take k := by
  have hfrom : splitInclusive ((splitInclusive text).drop i).flatten = (splitInclusive text).drop i := by
    rw [← drop_placeOf]
    exact splitInclusive_drop_flatten (List.take_append_drop i (splitInclusive text)).symm
  have hsplit := (List.take_append_drop k ((splitInclusive text).drop i)).symm
  exact splitInclusive_flatten (hfrom.trans hsplit)

theorem placeOf_length (text : Str) :
    placeOf (splitInclusive text) (splitInclusive text).length = text.length := by
  rw [placeOf, List.take_length, flatten_splitInclusive]

/-! ## The scan -/

/-- INTERNAL: the heading after `n` others, as a split of the lines. -/
theorem nthHeading_iff {p : NumberedHeading → Bool} {n : ℕ} {l : List (ℕ × BookLine)}
    {h : NumberedHeading} {rest : List NumberedHeading} :
    nthHeading p n (l.filterMap numbered) = some (h, rest) ↔
      ∃ pre r post, l = pre ++ r :: post ∧ numbered r = some h ∧ p h = true ∧
        (pre.countP fun e => (numbered e).any p) = n ∧ rest = post.filterMap numbered := by
  induction l generalizing n with
  | nil =>
    constructor
    · intro hnth
      cases hnth
    · rintro ⟨pre, r, post, hl, -⟩
      cases pre <;> cases hl
  | cons first l ih =>
    have hskip {m : ℕ} (hn : m + (if (numbered first).any p then 1 else 0) = n)
        (hnth : nthHeading p n ((first :: l).filterMap numbered) = some (h, rest) ↔
          nthHeading p m (l.filterMap numbered) = some (h, rest))
        (hnot : ∀ h', numbered first = some h' → p h' = true → n ≠ 0) :
        nthHeading p n ((first :: l).filterMap numbered) = some (h, rest) ↔
          ∃ pre r post, first :: l = pre ++ r :: post ∧ numbered r = some h ∧ p h = true ∧
            (pre.countP fun e => (numbered e).any p) = n ∧ rest = post.filterMap numbered := by
      rw [hnth, ih]
      constructor
      · rintro ⟨pre, r, post, rfl, hr, hp, hcount, hrest⟩
        refine ⟨first :: pre, r, post, rfl, hr, hp, ?_, hrest⟩
        rw [List.countP_cons, hcount, hn]
      · rintro ⟨pre, r, post, hl, hr, hp, hcount, hrest⟩
        cases pre with
        | nil =>
          cases hl
          exact absurd hcount.symm (hnot h hr hp)
        | cons _ pre =>
          obtain ⟨rfl, rfl⟩ := List.cons.inj hl
          rw [List.countP_cons] at hcount
          exact ⟨pre, r, post, rfl, hr, hp, by omega, hrest⟩
    cases hfirst : numbered first with
    | none =>
      apply @hskip n
      · rw [hfirst]
        rfl
      · rw [List.filterMap_cons, hfirst]
      · intro h' hh'
        rw [hfirst] at hh'
        cases hh'
    | some h₁ =>
      by_cases hp : p h₁ = true
      · cases n with
        | zero =>
          have hnow : nthHeading p 0 ((first :: l).filterMap numbered) =
              some (h₁, l.filterMap numbered) := by
            rw [List.filterMap_cons, hfirst]
            simp only [nthHeading, hp, if_true]
          rw [hnow]
          constructor
          · intro hnth
            cases hnth
            exact ⟨[], first, l, rfl, hfirst, hp, rfl, rfl⟩
          · rintro ⟨pre, r, post, hl, hr, hp', hcount, hrest⟩
            cases pre with
            | nil =>
              cases hl
              rw [hfirst] at hr
              cases hr
              rw [hrest]
            | cons _ pre =>
              obtain ⟨rfl, rfl⟩ := List.cons.inj hl
              rw [List.countP_cons, hfirst] at hcount
              simp [hp] at hcount
        | succ n =>
          apply @hskip n
          · simp [hfirst, hp]
          · rw [List.filterMap_cons, hfirst]
            simp only [nthHeading, hp, if_true]
          · intro h' hh' hp'
            omega
      · apply @hskip n
        · simp [hfirst, hp]
        · rw [List.filterMap_cons, hfirst]
          simp only [nthHeading, hp]
          rfl
        · intro h' hh' hp'
          rw [hfirst] at hh'
          cases hh'
          exact absurd hp' hp

/-- INTERNAL: what the scan gives for the heading after `n` others that mark a chapter, and the
next one that bounds it. -/
def scanned (p q : NumberedHeading → Bool) (n : ℕ) (text : Str) : Option (ℕ × ℕ) :=
  (nthHeading p n (numberedHeadings 0 false (splitInclusive text))).map fun r =>
    (r.1.line, ((r.2.find? q).map (·.line)).getD (splitInclusive text).length)

/-- The number of the next line with a property, or that of the end. -/
def nextLine (p : BookLine → Bool) (post : List (ℕ × BookLine)) (stop : ℕ) : ℕ :=
  ((post.find? fun r => p r.2).map Prod.fst).getD stop

section Scan

variable {p q : NumberedHeading → Bool} {marks bounds : BookLine → Bool}

/-- INTERNAL: the scan looks at lines. -/
theorem nextLine_eq (hq : ∀ r, (numbered r).any q = bounds r.2) (post : List (ℕ × BookLine))
    (stop : ℕ) : (((post.filterMap numbered).find? q).map (·.line)).getD stop =
      nextLine bounds post stop := by
  have hnone {r : ℕ × BookLine} (h : numbered r = none) : bounds r.2 = false := by
    rw [← hq, h]
    rfl
  induction post with
  | nil => rfl
  | cons r post ih =>
    unfold nextLine at ih ⊢
    cases hr : numbered r with
    | none =>
      rw [List.filterMap_cons, hr, List.find?_cons, hnone hr]
      exact ih
    | some h =>
      have hbound : bounds r.2 = q h := by
        rw [← hq, hr]
        rfl
      have hline := line_of_numbered hr
      rw [List.filterMap_cons, hr]
      simp only [List.find?_cons, hbound]
      split
      · rw [Option.map_some, Option.map_some, hline]
      · exact ih

theorem scanned_iff (hp : ∀ r, (numbered r).any p = marks r.2)
    (hq : ∀ r, (numbered r).any q = bounds r.2) {n i j : ℕ} {text : Str} :
    scanned p q n text = some (i, j) ↔
      ∃ pre r post, numberedLines 0 0 false (splitInclusive text) = pre ++ r :: post ∧
        marks r.2 = true ∧ (pre.countP fun e => marks e.2) = n ∧ i = r.1 ∧
        j = nextLine bounds post (splitInclusive text).length := by
  rw [scanned, Option.map_eq_some_iff, numberedHeadings_eq 0 0]
  constructor
  · rintro ⟨⟨h, rest⟩, hnth, heq⟩
    obtain ⟨pre, r, post, hsplit, hr, hph, hcount, rfl⟩ := nthHeading_iff.mp hnth
    obtain ⟨hline, hnext⟩ := Prod.mk.inj heq
    refine ⟨pre, r, post, hsplit, ?_, ?_, ?_, ?_⟩
    · rw [← hp, hr]
      exact hph
    · simpa only [hp] using hcount
    · rw [← hline, line_of_numbered hr]
    · rw [← hnext, nextLine_eq hq]
  · rintro ⟨pre, r, post, hsplit, hmarks, hcount, rfl, rfl⟩
    rw [← hp, Option.any_eq_true] at hmarks
    obtain ⟨h, hr, hph⟩ := hmarks
    have hcount' : (pre.countP fun e => (numbered e).any p) = n := by
      simpa only [hp] using hcount
    refine ⟨(h, post.filterMap numbered),
      nthHeading_iff.mpr ⟨pre, r, post, hsplit, hr, hph, hcount', rfl⟩, ?_⟩
    dsimp only
    rw [line_of_numbered hr, nextLine_eq hq]

/-- INTERNAL: numbers and places of a split. -/
theorem places_of_split {text : Str} {pre post : List (ℕ × BookLine)} {r : ℕ × BookLine}
    (h : numberedLines 0 0 false (splitInclusive text) = pre ++ r :: post) :
    r.2.offset = placeOf (splitInclusive text) r.1 ∧
      r.1 < nextLine bounds post (splitInclusive text).length ∧
      nextPlace bounds (post.map Prod.snd) text.length =
        placeOf (splitInclusive text) (nextLine bounds post (splitInclusive text).length) := by
  have hplace {e : ℕ × BookLine} (he : e ∈ pre ++ r :: post) :
      e.1 < (splitInclusive text).length ∧ e.2.offset = placeOf (splitInclusive text) e.1 := by
    rw [← h] at he
    obtain ⟨k, hk, hline, hoffset⟩ := numberedLines_place he
    rw [Nat.zero_add] at hline hoffset
    rw [hline]
    exact ⟨hk, hoffset⟩
  have hsorted := numberedLines_sorted 0 0 false (splitInclusive text)
  rw [h] at hsorted
  have hlater := (List.pairwise_cons.mp (List.pairwise_append.mp hsorted).2.1).1
  have hself := hplace (List.mem_append_right pre List.mem_cons_self)
  refine ⟨hself.2, ?_, ?_⟩
  · unfold nextLine
    cases hfind : post.find? fun e => bounds e.2 with
    | none => exact hself.1
    | some e => exact hlater e (List.mem_of_find?_eq_some hfind)
  · unfold nextLine nextPlace
    rw [List.find?_map]
    cases hfind : post.find? fun e => bounds e.2 with
    | none =>
      have hnone : post.find? (bounds ∘ Prod.snd) = none := hfind
      rw [hnone]
      exact (placeOf_length text).symm
    | some e =>
      have hsome : post.find? (bounds ∘ Prod.snd) = some e := hfind
      have hmem := List.mem_cons_of_mem r (List.mem_of_find?_eq_some hfind)
      rw [hsome]
      exact (hplace (List.mem_append_right pre hmem)).2

/-- The scan takes the lines from a heading up to the next that bounds it. -/
theorem split_of_scanned (hp : ∀ r, (numbered r).any p = marks r.2)
    (hq : ∀ r, (numbered r).any q = bounds r.2) {n i j : ℕ} {text : Str}
    (h : scanned p q n text = some (i, j)) :
    i < j ∧ ∃ pre ln post, bookLines text = pre ++ ln :: post ∧ marks ln = true ∧
      pre.countP marks = n ∧ ln.offset = placeOf (splitInclusive text) i ∧
      nextPlace bounds post text.length = placeOf (splitInclusive text) j := by
  obtain ⟨pre, r, post, hsplit, hmarks, hcount, rfl, rfl⟩ := (scanned_iff hp hq).mp h
  obtain ⟨hplace, hlt, hnext⟩ := @places_of_split bounds _ _ _ _ hsplit
  refine ⟨hlt, pre.map Prod.snd, r.2, post.map Prod.snd, ?_, hmarks, ?_, hplace, hnext⟩
  · rw [bookLines, ← map_snd_numberedLines 0, hsplit, List.map_append, List.map_cons]
  · rw [List.countP_map]
    exact hcount

theorem scanned_of_split (hp : ∀ r, (numbered r).any p = marks r.2)
    (hq : ∀ r, (numbered r).any q = bounds r.2) {text : Str} {pre post : List BookLine}
    {ln : BookLine} (hsplit : bookLines text = pre ++ ln :: post) (hln : marks ln = true) :
    ∃ i j, scanned p q (pre.countP marks) text = some (i, j) ∧ i < j ∧
      ln.offset = placeOf (splitInclusive text) i ∧
      nextPlace bounds post text.length = placeOf (splitInclusive text) j := by
  rw [bookLines, ← map_snd_numberedLines 0, List.map_eq_append_iff] at hsplit
  obtain ⟨before, rest, hlines, rfl, hrest⟩ := hsplit
  obtain ⟨r, after, rfl, rfl, rfl⟩ := List.map_eq_cons_iff.mp hrest
  obtain ⟨hplace, hlt, hnext⟩ := @places_of_split bounds _ _ _ _ hlines
  refine ⟨r.1, _, (scanned_iff hp hq).mpr ⟨before, r, after, hlines, hln, ?_, rfl, rfl⟩, hlt, hplace,
    hnext⟩
  rw [List.countP_map]
  rfl

end Scan

def hasCatalogId (id : Str) (ln : BookLine) : Bool := catalogId ln = some id

/-- A line with an id that begins a chapter, as the catalog sees it. -/
def catalogBound (ln : BookLine) : Bool := (catalogId ln).any fun id => ['c', 'h', '-'].isPrefixOf id

/-- The text that the catalog describes a chapter by: from the first heading with its id up to
the next id of a chapter, or from the level-one heading of its number up to the next one. -/
inductive CatalogSpan (text : Str) (ch : ChapterOutline) : BookLine → ℕ → Prop
  | named {pre post : List BookLine} {ln : BookLine} {id : Str} (hid : ch.anchorId = some id)
      (hsplit : bookLines text = pre ++ ln :: post) (hln : catalogId ln = some id)
      (hfirst : ∀ e ∈ pre, catalogId e ≠ some id) :
      CatalogSpan text ch ln (nextPlace catalogBound post text.length)
  | counted {pre post : List BookLine} {ln : BookLine} (hid : ch.anchorId = none)
      (hsplit : bookLines text = pre ++ ln :: post) (hln : isH1 ln = true)
      (hcount : pre.countP isH1 + 1 = ch.index) :
      CatalogSpan text ch ln (nextPlace isH1 post text.length)

theorem numbered_id (id : Str) (r : ℕ × BookLine) :
    ((numbered r).any fun h => h.anchorId = some id) = hasCatalogId id r.2 := by
  unfold numbered hasCatalogId catalogId
  cases catalogHeading r.2 with
  | none => rfl
  | some h => rfl

theorem numbered_bound (r : ℕ × BookLine) :
    ((numbered r).any fun h => h.anchorId.any fun id => ['c', 'h', '-'].isPrefixOf id) =
      catalogBound r.2 := by
  unfold numbered catalogBound catalogId
  cases catalogHeading r.2 with
  | none => rfl
  | some h => rfl

theorem numbered_level (r : ℕ × BookLine) : ((numbered r).any fun h => h.level = 1) = isH1 r.2 := by
  have hlevel := isH1_iff r.2
  unfold numbered
  cases hheading : catalogHeading r.2 with
  | none =>
    rw [hheading] at hlevel
    have hno : ¬ isH1 r.2 = true := by
      intro hH1
      obtain ⟨h, hh, -⟩ := hlevel.mp hH1
      cases hh
    exact (Bool.eq_false_of_not_eq_true hno).symm
  | some h =>
    rw [hheading] at hlevel
    rw [Bool.eq_iff_iff, hlevel]
    show decide (h.level = 1) = true ↔ _
    rw [decide_eq_true_eq]
    constructor
    · intro hone
      exact ⟨h, rfl, hone⟩
    · rintro ⟨h', hh', hone⟩
      cases hh'
      exact hone

/-- INTERNAL: the lines of a chapter, by what marks and what bounds it. -/
theorem chapterLines_eq (text : Str) (ch : ChapterOutline) :
    chapterLines text ch = match ch.anchorId with
      | some id => scanned (fun h => h.anchorId = some id)
          (fun h => h.anchorId.any fun id => ['c', 'h', '-'].isPrefixOf id) 0 text
      | none => if ch.index = 0 then none
          else scanned (fun h => h.level = 1) (fun h => h.level = 1) (ch.index - 1) text := by
  unfold chapterLines chapterHeading boundsChapter scanned
  cases ch.anchorId with
  | some id => rfl
  | none =>
    dsimp only
    split
    · rfl
    · rfl

theorem catalogSpan_of_lines {text : Str} {ch : ChapterOutline} {i j : ℕ}
    (h : chapterLines text ch = some (i, j)) :
    i < j ∧ ∃ ln, CatalogSpan text ch ln (placeOf (splitInclusive text) j) ∧
      ln.offset = placeOf (splitInclusive text) i := by
  rw [chapterLines_eq] at h
  split at h
  · rename_i id hid
    obtain ⟨hlt, pre, ln, post, hsplit, hln, hcount, hplace, hnext⟩ :=
      split_of_scanned (numbered_id id) numbered_bound h
    refine ⟨hlt, ln, ?_, hplace⟩
    rw [← hnext]
    refine .named hid hsplit (of_decide_eq_true hln) ?_
    intro e he hsame
    have hnone := List.countP_eq_zero.mp hcount e he
    exact hnone (decide_eq_true hsame)
  · rename_i hid
    split at h
    · cases h
    · rename_i hindex
      obtain ⟨hlt, pre, ln, post, hsplit, hln, hcount, hplace, hnext⟩ :=
        split_of_scanned numbered_level numbered_level h
      refine ⟨hlt, ln, ?_, hplace⟩
      rw [← hnext]
      exact .counted hid hsplit hln (by omega)

theorem lines_of_catalogSpan {text : Str} {ch : ChapterOutline} {ln : BookLine} {stop : ℕ}
    (h : CatalogSpan text ch ln stop) : ∃ i j, chapterLines text ch = some (i, j) ∧ i < j ∧
      ln.offset = placeOf (splitInclusive text) i ∧ stop = placeOf (splitInclusive text) j := by
  rw [chapterLines_eq]
  cases h with
  | @named pre post _ id hid hsplit hln hfirst =>
    obtain ⟨i, j, hscan, hrest⟩ :=
      scanned_of_split (numbered_id id) numbered_bound hsplit (decide_eq_true hln)
    have hcount : pre.countP (hasCatalogId id) = 0 := by
      rw [List.countP_eq_zero]
      intro e he hsame
      exact hfirst e he (of_decide_eq_true hsame)
    rw [hcount] at hscan
    rw [hid]
    exact ⟨i, j, hscan, hrest⟩
  | @counted pre post _ hid hsplit hln hcount =>
    obtain ⟨i, j, hscan, hrest⟩ := scanned_of_split numbered_level numbered_level hsplit hln
    have hne : ¬ ch.index = 0 := by omega
    have hindex : ch.index - 1 = pre.countP isH1 := by omega
    rw [hid]
    simp only [hne, if_false, hindex]
    exact ⟨i, j, hscan, hrest⟩

/-! ## The reader -/

/-- A line with an id that begins a chapter, as the reader sees it. -/
def readerBound (ln : BookLine) : Bool := (readerHeading ln).any isChapterHeading

/-- The passage of a chapter number: from the first heading whose id has the number up to the
next id of a chapter, or, where the reader sees no id at all, from the level-one heading of
the number up to the next one. -/
inductive ReaderSpan (text : Str) (n : ℕ) : BookLine → ℕ → Prop
  | named {pre post : List BookLine} {ln : BookLine} (hsplit : bookLines text = pre ++ ln :: post)
      (hfirst : FirstOf (namesChapter n) pre ln) :
      ReaderSpan text n ln (nextPlace readerBound post text.length)
  | counted {pre post : List BookLine} {ln : BookLine} (hnone : NoneOf hasId (bookLines text))
      (hsplit : bookLines text = pre ++ ln :: post) (hln : isH1 ln = true)
      (hcount : pre.countP isH1 + 1 = n) :
      ReaderSpan text n ln (nextPlace isH1 post text.length)

theorem nextOffset_eq (post : List BookLine) (stop : ℕ) :
    nextOffset isChapterHeading (post.filterMap readerHeading) stop =
      nextPlace readerBound post stop := by
  unfold nextOffset nextPlace
  induction post with
  | nil => rfl
  | cons ln post ih =>
    cases hln : readerHeading ln with
    | none =>
      have hno : readerBound ln = false := by
        rw [readerBound, hln]
        rfl
      rw [List.filterMap_cons, hln, List.find?_cons, hno]
      exact ih
    | some b =>
      have hbound : readerBound ln = isChapterHeading b := by
        rw [readerBound, hln]
        rfl
      rw [List.filterMap_cons, hln]
      simp only [List.find?_cons, hbound]
      split
      · rw [Option.map_some, Option.map_some, readerHeading_offset hln]
      · exact ih

/-- The reader finds these chapters. -/
theorem readerSpan_iff {text : Str} {n s stop : ℕ} (hn : 0 < n) :
    extractChapter text n = .ok (s, stop) ↔ ∃ ln, ReaderSpan text n ln stop ∧ ln.offset = s := by
  by_cases hnone : NoneOf hasId (bookLines text)
  · have hno : ((bookHeadings text).any fun b => b.anchorId.isSome) = false :=
      Bool.eq_false_of_not_eq_true fun hany => (any_id_iff text).mp hany hnone
    simp only [extractChapter, hno, Bool.false_eq_true, if_false]
    rw [countBasedChapter_eq text hn, spanAt, List.getElem?_map]
    constructor
    · intro hspan
      cases hpart : (bookParts text)[n - 1]? with
      | none =>
        rw [hpart] at hspan
        cases hspan
      | some part =>
        rw [hpart] at hspan
        obtain ⟨rfl, rfl⟩ := Prod.mk.inj (Except.ok.inj hspan)
        obtain ⟨pre, post, hsplit, hhead, hcount, -, hstop⟩ := split_of_part hpart
        refine ⟨part.head, ?_, rfl⟩
        rw [hstop]
        exact .counted hnone hsplit hhead (by omega)
    · rintro ⟨ln, hspan, rfl⟩
      cases hspan with
      | named hsplit hfirst =>
        have hsome := not_noneOf_of_firstOf hsplit hfirst fun b => hasId_of_namesChapter
        exact absurd hnone hsome
      | @counted pre post _ _ hsplit hln hcount =>
        have hindex : n - 1 = pre.countP isH1 := by omega
        rw [hindex, bookParts, hsplit, part_of_split text.length post hln]
        rfl
  · simp only [extractChapter, (any_id_iff text).mpr hnone, if_true]
    constructor
    · intro hspan
      split at hspan
      · rename_i b rest hfirst
        rw [bookHeadings_eq] at hfirst
        obtain ⟨pre, ln, post, hsplit, hfirstOf, hb⟩ := firstOf_of_firstHeading hfirst
        obtain ⟨b', hb', hfound⟩ := firstHeading_of_firstOf post hfirstOf
        rw [← hsplit, hfirst] at hfound
        obtain ⟨rfl, rfl⟩ := Prod.mk.inj (Option.some.inj hfound)
        obtain ⟨rfl, rfl⟩ := Prod.mk.inj (Except.ok.inj hspan)
        refine ⟨ln, ?_, (readerHeading_offset hb).symm⟩
        rw [nextOffset_eq]
        exact .named hsplit hfirstOf
      · cases hspan
    · rintro ⟨ln, hspan, rfl⟩
      cases hspan with
      | @named pre post _ hsplit hfirst =>
        obtain ⟨b, hb, hfound⟩ := firstHeading_of_firstOf post hfirst
        rw [← hsplit, ← bookHeadings_eq] at hfound
        rw [hfound]
        dsimp only
        rw [nextOffset_eq, readerHeading_offset hb]
      | counted hnone' => exact absurd hnone' hnone

/-- INTERNAL: the next heading stands between its line and the end of the text. -/
theorem nextPlace_bounds {text : Str} {pre post : List BookLine} {ln : BookLine}
    (p : BookLine → Bool) (hsplit : bookLines text = pre ++ ln :: post) :
    ln.offset ≤ nextPlace p post text.length ∧ nextPlace p post text.length ≤ text.length := by
  obtain ⟨hlater, hend⟩ := later_of_split hsplit
  have hle := le_nextPlace (p := p) hlater hend
  refine ⟨by omega, ?_⟩
  unfold nextPlace
  cases hfind : post.find? p with
  | none => exact le_refl _
  | some e =>
    have hmem : e ∈ bookLines text := by
      rw [hsplit]
      exact List.mem_append_right pre (List.mem_cons_of_mem ln (List.mem_of_find?_eq_some hfind))
    exact (Nat.le_add_right _ _).trans (bookLines_bound hmem)

theorem readerSpan_split {text : Str} {n stop : ℕ} {ln : BookLine}
    (h : ReaderSpan text n ln stop) :
    (∃ pre post, bookLines text = pre ++ ln :: post) ∧ 0 < ln.raw.length ∧ ln.offset ≤ stop ∧
      stop ≤ text.length := by
  cases h with
  | named hsplit hfirst =>
    obtain ⟨⟨b, hb, -⟩, -⟩ := hfirst
    exact ⟨⟨_, _, hsplit⟩, raw_pos_of_reader hb, nextPlace_bounds readerBound hsplit⟩
  | counted hnone hsplit hln hcount =>
    exact ⟨⟨_, _, hsplit⟩, raw_pos_of_isH1 hln, nextPlace_bounds isH1 hsplit⟩

theorem catalogSpan_split {text : Str} {ch : ChapterOutline} {stop : ℕ} {ln : BookLine}
    (h : CatalogSpan text ch ln stop) :
    (∃ pre post, bookLines text = pre ++ ln :: post) ∧ 0 < ln.raw.length ∧ ln.offset ≤ stop ∧
      stop ≤ text.length := by
  cases h with
  | named hid hsplit hln hfirst =>
    simp only [catalogId, Option.bind_eq_some_iff] at hln
    obtain ⟨hd, hh, -⟩ := hln
    exact ⟨⟨_, _, hsplit⟩, raw_pos hh, nextPlace_bounds catalogBound hsplit⟩
  | counted hid hsplit hln hcount =>
    exact ⟨⟨_, _, hsplit⟩, raw_pos_of_isH1 hln, nextPlace_bounds isH1 hsplit⟩

theorem length_slice {text : Str} {s stop : ℕ} (h : stop ≤ text.length) :
    (slice text (s, stop)).length = stop - s := by
  unfold slice
  rw [List.length_take, List.length_drop]
  omega

/-! ## Summaries -/

/-- The anchor of an entry has the entry's number. -/
theorem meansChapter_of_entry {tables : CharTables} {text : Str} {ch : ChapterOutline}
    (h : ch ∈ parseOutline tables text) : MeansChapter ch.index (chapterAnchorId ch) := by
  by_cases hplain : Plain (bookLines text)
  · rw [parseOutline_plain tables hplain, mem_chaptersFrom] at h
    obtain ⟨pre, ln, post, hsplit, hd, hh, hlevel, rfl⟩ := h
    exact meansChapter_counted rfl (mod_lt _)
  · rw [parseOutline_named tables hplain, mem_anchoredOutline] at h
    obtain ⟨⟨ch₀, hch₀, heq⟩, -⟩ := mem_assignSections h
    obtain ⟨ln, hln, hd, hh, hch⟩ := mem_chapters_named.mp hch₀
    obtain ⟨id, n, hid, hchapter, hn, rfl⟩ := chapterOf_eq_some.mp hch
    rw [heq, @chapterAnchorId_named _ id rfl]
    exact (meansChapter_named hchapter hn).1

/-- The lines that the summary of an entry is taken from: those of the entry at the position
of its number. -/
def summaryLines (outline : List ChapterOutline) (text : Str) (ch : ChapterOutline) :
    Option (ℕ × ℕ) :=
  if ch.index = 0 then none else outline[ch.index - 1]?.bind (chapterLines text)

/-- The summary of an entry is the leading words of its passage, and taken from there. -/
def OwnSummary (outline : List ChapterOutline) (catalog : BookCatalog) (text : Str) (maxChars : ℕ)
    (ch : ChapterOutline) : Prop :=
  ∃ p i j, extractPassageCapped catalog.slug.toList (chapterAnchorId ch) text maxChars = .ok p ∧
    summaryLines outline text ch = some (i, j) ∧
    p.start = placeOf (splitInclusive text) i ∧
    p.text = (((splitInclusive text).drop i).take (j - i)).flatten ∧
    chapterSummary catalog ch = describe ((splitInclusive p.text).drop 1)

/-- The entry at the position of the number has the heading and the bound of the passage. -/
def OwnHeading (outline : List ChapterOutline) (text : Str) (ch : ChapterOutline) : Prop :=
  0 < ch.index ∧ ∃ e ln stop, outline[ch.index - 1]? = some e ∧ CatalogSpan text e ln stop ∧
    ReaderSpan text ch.index ln stop

/-- INTERNAL: the summary is the description of the entry that it is looked up at. -/
theorem chapterSummary_eq {outline : List ChapterOutline} {catalog : BookCatalog} {text : Str}
    {ch e : ChapterOutline} {i j : ℕ}
    (hcatalog : catalog.chapterSummaries = chapterDescriptions outline text) (hpos : 0 < ch.index)
    (he : outline[ch.index - 1]? = some e) (hlines : chapterLines text e = some (i, j)) :
    chapterSummary catalog ch =
      describe ((splitInclusive (((splitInclusive text).drop i).take (j - i)).flatten).drop 1) := by
  have hne : ¬ ch.index = 0 := by omega
  have hrest : (((splitInclusive text).drop i).take (j - i)).drop 1 =
      ((splitInclusive text).drop (i + 1)).take (j - (i + 1)) := by
    rw [List.drop_take, List.drop_drop, Nat.sub_sub]
  rw [chapterSummary, if_neg hne, hcatalog, chapterDescriptions, List.getElem?_map, he,
    splitInclusive_lines, hrest]
  show chapterDescription text e = _
  rw [chapterDescription, hlines]

/-- The summary of an entry is that of its passage exactly when the entry at the position of
its number has the passage's heading and bound. -/
theorem chapter_described_iff (tables : CharTables) {text : Str} {catalog : BookCatalog}
    {maxChars : ℕ} {ch : ChapterOutline} (hcap : text.length ≤ maxChars)
    (hcatalog : catalog.chapterSummaries = chapterDescriptions (parseOutline tables text) text)
    (hch : ch ∈ parseOutline tables text) :
    OwnSummary (parseOutline tables text) catalog text maxChars ch ↔
      OwnHeading (parseOutline tables text) text ch := by
  obtain ⟨n, pre, ln₀, hplace, -, -⟩ := chapter_has_place hch
  obtain ⟨post, hd, hsplit, hh⟩ := chapterAt_split hplace
  have hblank := not_blank hsplit hh
  have hspan := anchorSpan_chapter text (meansChapter_of_entry hch)
  constructor
  · rintro ⟨p, i, j, hread, hlines, hstart, htext, -⟩
    unfold summaryLines at hlines
    split at hlines
    · cases hlines
    · rename_i hne
      have hpos : 0 < ch.index := by omega
      obtain ⟨e, he, hlines⟩ := Option.bind_eq_some_iff.mp hlines
      obtain ⟨hlt, ln, hcatalogSpan, hoffset⟩ := catalogSpan_of_lines hlines
      rw [extractPassageCapped_eq _ _ maxChars hblank, hspan, if_neg hne] at hread
      cases hextract : extractChapter text ch.index with
      | error e' =>
        rw [hextract] at hread
        cases hread
      | ok span =>
        obtain ⟨s, stop⟩ := span
        rw [hextract] at hread
        obtain rfl := Except.ok.inj hread
        obtain ⟨ln', hreader, rfl⟩ := (readerSpan_iff hpos).mp hextract
        obtain ⟨⟨before, after, hat⟩, hraw, hle, hstop⟩ := catalogSpan_split hcatalogSpan
        obtain ⟨⟨before', after', hat'⟩, hraw', hle', hstop'⟩ := readerSpan_split hreader
        have hsame : ln.offset = ln'.offset := hoffset.trans hstart.symm
        obtain ⟨-, rfl⟩ := split_unique hat hat' hraw hraw' hsame
        -- both texts start here, so they end at one place
        have hslice : slice text (ln.offset, stop) =
            slice text (ln.offset, placeOf (splitInclusive text) j) := by
          have hshort : (slice text (ln.offset, stop)).length ≤ maxChars := by
            rw [length_slice hstop']
            omega
          nth_rewrite 2 [hoffset]
          rw [slice_lines text (Nat.le_of_lt hlt), ← htext]
          exact (List.take_of_length_le hshort).symm
        have hlength := congrArg List.length hslice
        rw [length_slice hstop', length_slice hstop] at hlength
        have hends : stop = placeOf (splitInclusive text) j := by omega
        rw [← hends] at hcatalogSpan
        exact ⟨hpos, e, ln, stop, he, hcatalogSpan, hreader⟩
  · rintro ⟨hpos, e, ln, stop, he, hcatalogSpan, hreader⟩
    have hne : ¬ ch.index = 0 := by omega
    obtain ⟨i, j, hlines, hlt, hstart, rfl⟩ := lines_of_catalogSpan hcatalogSpan
    rw [if_neg hne, (readerSpan_iff hpos).mpr ⟨ln, hreader, rfl⟩] at hspan
    have hread := extractPassageCapped_eq catalog.slug.toList (chapterAnchorId ch) maxChars hblank
    rw [hspan] at hread
    have htext : ((text.drop ln.offset).take (placeOf (splitInclusive text) j - ln.offset)).take
        maxChars = (((splitInclusive text).drop i).take (j - i)).flatten := by
      rw [List.take_of_length_le, hstart]
      · exact slice_lines text (Nat.le_of_lt hlt)
      · rw [List.length_take, List.length_drop]
        omega
    refine ⟨_, i, j, hread, ?_, hstart, htext, ?_⟩
    · rw [summaryLines, if_neg hne, he]
      exact hlines
    · dsimp only
      rw [htext]
      exact chapterSummary_eq hcatalog hpos he hlines

/-- A book whose one chapter has the number 1, and the catalog of it. -/
def firstBook : Str := "# A \x7b#ch-1-a\x7d\nx\n".toList

def firstCatalog : BookCatalog :=
  { slug := "b", title := "B", description := "", chapterSummaries := ["x"] }

/-- A book whose one chapter has the number 2. -/
def secondBook : Str := "# A \x7b#ch-2-a\x7d\nx\n".toList

def entryOf (n : ℕ) (id : Str) : ChapterOutline :=
  { index := n, title := ['A'], slug := ['a'], sections := [], anchorId := some id, line := 0 }

set_option maxRecDepth 4000 in
theorem chapter_described_first :
    OwnHeading (parseOutline asciiTables firstBook) firstBook (entryOf 1 "ch-1-a".toList) := by
  have houtline : parseOutline asciiTables firstBook = [entryOf 1 "ch-1-a".toList] := by decide
  have hcatalog : firstCatalog.chapterSummaries =
      chapterDescriptions (parseOutline asciiTables firstBook) firstBook := by
    rw [houtline]
    decide
  have hmem : entryOf 1 "ch-1-a".toList ∈ parseOutline asciiTables firstBook := by
    rw [houtline]
    exact List.mem_singleton.mpr rfl
  have hcap : firstBook.length ≤ 40 := by decide
  refine (chapter_described_iff asciiTables hcap hcatalog hmem).mp ?_
  rw [houtline]
  refine ⟨{ slug := ['b'], anchor := "ch-1-a".toList, text := firstBook, start := 0 }, 0, 2,
    ?_, ?_, ?_, ?_, ?_⟩
  · decide
  · decide
  · decide
  · decide
  · decide

/-- The concept of a chapter 2 has no summary when there is no chapter before it. -/
theorem second_not_described : ¬ ∀ (tables : CharTables) (text : Str) (catalog : BookCatalog)
    (maxChars : ℕ), text.length ≤ maxChars →
    catalog.chapterSummaries = chapterDescriptions (parseOutline tables text) text →
    ∀ ch ∈ parseOutline tables text, ∃ p,
      extractPassageCapped catalog.slug.toList (chapterAnchorId ch) text maxChars = .ok p ∧
        chapterSummary catalog ch = describe ((splitInclusive p.text).drop 1) := by
  intro hall
  have houtline : parseOutline asciiTables secondBook = [entryOf 2 "ch-2-a".toList] := by decide
  have hcatalog : firstCatalog.chapterSummaries =
      chapterDescriptions (parseOutline asciiTables secondBook) secondBook := by
    rw [houtline]
    decide
  have hmem : entryOf 2 "ch-2-a".toList ∈ parseOutline asciiTables secondBook := by
    rw [houtline]
    exact List.mem_singleton.mpr rfl
  obtain ⟨p, hread, hsummary⟩ :=
    hall asciiTables secondBook firstCatalog 40 (by decide) hcatalog _ hmem
  have hpassage : extractPassageCapped firstCatalog.slug.toList
      (chapterAnchorId (entryOf 2 "ch-2-a".toList)) secondBook 40 =
        .ok { slug := ['b'], anchor := "ch-2-a".toList, text := secondBook, start := 0 } := by decide
  rw [hpassage] at hread
  obtain rfl := Except.ok.inj hread
  revert hsummary
  decide

end Mycelium.Analysis.ChapterSummaries
