import Mycelium.Analysis.CatalogEntries

/-!
# The count of headings

What the reader finds in a book by counting.

1. *Places.* Each of the three loops over lines is one loop over the places of the headings
   it counts (`countBasedChapter_loop`, `chapterStart_loop`, `sectionSpan_loop`), and that
   loop takes the span with the number from the list of all spans (`countedSpan_eq`).
2. *Parts.* A part is a level-one heading outside fences with the lines up to the next one.
   The chapter with a number is the part at that position, its sections are the level-two
   headings of the part (`countBasedChapter_eq`, `countBasedSection_eq`).
3. *Positions.* A heading that is given by its split of the lines stands at the position it
   is counted to (`part_of_split`, `span_of_split`).
-/

set_option autoImplicit false

namespace Mycelium.Analysis.BookCounting

open Mycelium.Model.Text
open Mycelium.Model.Outline
open Mycelium.Model.Passages
open Mycelium.Analysis.TextLines
open Mycelium.Analysis.BookLines
open Mycelium.Analysis.CatalogEntries

/-! ## Places -/

def places (p : BookLine → Bool) (lines : List BookLine) : List ℕ := (lines.filter p).map (·.offset)

/-- From each place up to the next one, from the last up to the end. -/
def spansOf (stop : ℕ) : List ℕ → List (ℕ × ℕ)
  | [] => []
  | s :: rest => (s, rest.head?.getD stop) :: spansOf stop rest

/-- The span at a position, or the error. -/
def spanAt (e : PassageError) (spans : List (ℕ × ℕ)) (i : ℕ) : Except PassageError (ℕ × ℕ) :=
  spans[i]?.elim (.error e) .ok

/-- What a loop over lines does at the headings it counts. -/
def countedSpan (number stop : ℕ) (e : PassageError) :
    ℕ → Option ℕ → List ℕ → Except PassageError (ℕ × ℕ)
  | _, start, [] => spanTo start stop e
  | seen, start, s :: rest =>
    if seen + 1 = number then countedSpan number stop e (seen + 1) (some s) rest
    else if number < seen + 1 then spanTo start s e
    else countedSpan number stop e (seen + 1) start rest

/-- INTERNAL: after the heading with the number only the next one counts. -/
theorem countedSpan_started (number stop s : ℕ) (e : PassageError) (l : List ℕ) :
    countedSpan number stop e number (some s) l = .ok (s, l.head?.getD stop) := by
  cases l with
  | nil => rfl
  | cons next rest =>
    have hne : ¬ number + 1 = number := by omega
    have hlt : number < number + 1 := by omega
    simp only [countedSpan, hne, hlt, if_true, if_false]
    rfl

/-- The loop finds the span at the position it counts to. -/
theorem countedSpan_eq {number seen : ℕ} (stop : ℕ) (e : PassageError) (l : List ℕ)
    (h : seen < number) :
    countedSpan number stop e seen none l = spanAt e (spansOf stop l) (number - seen - 1) := by
  induction l generalizing seen with
  | nil => rfl
  | cons s rest ih =>
    simp only [countedSpan]
    by_cases hnow : seen + 1 = number
    · have hzero : number - seen - 1 = 0 := by omega
      rw [if_pos hnow, hnow, countedSpan_started, hzero]
      rfl
    · have hsucc : number - seen - 1 = number - (seen + 1) - 1 + 1 := by omega
      rw [if_neg hnow, if_neg (by omega), ih (by omega), hsucc]
      rfl

/-- INTERNAL: where the text ends, seen from before and from behind a line. -/
theorem add_flatten_cons (offset : ℕ) (raw : Str) (rest : List Str) :
    offset + raw.length + rest.flatten.length = offset + (raw :: rest).flatten.length := by
  rw [List.flatten_cons, List.length_append]
  omega

theorem countBasedChapter_loop (index offset seen : ℕ) (start : Option ℕ) (inFence : Bool)
    (lines : List Str) :
    countBasedChapter index offset seen start inFence lines =
      countedSpan index (offset + lines.flatten.length) (chapterNotFound index) seen start
        (places isH1 (openLines offset inFence lines)) := by
  induction lines generalizing offset seen start inFence with
  | nil => rfl
  | cons raw rest ih =>
    simp only [countBasedChapter, openLines, ← add_flatten_cons]
    split
    · exact ih _ _ _ _
    · cases inFence with
      | true => exact ih _ _ _ _
      | false =>
        simp only [Bool.not_false, Bool.true_and, Bool.false_eq_true, if_false]
        by_cases hH1 : ['#', ' '].isPrefixOf (trimStart raw) = true
        · have hline : isH1 { offset := offset, raw := raw } = true := hH1
          simp only [places, List.filter_cons, hline, if_true, List.map_cons, countedSpan, hH1]
          rw [ih, ih]
          rfl
        · have hline : ¬ isH1 { offset := offset, raw := raw } = true := hH1
          simp only [places, List.filter_cons, hline, hH1]
          exact ih _ _ _ _

theorem chapterStart_loop {chapter seen : ℕ} (offset : ℕ) (inFence : Bool) (lines : List Str)
    (h : seen < chapter) :
    chapterStart chapter offset seen inFence lines =
      (places isH1 (openLines offset inFence lines))[chapter - seen - 1]? := by
  induction lines generalizing offset seen inFence with
  | nil => rfl
  | cons raw rest ih =>
    simp only [chapterStart, openLines]
    split
    · exact ih _ _ h
    · cases inFence with
      | true => exact ih _ _ h
      | false =>
        simp only [Bool.not_false, Bool.true_and, Bool.false_eq_true, if_false]
        by_cases hH1 : ['#', ' '].isPrefixOf (trimStart raw) = true
        · have hline : isH1 { offset := offset, raw := raw } = true := hH1
          simp only [places, List.filter_cons, hline, if_true, List.map_cons, hH1]
          by_cases hnow : seen + 1 = chapter
          · have hzero : chapter - seen - 1 = 0 := by omega
            rw [if_pos hnow, hzero]
            rfl
          · have hsucc : chapter - seen - 1 = chapter - (seen + 1) - 1 + 1 := by omega
            rw [if_neg hnow, ih _ _ (by omega), hsucc]
            rfl
        · have hline : ¬ isH1 { offset := offset, raw := raw } = true := hH1
          simp only [places, List.filter_cons, hline, hH1]
          exact ih _ _ h

/-- The place of the next line with a property, or the end. -/
def nextPlace (p : BookLine → Bool) (lines : List BookLine) (stop : ℕ) : ℕ :=
  ((lines.find? p).map (·.offset)).getD stop

/-- INTERNAL: a span moved by as much as stands before the chapter. -/
theorem map_spanTo (base stop : ℕ) (start : Option ℕ) (e : PassageError) :
    (spanTo start stop e).map (fun r => (base + r.1, base + r.2)) =
      spanTo (start.map (base + ·)) (base + stop) e := by
  cases start <;> rfl

/-- The lines of a part: those before the next level-one heading. -/
def bodyOf (lines : List BookLine) : List BookLine := lines.takeWhile fun e => !isH1 e

theorem bodyOf_cons (ln : BookLine) (rest : List BookLine) :
    bodyOf (ln :: rest) = if isH1 ln then [] else ln :: bodyOf rest := by
  unfold bodyOf
  rw [List.takeWhile_cons]
  cases isH1 ln <;> rfl

theorem nextPlace_cons (p : BookLine → Bool) (ln : BookLine) (rest : List BookLine) (stop : ℕ) :
    nextPlace p (ln :: rest) stop = if p ln then ln.offset else nextPlace p rest stop := by
  unfold nextPlace
  rw [List.find?_cons]
  cases p ln <;> rfl

theorem isH1_of_isH2 {ln : BookLine} (h : isH2 ln = true) : isH1 ln = false := by
  cases h1 : isH1 ln with
  | false => rfl
  | true =>
    obtain ⟨h₂, hh₂, hlevel₂⟩ := (isH2_iff ln).mp h
    obtain ⟨h₁, hh₁, hlevel₁⟩ := (isH1_iff ln).mp h1
    rw [hh₁] at hh₂
    cases hh₂
    omega

/-- The loop over the lines of a chapter, `base` characters after the start of the text and
past the line of the chapter. -/
theorem sectionSpan_loop (chapter number base : ℕ) {offset : ℕ} (seen : ℕ) (start : Option ℕ)
    (inFence : Bool) (lines : List Str) (hpos : 0 < offset) :
    (sectionSpan chapter number offset seen start inFence lines).map
        (fun r => (base + r.1, base + r.2)) =
      countedSpan number
        (nextPlace isH1 (openLines (base + offset) inFence lines)
          (base + (offset + lines.flatten.length)))
        (sectionNotFound chapter number) seen (start.map (base + ·))
        (places isH2 (bodyOf (openLines (base + offset) inFence lines))) := by
  induction lines generalizing offset seen start inFence with
  | nil => exact map_spanTo base offset start _
  | cons raw rest ih =>
    have hnext : 0 < offset + raw.length := by omega
    simp only [sectionSpan, openLines, ← add_flatten_cons offset, Nat.add_assoc base]
    split
    · exact ih _ _ _ hnext
    · cases inFence with
      | true => exact ih _ _ _ hnext
      | false =>
        simp only [Bool.not_false, Bool.true_and, Bool.false_eq_true, if_false, hpos, decide_true]
        rw [bodyOf_cons, nextPlace_cons]
        by_cases hH1 : ['#', ' '].isPrefixOf (trimStart raw) = true
        · have hline : isH1 { offset := base + offset, raw := raw } = true := hH1
          rw [if_pos hH1, if_pos hline, if_pos hline]
          exact map_spanTo base offset start _
        · have hline : ¬ isH1 { offset := base + offset, raw := raw } = true := hH1
          rw [if_neg hH1, if_neg hline, if_neg hline]
          by_cases hH2 : ['#', '#', ' '].isPrefixOf (trimStart raw) = true
          · have hsec : isH2 { offset := base + offset, raw := raw } = true := hH2
            simp only [places, List.filter_cons, hsec, if_true, List.map_cons, countedSpan, hH2]
            rw [apply_ite (Except.map _), apply_ite (Except.map _), map_spanTo,
              ih _ _ _ hnext, ih _ _ _ hnext]
            rfl
          · have hsec : ¬ isH2 { offset := base + offset, raw := raw } = true := hH2
            simp only [places, List.filter_cons, hsec, hH2]
            exact ih _ _ _ hnext

/-! ## Parts -/

/-- A level-one heading outside fences, the lines up to the next one, and where that is. -/
structure Part where
  head : BookLine
  body : List BookLine
  stop : ℕ

def partsOf (stop : ℕ) : List BookLine → List Part
  | [] => []
  | ln :: rest =>
    if isH1 ln then
      { head := ln, body := bodyOf rest, stop := nextPlace isH1 rest stop } :: partsOf stop rest
    else partsOf stop rest

def bookParts (text : Str) : List Part := partsOf text.length (bookLines text)

def Part.span (part : Part) : ℕ × ℕ := (part.head.offset, part.stop)

/-- The spans of the sections of a part. -/
def Part.sections (part : Part) : List (ℕ × ℕ) := spansOf part.stop (places isH2 part.body)

theorem nextPlace_eq (p : BookLine → Bool) (lines : List BookLine) (stop : ℕ) :
    nextPlace p lines stop = (places p lines).head?.getD stop := by
  unfold nextPlace places
  rw [List.head?_map, List.head?_filter]

theorem span_partsOf (stop : ℕ) (lines : List BookLine) :
    (partsOf stop lines).map Part.span = spansOf stop (places isH1 lines) := by
  induction lines with
  | nil => rfl
  | cons ln rest ih =>
    simp only [partsOf, places, List.filter_cons]
    by_cases hln : isH1 ln = true
    · simp only [hln, if_true, List.map_cons, spansOf, Part.span, nextPlace_eq, ih]
      rfl
    · simp only [hln]
      exact ih

theorem places_isH1 (stop : ℕ) (lines : List BookLine) :
    places isH1 lines = (partsOf stop lines).map fun part => part.head.offset := by
  induction lines with
  | nil => rfl
  | cons ln rest ih =>
    simp only [partsOf, places, List.filter_cons]
    by_cases hln : isH1 ln = true
    · simp only [hln, if_true, List.map_cons]
      rw [← places, ih]
    · simp only [hln]
      exact ih

/-- The part at a position is the split of the lines at that heading. -/
theorem split_of_part {stop i : ℕ} {lines : List BookLine} {part : Part}
    (h : (partsOf stop lines)[i]? = some part) :
    ∃ pre post, lines = pre ++ part.head :: post ∧ isH1 part.head = true ∧
      pre.countP isH1 = i ∧ part.body = bodyOf post ∧ part.stop = nextPlace isH1 post stop := by
  induction lines generalizing i with
  | nil => cases h
  | cons ln rest ih =>
    simp only [partsOf] at h
    by_cases hln : isH1 ln = true
    · rw [if_pos hln] at h
      cases i with
      | zero =>
        cases h
        exact ⟨[], rest, rfl, hln, rfl, rfl, rfl⟩
      | succ i =>
        obtain ⟨pre, post, hrest, hhead, hcount, hbody, hstop⟩ := ih h
        refine ⟨ln :: pre, post, by rw [hrest]; rfl, hhead, ?_, hbody, hstop⟩
        rw [List.countP_cons, if_pos hln, hcount]
    · rw [if_neg hln] at h
      obtain ⟨pre, post, hrest, hhead, hcount, hbody, hstop⟩ := ih h
      refine ⟨ln :: pre, post, by rw [hrest]; rfl, hhead, ?_, hbody, hstop⟩
      rw [List.countP_cons, if_neg hln, hcount, Nat.add_zero]

theorem part_of_split (stop : ℕ) {pre : List BookLine} (post : List BookLine) {ln : BookLine}
    (hln : isH1 ln = true) : (partsOf stop (pre ++ ln :: post))[pre.countP isH1]? =
      some { head := ln, body := bodyOf post, stop := nextPlace isH1 post stop } := by
  induction pre with
  | nil =>
    rw [List.nil_append, partsOf, if_pos hln]
    rfl
  | cons first pre ih =>
    rw [List.cons_append, partsOf, List.countP_cons]
    by_cases hfirst : isH1 first = true
    · rw [if_pos hfirst, if_pos hfirst]
      exact ih
    · rw [if_neg hfirst, if_neg hfirst]
      exact ih

/-- A heading starts the span at the position it is counted to. -/
theorem span_of_split (p : BookLine → Bool) (stop : ℕ) {pre : List BookLine}
    (post : List BookLine) {ln : BookLine} (hln : p ln = true) :
    (spansOf stop (places p (pre ++ ln :: post)))[pre.countP p]? =
      some (ln.offset, nextPlace p post stop) := by
  induction pre with
  | nil =>
    rw [List.nil_append, nextPlace_eq, places, List.filter_cons_of_pos hln]
    rfl
  | cons first pre ih =>
    rw [List.cons_append, List.countP_cons]
    by_cases hfirst : p first = true
    · rw [if_pos hfirst, places, List.filter_cons_of_pos hfirst]
      exact ih
    · rw [if_neg hfirst, places, List.filter_cons_of_neg hfirst]
      exact ih

/-- What stands from a line on. -/
theorem splitInclusive_at {text : Str} {pre post : List BookLine} {ln : BookLine}
    (hsplit : bookLines text = pre ++ ln :: post) :
    ∃ after, splitInclusive (text.drop ln.offset) = ln.raw :: after ∧
      isFence (trimStart ln.raw) = false ∧
      post = openLines (ln.offset + ln.raw.length) false after := by
  obtain ⟨before, after, hlines, hoff, hfence, hpost⟩ := openLines_split hsplit
  rw [Nat.zero_add] at hoff
  refine ⟨after, ?_, hfence, hpost⟩
  rw [hoff]
  exact splitInclusive_drop_flatten hlines

/-- INTERNAL: the lines of a book end where the text does. -/
theorem bookLines_bound {text : Str} {ln : BookLine} (h : ln ∈ bookLines text) :
    ln.offset + ln.raw.length ≤ text.length := by
  have hbound := (openLines_bounds h).2
  rw [flatten_splitInclusive, Nat.zero_add] at hbound
  exact hbound

theorem raw_pos_of_isH1 {ln : BookLine} (h : isH1 ln = true) : 0 < ln.raw.length := by
  apply List.length_pos_of_ne_nil
  intro hnil
  rw [isH1, hnil] at h
  cases h

/-- Chapters are the parts of a book. -/
theorem countBasedChapter_eq (text : Str) {n : ℕ} (hn : 0 < n) :
    countBasedChapter n 0 0 none false (splitInclusive text) =
      spanAt (chapterNotFound n) ((bookParts text).map Part.span) (n - 1) := by
  rw [countBasedChapter_loop, countedSpan_eq _ _ _ hn, flatten_splitInclusive, Nat.zero_add,
    bookParts, span_partsOf]
  rfl

/-- Sections are those of the parts. -/
theorem countBasedSection_eq (text : Str) {c m : ℕ} (hc : 0 < c) (hm : 0 < m) :
    countBasedSection text c m =
      match (bookParts text)[c - 1]? with
      | none => .error (chapterNotFound c)
      | some part => spanAt (sectionNotFound c m) part.sections (m - 1) := by
  have hstart : chapterStart c 0 0 false (splitInclusive text) =
      ((bookParts text)[c - 1]?).map fun part => part.head.offset := by
    rw [chapterStart_loop 0 false _ hc, ← bookLines, places_isH1 text.length, List.getElem?_map]
    rfl
  rw [countBasedSection, hstart]
  cases hpart : (bookParts text)[c - 1]? with
  | none => rfl
  | some part =>
    obtain ⟨pre, post, hsplit, hhead, -, hbody, hstop⟩ := split_of_part hpart
    obtain ⟨after, hpieces, hfence, hpost⟩ := splitInclusive_at hsplit
    have hnotH2 : ¬ ['#', '#', ' '].isPrefixOf (trimStart part.head.raw) = true := by
      intro h2
      have hno : isH1 part.head = false := isH1_of_isH2 h2
      rw [hhead] at hno
      cases hno
    have hend : part.head.offset + (part.head.raw.length + after.flatten.length) = text.length := by
      have hlength := congrArg List.length (flatten_splitInclusive (text.drop part.head.offset))
      have hmem : part.head ∈ bookLines text := by
        rw [hsplit]
        exact List.mem_append_right pre List.mem_cons_self
      have hbound := bookLines_bound hmem
      rw [hpieces, List.flatten_cons, List.length_append, List.length_drop] at hlength
      omega
    have hloop := sectionSpan_loop c m part.head.offset 0 none false after
      (raw_pos_of_isH1 hhead)
    rw [hend, ← hpost] at hloop
    simp only [Option.map_some, hpieces, sectionSpan, hfence, Bool.false_eq_true, if_false,
      Nat.lt_irrefl, decide_false, Bool.and_false, Bool.false_and, Bool.not_false, hnotH2,
      Nat.zero_add]
    rw [hloop, Option.map_none, countedSpan_eq _ _ _ hm, Part.sections, hbody, hstop]
    rfl

theorem le_nextPlace {p : BookLine → Bool} {lines : List BookLine} {k stop : ℕ}
    (hlines : ∀ ln ∈ lines, k ≤ ln.offset) (hstop : k ≤ stop) : k ≤ nextPlace p lines stop := by
  unfold nextPlace
  cases hfind : lines.find? p with
  | none => exact hstop
  | some ln => exact hlines ln (List.mem_of_find?_eq_some hfind)

/-- INTERNAL: what follows a line stands past its end. -/
theorem later_of_split {text : Str} {pre post : List BookLine} {ln : BookLine}
    (hsplit : bookLines text = pre ++ ln :: post) :
    (∀ later ∈ post, ln.offset + ln.raw.length ≤ later.offset) ∧
      ln.offset + ln.raw.length ≤ text.length := by
  refine ⟨fun later hlater => openLines_later hsplit hlater, ?_⟩
  apply bookLines_bound
  rw [hsplit]
  exact List.mem_append_right pre List.mem_cons_self

end Mycelium.Analysis.BookCounting
