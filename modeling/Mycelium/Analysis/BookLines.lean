import Mycelium.Analysis.TextLines
import Mycelium.Model.Passages

/-!
# The lines two scanners see

The catalog reads a book with `str::lines`, the reader with `split_inclusive`, and each
keeps its own fence flag and its own place. What both look at is the list of the lines
outside fences (`openLines`), each with its place; the headings of the catalog and those of
the reader are two filters of it (`headings_eq`, `collectHeadings_eq`). A line and the line
without its end look the same to both as far as fences, hashes and ids go, except that the
reader drops all blanks at the end.
-/

set_option autoImplicit false

namespace Mycelium.Analysis.BookLines

open Mycelium.Model.Text
open Mycelium.Model.Outline
open Mycelium.Model.Passages (BookHeading parseHeadingLine collectHeadings bookHeadings)

/-! ## A line and its end -/

/-- The characters of line ends. -/
def IsLineEnd (c : Char) : Prop := c = '\n' ∨ c = '\r'

theorem isWhitespace_of_isLineEnd {c : Char} (h : IsLineEnd c) : isWhitespace c = true := by
  rcases h with rfl | rfl
  · decide
  · decide

/-- INTERNAL: a piece is the line and its end. -/
theorem stripLineEnd_append (raw : Str) :
    ∃ e, raw = stripLineEnd raw ++ e ∧ ∀ c ∈ e, IsLineEnd c := by
  have hlast {l : Str} {c : Char} (h : l.getLast? = some c) : l = l.dropLast ++ [c] := by
    obtain ⟨pre, rfl⟩ := List.getLast?_eq_some_iff.mp h
    simp
  unfold stripLineEnd
  split
  · rename_i hn
    simp only
    split
    · rename_i hr
      refine ⟨['\r', '\n'], ?_, ?_⟩
      · have hboth := hlast hn
        rw [hlast hr] at hboth
        simpa using hboth
      · intro c hc
        simp only [List.mem_cons, List.not_mem_nil, or_false] at hc
        exact hc.symm
    · refine ⟨['\n'], hlast hn, ?_⟩
      intro c hc
      exact .inl (List.mem_singleton.mp hc)
  · exact ⟨[], by simp, fun c hc => absurd hc List.not_mem_nil⟩

/-- INTERNAL: so is what is left of it without the blanks in front. -/
theorem trimStart_stripLineEnd (raw : Str) :
    ∃ e, trimStart raw = trimStart (stripLineEnd raw) ++ e ∧ ∀ c ∈ e, IsLineEnd c := by
  obtain ⟨e, heq, he⟩ := stripLineEnd_append raw
  unfold trimStart
  rw [heq, List.dropWhile_append]
  split
  · rename_i hnil
    have hempty : (stripLineEnd raw).dropWhile isWhitespace = [] := by simpa using hnil
    have hend : e.dropWhile isWhitespace = [] := by
      rw [List.dropWhile_eq_nil_iff]
      exact fun c hc => isWhitespace_of_isLineEnd (he c hc)
    refine ⟨[], ?_, fun c hc => absurd hc List.not_mem_nil⟩
    rw [← heq, hempty, hend]
    rfl
  · rw [← heq]
    exact ⟨e, rfl, he⟩

/-- INTERNAL: a line end is no part of a prefix without one. -/
theorem isPrefixOf_append {p x e : Str} (hp : ∀ c ∈ p, ¬ IsLineEnd c) (he : ∀ c ∈ e, IsLineEnd c) :
    p.isPrefixOf (x ++ e) = p.isPrefixOf x := by
  induction p generalizing x with
  | nil => cases x <;> simp
  | cons c p ih =>
    cases x with
    | nil =>
      cases e with
      | nil => rfl
      | cons d e =>
        have hne : c ≠ d := by
          rintro rfl
          exact hp c List.mem_cons_self (he c List.mem_cons_self)
        simp [List.isPrefixOf, hne]
    | cons d x =>
      simp only [List.cons_append, List.isPrefixOf]
      rw [ih fun c' hc' => hp c' (List.mem_cons_of_mem c hc')]

/-- INTERNAL: both scanners see the same prefixes. -/
theorem isPrefixOf_trimStart {p : Str} (hp : ∀ c ∈ p, ¬ IsLineEnd c) (raw : Str) :
    p.isPrefixOf (trimStart (stripLineEnd raw)) = p.isPrefixOf (trimStart raw) := by
  obtain ⟨e, heq, he⟩ := trimStart_stripLineEnd raw
  rw [heq, isPrefixOf_append hp he]

theorem isFence_trimStart (raw : Str) :
    isFence (trimStart (stripLineEnd raw)) = isFence (trimStart raw) := by
  have htick : ∀ c ∈ ['`', '`', '`'], ¬ IsLineEnd c := by
    intro c hc
    simp only [List.mem_cons, List.not_mem_nil, or_false, or_self] at hc
    rw [hc]
    rintro (h | h) <;> cases h
  have htilde : ∀ c ∈ ['~', '~', '~'], ¬ IsLineEnd c := by
    intro c hc
    simp only [List.mem_cons, List.not_mem_nil, or_false, or_self] at hc
    rw [hc]
    rintro (h | h) <;> cases h
  simp only [isFence, isPrefixOf_trimStart htick, isPrefixOf_trimStart htilde]

/-! ## The lines outside fences -/

/-- A line with its end, and how many characters stand before it. -/
structure BookLine where
  offset : ℕ
  raw : Str

def openLines : ℕ → Bool → List Str → List BookLine
  | _, _, [] => []
  | offset, inFence, raw :: rest =>
    let next := offset + raw.length
    if isFence (trimStart raw) then openLines next (!inFence) rest
    else if inFence then openLines next inFence rest
    else { offset := offset, raw := raw } :: openLines next inFence rest

/-- The heading the catalog sees on a line. -/
def catalogHeading (ln : BookLine) : Option Heading :=
  let trimmed := trimStart (stripLineEnd ln.raw)
  if isHeading trimmed then
    some { anchorId := headingAnchorId trimmed, title := headingTitle trimmed,
           level := hashCount trimmed, line := ln.offset }
  else none

/-- The heading the reader sees on a line. -/
def readerHeading (ln : BookLine) : Option BookHeading :=
  let trimmed := trimStart ln.raw
  (if trimmed.head? = some '#' then parseHeadingLine trimmed else none).map fun r =>
    { level := r.1, offset := ln.offset, anchorId := r.2 }

theorem headings_eq (offset : ℕ) (inFence : Bool) (lines : List Str) :
    headings offset inFence lines = (openLines offset inFence lines).filterMap catalogHeading := by
  induction lines generalizing offset inFence with
  | nil => rfl
  | cons raw rest ih =>
    simp only [headings, openLines, isFence_trimStart]
    split
    · exact ih _ _
    · split
      · exact ih _ _
      · rw [List.filterMap_cons]
        simp only [catalogHeading]
        split
        · rw [ih]
        · exact ih _ _

theorem collectHeadings_eq (offset : ℕ) (inFence : Bool) (lines : List Str) :
    collectHeadings offset inFence lines =
      (openLines offset inFence lines).filterMap readerHeading := by
  induction lines generalizing offset inFence with
  | nil => rfl
  | cons raw rest ih =>
    simp only [collectHeadings, openLines]
    split
    · exact ih _ _
    · cases inFence with
      | true =>
        simp only [Bool.not_true, Bool.false_and, Bool.false_eq_true, if_false, if_true]
        exact ih _ _
      | false =>
        simp only [Bool.not_false, Bool.true_and, decide_eq_true_eq, Bool.false_eq_true, if_false]
        rw [List.filterMap_cons]
        simp only [readerHeading]
        split
        · rename_i level id hparse
          rw [hparse, ih]
          rfl
        · rename_i hparse
          rw [hparse, ih]
          rfl

/-- INTERNAL: where a line outside fences stands among all lines. -/
theorem openLines_split {offset : ℕ} {inFence : Bool} {lines : List Str} {pre post : List BookLine}
    {ln : BookLine} (h : openLines offset inFence lines = pre ++ ln :: post) :
    ∃ before after, lines = before ++ ln.raw :: after ∧
      ln.offset = offset + before.flatten.length ∧ isFence (trimStart ln.raw) = false ∧
      post = openLines (ln.offset + ln.raw.length) false after := by
  induction lines generalizing offset inFence pre with
  | nil =>
    cases pre with
    | nil => cases h
    | cons _ _ => cases h
  | cons raw rest ih =>
    have hgo {next : Bool} {pre' : List BookLine}
        (hrest : openLines (offset + raw.length) next rest = pre' ++ ln :: post) :
        ∃ before after, raw :: rest = before ++ ln.raw :: after ∧
          ln.offset = offset + before.flatten.length ∧ isFence (trimStart ln.raw) = false ∧
          post = openLines (ln.offset + ln.raw.length) false after := by
      obtain ⟨before, after, hlines, hoff, hfence, hpost⟩ := ih hrest
      refine ⟨raw :: before, after, by rw [hlines]; rfl, ?_, hfence, hpost⟩
      rw [hoff, List.flatten_cons, List.length_append]
      omega
    simp only [openLines] at h
    split at h
    · exact hgo h
    · rename_i hfence
      split at h
      · exact hgo h
      · rename_i hin
        cases pre with
        | nil =>
          simp only [List.nil_append, List.cons.injEq] at h
          obtain ⟨rfl, hpost⟩ := h
          refine ⟨[], rest, rfl, by simp, by simpa using hfence, ?_⟩
          rw [← hpost]
          simp at hin
          rw [hin]
        | cons first pre =>
          simp only [List.cons_append, List.cons.injEq] at h
          exact hgo h.2

/-- INTERNAL: the lines stand one after the other, between the start and the end. -/
theorem openLines_bounds {offset : ℕ} {inFence : Bool} {lines : List Str} {ln : BookLine}
    (h : ln ∈ openLines offset inFence lines) :
    offset ≤ ln.offset ∧ ln.offset + ln.raw.length ≤ offset + lines.flatten.length := by
  obtain ⟨pre, post, hsplit⟩ := List.append_of_mem h
  obtain ⟨before, after, hlines, hoff, -, -⟩ := openLines_split hsplit
  rw [hlines, hoff]
  simp only [List.flatten_append, List.flatten_cons, List.length_append]
  omega

theorem openLines_later {offset : ℕ} {inFence : Bool} {lines : List Str} {pre post : List BookLine}
    {ln later : BookLine} (h : openLines offset inFence lines = pre ++ ln :: post)
    (hlater : later ∈ post) : ln.offset + ln.raw.length ≤ later.offset := by
  obtain ⟨before, after, -, -, -, hpost⟩ := openLines_split h
  rw [hpost] at hlater
  exact (openLines_bounds hlater).1

/-! ## What both see of a heading -/

/-- INTERNAL: hashes and a space in front. -/
theorem isPrefixOf_hashes (k : ℕ) (x : Str) :
    (List.replicate k '#' ++ [' ']).isPrefixOf x = true ↔
      hashCount x = k ∧ (x.drop k).head? = some ' ' := by
  induction k generalizing x with
  | zero =>
    cases x with
    | nil => simp [hashCount]
    | cons c x =>
      simp only [List.replicate_zero, List.nil_append, List.isPrefixOf, Bool.and_true, beq_iff_eq,
        List.drop_zero, List.head?_cons, Option.some.injEq, hashCount]
      constructor
      · rintro rfl
        exact ⟨by simp, rfl⟩
      · intro h
        exact h.2.symm
  | succ k ih =>
    cases x with
    | nil => simp [List.replicate_succ]
    | cons c x =>
      simp only [List.replicate_succ, List.cons_append, List.isPrefixOf, Bool.and_eq_true,
        beq_iff_eq, ih, List.drop_succ_cons]
      constructor
      · rintro ⟨rfl, hcount, hspace⟩
        refine ⟨?_, hspace⟩
        unfold hashCount at hcount ⊢
        simp [hcount]
      · rintro ⟨hcount, hspace⟩
        unfold hashCount at hcount ⊢
        by_cases hc : c = '#'
        · subst hc
          refine ⟨rfl, ?_, hspace⟩
          simpa using hcount
        · simp [hc] at hcount

def isH1 (ln : BookLine) : Bool := ['#', ' '].isPrefixOf (trimStart ln.raw)

def isH2 (ln : BookLine) : Bool := ['#', '#', ' '].isPrefixOf (trimStart ln.raw)

/-- INTERNAL: a line with `k` hashes and a space is a heading of this level. -/
theorem level_eq_iff (ln : BookLine) {k : ℕ} (hk : 0 < k ∧ k ≤ 6) :
    (List.replicate k '#' ++ [' ']).isPrefixOf (trimStart ln.raw) = true ↔
      ∃ h, catalogHeading ln = some h ∧ h.level = k := by
  have hnoEnd : ∀ c ∈ List.replicate k '#' ++ [' '], ¬ IsLineEnd c := by
    intro c hc
    rcases List.mem_append.mp hc with hc | hc
    · rw [List.eq_of_mem_replicate hc]
      rintro (h | h) <;> cases h
    · rw [List.mem_singleton.mp hc]
      rintro (h | h) <;> cases h
  rw [← isPrefixOf_trimStart hnoEnd, isPrefixOf_hashes]
  constructor
  · rintro ⟨hcount, hspace⟩
    have hhead : isHeading (trimStart (stripLineEnd ln.raw)) = true := by
      simp [isHeading, hcount, hspace, hk.1, hk.2]
    exact ⟨_, if_pos hhead, hcount⟩
  · rintro ⟨h, hh, hlevel⟩
    simp only [catalogHeading] at hh
    split at hh
    · rename_i hhead
      cases hh
      simp only at hlevel
      simp only [isHeading, Bool.and_eq_true, decide_eq_true_eq] at hhead
      rw [hlevel] at hhead
      exact ⟨hlevel, hhead.2⟩
    · cases hh

theorem isH1_iff (ln : BookLine) :
    isH1 ln = true ↔ ∃ h, catalogHeading ln = some h ∧ h.level = 1 :=
  level_eq_iff (k := 1) ln ⟨by omega, by omega⟩

theorem isH2_iff (ln : BookLine) :
    isH2 ln = true ↔ ∃ h, catalogHeading ln = some h ∧ h.level = 2 :=
  level_eq_iff (k := 2) ln ⟨by omega, by omega⟩

/-- INTERNAL: blanks at the end of a text that ends otherwise are all that is trimmed. -/
theorem trimEnd_append {x e : Str} {c : Char} (hx : x.getLast? = some c)
    (hc : isWhitespace c = false) (he : ∀ c ∈ e, IsLineEnd c) : trimEnd (x ++ e) = x := by
  obtain ⟨pre, rfl⟩ := List.getLast?_eq_some_iff.mp hx
  have hdrop : (e.reverse ++ c :: pre.reverse).dropWhile isWhitespace = c :: pre.reverse := by
    rw [List.dropWhile_append_of_pos]
    · simp [hc]
    · intro d hd
      exact isWhitespace_of_isLineEnd (he d (List.mem_reverse.mp hd))
  simp only [trimEnd, List.rdropWhile, List.reverse_append, List.reverse_cons, List.reverse_nil,
    List.nil_append, List.singleton_append, hdrop]
  simp

theorem drop_hashCount (x : Str) : x.drop (hashCount x) = x.dropWhile (· = '#') := by
  unfold hashCount
  nth_rewrite 2 [← List.takeWhile_append_dropWhile (p := (· = '#')) (l := x)]
  rw [List.drop_left]

/-- An id the catalog sees is an id the reader sees. -/
theorem readerHeading_of_anchorId {ln : BookLine} {h : Heading} {id : Str}
    (hh : catalogHeading ln = some h) (hid : h.anchorId = some id) :
    ∃ b, readerHeading ln = some b ∧ b.anchorId = some id ∧ b.offset = ln.offset := by
  obtain ⟨e, hraw, he⟩ := trimStart_stripLineEnd ln.raw
  simp only [catalogHeading] at hh
  split at hh
  · rename_i hhead
    cases hh
    simp only at hid
    obtain ⟨x, hx⟩ : ∃ x, x = trimStart (stripLineEnd ln.raw) := ⟨_, rfl⟩
    rw [← hx] at hid hhead hraw
    simp only [headingAnchorId, Option.filter_eq_some_iff] at hid
    obtain ⟨hexplicit, -⟩ := hid
    -- the title ends in a brace, hence the line without its end does
    have hbrace : x.getLast? = some '}' := by
      have htitle : (trimStart (x.dropWhile (· = '#'))).getLast? = some '}' := by
        simp only [explicitId, stripLast, Option.map_eq_some_iff, Option.bind_eq_some_iff] at hexplicit
        obtain ⟨r, ⟨before, hstrip, -⟩, -⟩ := hexplicit
        split at hstrip
        · assumption
        · cases hstrip
      have hsuffix : trimStart (x.dropWhile (· = '#')) <:+ x :=
        (List.dropWhile_suffix _).trans (List.dropWhile_suffix _)
      obtain ⟨pre, hpre⟩ := hsuffix
      rw [← hpre, List.getLast?_append, htitle]
      rfl
    have htrim : trimEnd (trimStart ln.raw) = x := by
      rw [hraw]
      exact trimEnd_append hbrace (by decide) he
    simp only [isHeading, Bool.and_eq_true, decide_eq_true_eq] at hhead
    obtain ⟨⟨hpos, hle⟩, hspace⟩ := hhead
    have hfirst : (trimStart ln.raw).head? = some '#' := by
      rw [hraw]
      cases x with
      | nil => simp [hashCount] at hpos
      | cons c x =>
        by_cases hc : c = '#'
        · simp [hc]
        · simp [hashCount, hc] at hpos
    have hparse : parseHeadingLine (trimStart ln.raw) = some (hashCount x, some id) := by
      have hrange : ¬ (hashCount x = 0 ∨ 6 < hashCount x) := by omega
      have hrest : explicitId (trimStart (x.drop (hashCount x))) = some id := by
        rw [drop_hashCount]
        exact hexplicit
      simp only [parseHeadingLine, htrim]
      rw [if_neg hrange, if_neg (not_not.mpr hspace), hrest]
    refine ⟨{ level := hashCount x, offset := ln.offset, anchorId := some id }, ?_, rfl, rfl⟩
    simp only [readerHeading, hfirst, if_true, hparse, Option.map_some]
  · cases hh

end Mycelium.Analysis.BookLines
