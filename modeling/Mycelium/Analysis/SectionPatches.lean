import Mycelium.Analysis.BookLines
import Mycelium.Analysis.Tokens
import Mycelium.Lib.Blocks
import Mycelium.Model.SectionPatch

/-!
# When a section is replaced

1. *Lines.* The patch is a pass over lines that puts the section in the place of each block
   that begins with its heading (`replaceSection_eq`).
2. *Twice.* Patching again changes nothing only if the heading is recognised and the content
   has no line that the patch would take for a heading (`recognised_of_idempotent`,
   `undivided_of_idempotent`).
3. *Sections.* Lines in fenced code are no headings; `Replaced` says that the section of the
   heading, and nothing else, gives way to the content.
4. *The condition.* The patch does that, once and for all, exactly where `Placed` holds
   (`section_replaced_iff`).
-/

set_option autoImplicit false

namespace Mycelium.Analysis.SectionPatches

open Mycelium.Model.Text
open Mycelium.Model.Outline (isFence)
open Mycelium.Model.SectionPatch
open Mycelium.Analysis.TextLines
open Mycelium.Analysis.BookLines
open Blocks

/-! ## Lines -/

/-- The line of a heading. -/
def headingLine (heading : List Char) : List Char := '#' :: ' ' :: heading

def reads (s line : List Char) : Bool := trim line = s

def atMargin (line : List Char) : Bool := ['#', ' '].isPrefixOf line

/-- The lines of a content as they are written, carriage returns included. -/
def rawLines (content : List Char) : List (List Char) := splitBy (· == '\n') content

def unlines (lines : List (List Char)) : List Char := lines.flatMap (· ++ ['\n'])

theorem unlines_append (x y : List (List Char)) : unlines (x ++ y) = unlines x ++ unlines y :=
  List.flatMap_append

theorem unlines_cons (l : List Char) (ls : List (List Char)) :
    unlines (l :: ls) = l ++ '\n' :: unlines ls := by
  rw [unlines, List.flatMap_cons, List.append_assoc]
  rfl

theorem unlines_rawLines (content : List Char) : unlines (rawLines content) = content ++ ['\n'] := by
  unfold rawLines
  induction content with
  | nil => rfl
  | cons c content ih =>
    rw [splitBy]
    by_cases hc : c = '\n'
    · subst hc
      simp only [beq_self_eq_true, if_true]
      rw [unlines_cons, ih]
      rfl
    · have hne : (c == '\n') = false := by simpa using hc
      simp only [hne, Bool.false_eq_true, if_false]
      cases hsplit : splitBy (· == '\n') content with
      | nil =>
        rw [hsplit] at ih
        simp [unlines] at ih
      | cons line lines =>
        rw [hsplit] at ih
        rw [unlines_cons] at ih ⊢
        rw [List.cons_append, ih]
        rfl

theorem sectionText_eq (s content : List Char) :
    sectionText s content = unlines (s :: rawLines content) := by
  rw [unlines_cons, unlines_rawLines, sectionText, List.append_assoc]
  rfl

/-- The pass over the lines of a body. -/
def patched (s : List Char) (c lines : List (List Char)) : List (List Char) :=
  if lines.any (reads s) then replaceBlocks (reads s) atMargin s c false lines else lines ++ s :: c

/-- INTERNAL: one line of the patch is one of the pass. -/
theorem foldl_patchLine (s content : List Char) (lines : List (List Char)) (st : PatchState) :
    (lines.foldl (patchLine s content) st).out =
        st.out ++ unlines (replaceBlocks (reads s) atMargin s (rawLines content) st.inTarget lines) ∧
      (lines.foldl (patchLine s content) st).replaced = (st.replaced || lines.any (reads s)) := by
  induction lines generalizing st with
  | nil => exact ⟨(List.append_nil _).symm, (Bool.or_false _).symm⟩
  | cons line lines ih =>
    rw [List.foldl_cons]
    obtain ⟨hout, hreplaced⟩ := ih (patchLine s content st line)
    rw [hout, hreplaced, List.any_cons, replaceBlocks]
    unfold patchLine
    by_cases hreads : trim line = s
    · have hmark : reads s line = true := decide_eq_true hreads
      simp only [if_pos hreads, hmark, if_true, Bool.true_or, Bool.or_true, and_true]
      rw [← List.cons_append, unlines_append, ← sectionText_eq, List.append_assoc]
    · have hmark : reads s line = false := decide_eq_false hreads
      simp only [if_neg hreads, hmark, Bool.false_or, Bool.false_eq_true, if_false, and_true]
      cases hin : st.inTarget && !(['#', ' '].isPrefixOf line) with
      | true =>
        have hskip : (st.inTarget && !atMargin line) = true := hin
        rw [hskip]
        rfl
      | false =>
        have hskip : (st.inTarget && !atMargin line) = false := hin
        rw [hskip]
        simp only [Bool.false_eq_true, if_false]
        rw [unlines_cons, List.append_assoc, List.append_assoc]
        rfl

/-- INTERNAL: lines put together end with a line break. -/
theorem getLast?_unlines {lines : List (List Char)} (h : unlines lines ≠ []) :
    (unlines lines).getLast? = some '\n' := by
  obtain rfl | ⟨before, last, rfl⟩ := List.eq_nil_or_concat lines
  · exact absurd rfl h
  · have hlast : unlines [last] = last ++ ['\n'] := by
      rw [unlines_cons]
      rfl
    rw [List.concat_eq_append, unlines_append, hlast, ← List.append_assoc, List.getLast?_concat]

/-- The patch is a pass over lines. -/
theorem replaceSection_eq (body heading content : List Char) :
    replaceSection body heading content =
      unlines (patched (headingLine heading) (rawLines content) (textLines body)) := by
  obtain ⟨hout, hreplaced⟩ := foldl_patchLine (headingLine heading) content (textLines body)
    { out := [], replaced := false, inTarget := false }
  rw [List.nil_append] at hout
  rw [Bool.false_or] at hreplaced
  unfold patched
  unfold headingLine at hout hreplaced ⊢
  simp only [replaceSection, hreplaced, hout]
  split
  · rfl
  · rename_i hany
    have hnone : ∀ l ∈ textLines body, reads ('#' :: ' ' :: heading) l = false := by
      intro l hl
      exact eq_false_of_ne_true fun hl' => hany (List.any_eq_true.mpr ⟨l, hl, hl'⟩)
    rw [replaceBlocks_of_no_mark hnone, if_neg, unlines_append, ← sectionText_eq]
    rintro ⟨hlast, hne⟩
    exact hlast (getLast?_unlines hne)

/-! ## Lines of a patched text -/

def stripReturn (l : List Char) : List Char := if l.getLast? = some '\r' then l.dropLast else l

theorem stripLineEnd_concat (x : List Char) : stripLineEnd (x ++ ['\n']) = stripReturn x := by
  simp [stripLineEnd, stripReturn]

theorem mem_stripReturn {x : List Char} {c : Char} (h : c ∈ stripReturn x) : c ∈ x := by
  unfold stripReturn at h
  split at h
  · exact List.dropLast_subset x h
  · exact h

theorem noBreak_of_mem_textLines {text l : List Char} (h : l ∈ textLines text) : '\n' ∉ l := by
  obtain ⟨piece, hpiece, rfl⟩ := List.mem_map.mp h
  obtain ⟨x, hx, rfl | rfl⟩ := line_shape hpiece
  · intro hmem
    unfold stripLineEnd at hmem
    split at hmem
    · rename_i hlast
      exact hx (List.mem_of_getLast? hlast)
    · exact hx hmem
  · rw [stripLineEnd_concat]
    exact fun hmem => hx (mem_stripReturn hmem)

theorem noBreak_of_mem_rawLines {content l : List Char} (h : l ∈ rawLines content) : '\n' ∉ l := by
  intro hmem
  have hno := Tokens.not_sep_of_mem_splitBy h '\n' hmem
  cases hno

theorem splitInclusive_unlines {lines : List (List Char)} (h : ∀ l ∈ lines, '\n' ∉ l) :
    splitInclusive (unlines lines) = lines.map (· ++ ['\n']) := by
  induction lines with
  | nil => rfl
  | cons l lines ih =>
    have hl : ∀ c ∈ l, c ≠ '\n' := by
      rintro c hc rfl
      exact h l List.mem_cons_self hc
    rw [unlines_cons, splitInclusive_append, splitInclusive_line hl,
      ih fun l' hl' => h l' (List.mem_cons_of_mem l hl')]
    rfl

theorem textLines_unlines {lines : List (List Char)} (h : ∀ l ∈ lines, '\n' ∉ l) :
    textLines (unlines lines) = lines.map stripReturn := by
  rw [textLines, splitInclusive_unlines h, List.map_map]
  apply List.map_congr_left
  intro l hl
  exact stripLineEnd_concat l

theorem unlines_inj {x y : List (List Char)} (hx : ∀ l ∈ x, '\n' ∉ l) (hy : ∀ l ∈ y, '\n' ∉ l)
    (h : unlines x = unlines y) : x = y := by
  have hlines := congrArg splitInclusive h
  rw [splitInclusive_unlines hx, splitInclusive_unlines hy] at hlines
  exact List.map_injective_iff.mpr (List.append_left_injective ['\n']) hlines

/-- INTERNAL: a carriage return at the end is blank. -/
theorem trim_stripReturn (l : List Char) : trim (stripReturn l) = trim l := by
  unfold stripReturn
  split
  · rename_i hlast
    obtain ⟨x, rfl⟩ := List.getLast?_eq_some_iff.mp hlast
    rw [List.dropLast_concat]
    have hblank : isWhitespace '\r' = true := by decide
    unfold trim trimEnd
    rw [List.dropWhile_append]
    split
    · rename_i hnil
      rw [List.isEmpty_iff.mp hnil]
      simp [hblank]
    · rw [List.rdropWhile_concat_pos _ _ _ hblank]
  · rfl

theorem reads_stripReturn (s l : List Char) : reads s (stripReturn l) = reads s l := by
  rw [reads, trim_stripReturn, reads]

theorem atMargin_stripReturn (l : List Char) : atMargin (stripReturn l) = atMargin l := by
  unfold stripReturn
  split
  · rename_i hlast
    obtain ⟨x, rfl⟩ := List.getLast?_eq_some_iff.mp hlast
    have hprefix : ∀ c ∈ ['#', ' '], ¬ IsLineEnd c := by
      intro c hc
      simp only [List.mem_cons, List.not_mem_nil, or_false] at hc
      rcases hc with rfl | rfl
      · rintro (h | h) <;> cases h
      · rintro (h | h) <;> cases h
    have hreturn : ∀ c ∈ ['\r'], IsLineEnd c := by
      intro c hc
      exact .inr (List.mem_singleton.mp hc)
    rw [List.dropLast_concat]
    exact (isPrefixOf_append hprefix hreturn).symm
  · rfl

/-! ## Twice -/

/-- A line can read this heading. -/
structure Recognised (heading : List Char) : Prop where
  noBreak : '\n' ∉ heading
  visibleEnd : ∃ c, heading.getLast? = some c ∧ isWhitespace c = false

theorem recognised_of_reads {heading l : List Char} (hl : '\n' ∉ l)
    (h : reads (headingLine heading) l = true) : Recognised heading := by
  have htrim : trim l = '#' :: ' ' :: heading := of_decide_eq_true h
  have hsub : ∀ c ∈ trim l, c ∈ l :=
    fun c hc => (List.dropWhile_suffix _).subset ((List.rdropWhile_prefix _ _).subset hc)
  refine ⟨?_, ?_⟩
  · intro hbreak
    apply hl
    apply hsub
    rw [htrim]
    exact List.mem_cons_of_mem _ (List.mem_cons_of_mem _ hbreak)
  · have hne : trim l ≠ [] := by
      rw [htrim]
      exact List.cons_ne_nil _ _
    have hvisible : ¬ isWhitespace ((trim l).getLast hne) = true := List.rdropWhile_last_not _ _ hne
    obtain rfl | ⟨before, c, rfl⟩ := List.eq_nil_or_concat heading
    · simp only [htrim] at hvisible
      exact absurd (show isWhitespace ' ' = true by decide) hvisible
    · refine ⟨c, by simp, ?_⟩
      simp only [htrim] at hvisible
      simpa using hvisible

theorem reads_headingLine {heading : List Char} (h : Recognised heading) :
    reads (headingLine heading) (headingLine heading) = true := by
  obtain ⟨c, hlast, hc⟩ := h.visibleEnd
  have hend : (headingLine heading).getLast? = some c := by
    obtain ⟨before, rfl⟩ := List.getLast?_eq_some_iff.mp hlast
    exact @List.getLast?_concat _ ('#' :: ' ' :: before) c
  have htrim := trimEnd_append hend hc (fun d (hd : d ∈ []) => absurd hd List.not_mem_nil)
  rw [List.append_nil] at htrim
  apply decide_eq_true
  exact htrim

/-- The content has no line that the patch takes for a heading. -/
def Undivided (heading content : List Char) : Prop :=
  ∀ l ∈ rawLines content, reads (headingLine heading) l = false ∧ atMargin l = false

theorem inert {heading content : List Char} (hheading : Recognised heading)
    (hcontent : Undivided heading content) :
    Inert (reads (headingLine heading)) atMargin (headingLine heading) (rawLines content) where
  mark := reads_headingLine hheading
  bound := rfl
  block := hcontent

/-- INTERNAL: a text has a piece for each of its line breaks. -/
theorem count_break_le (l : List Char) : l.count '\n' ≤ (splitInclusive l).length := by
  induction l with
  | nil => exact Nat.le_refl 0
  | cons c l ih =>
    rw [splitInclusive]
    split
    · rename_i hc
      rw [hc, List.count_cons_self, List.length_cons]
      omega
    · rename_i hc
      rw [List.count_cons_of_ne hc]
      split
      · rename_i hnil
        rw [hnil] at ih
        simp only [List.length_nil, List.length_cons] at ih ⊢
        omega
      · rename_i line lines hlines
        rw [hlines] at ih
        exact ih

theorem length_le_count_unlines (lines : List (List Char)) :
    lines.length ≤ (unlines lines).count '\n' := by
  induction lines with
  | nil => exact Nat.le_refl 0
  | cons l lines ih =>
    rw [unlines_cons, List.count_append, List.count_cons_self, List.length_cons]
    omega

theorem recognised_of_idempotent {body heading content : List Char}
    (h : replaceSection (replaceSection body heading content) heading content =
      replaceSection body heading content) : Recognised heading := by
  by_contra hnot
  have hnone (text l : List Char) (hl : l ∈ textLines text) : reads (headingLine heading) l = false :=
    eq_false_of_ne_true fun hreads =>
      hnot (recognised_of_reads (noBreak_of_mem_textLines hl) hreads)
  -- nothing is recognised, so the section is put behind the text once more
  have hagain (text : List Char) : replaceSection text heading content =
      unlines (textLines text ++ headingLine heading :: rawLines content) := by
    have hany : ¬ (textLines text).any (reads (headingLine heading)) = true := by
      intro hany
      obtain ⟨l, hl, hreads⟩ := List.any_eq_true.mp hany
      rw [hnone text l hl] at hreads
      cases hreads
    rw [replaceSection_eq, patched, if_neg hany]
  have hcount := congrArg (List.count '\n') h
  have hle := count_break_le (replaceSection body heading content)
  have hlines : (textLines (replaceSection body heading content)).length =
      (splitInclusive (replaceSection body heading content)).length := List.length_map _
  have hmore := length_le_count_unlines
    (textLines (replaceSection body heading content) ++ headingLine heading :: rawLines content)
  rw [hagain (replaceSection body heading content)] at hcount
  rw [List.length_append, List.length_cons, hlines] at hmore
  omega

theorem noBreak_patched {body heading content l : List Char} (hheading : Recognised heading)
    (h : l ∈ patched (headingLine heading) (rawLines content) (textLines body)) : '\n' ∉ l := by
  have hs : '\n' ∉ headingLine heading := by
    simp [headingLine, hheading.noBreak]
  unfold patched at h
  split at h
  · rcases mem_replaceBlocks h with rfl | hc | hl
    · exact hs
    · exact noBreak_of_mem_rawLines hc
    · exact noBreak_of_mem_textLines hl
  · rcases List.mem_append.mp h with hl | h
    · exact noBreak_of_mem_textLines hl
    · rcases List.mem_cons.mp h with rfl | hc
      · exact hs
      · exact noBreak_of_mem_rawLines hc

/-- INTERNAL: the lines of a patched text, and what patching again makes of them. -/
theorem textLines_replaceSection {body heading content : List Char}
    (hheading : Recognised heading) : textLines (replaceSection body heading content) =
      (patched (headingLine heading) (rawLines content) (textLines body)).map stripReturn := by
  rw [replaceSection_eq, textLines_unlines fun l hl => noBreak_patched hheading hl]

theorem mark_mem_patched (s : List Char) (c lines : List (List Char)) : s ∈ patched s c lines := by
  unfold patched
  split
  · rename_i hany
    exact mem_of_mark (List.any_eq_true.mp hany) false
  · exact List.mem_append_right _ List.mem_cons_self

theorem patched_again {body heading content : List Char} (hheading : Recognised heading) :
    replaceSection (replaceSection body heading content) heading content =
        replaceSection body heading content ↔
      replaceBlocks (reads (headingLine heading)) atMargin (headingLine heading) (rawLines content)
          false
          ((patched (headingLine heading) (rawLines content) (textLines body)).map stripReturn) =
        patched (headingLine heading) (rawLines content) (textLines body) := by
  have hany : ((patched (headingLine heading) (rawLines content) (textLines body)).map
      stripReturn).any (reads (headingLine heading)) = true := by
    refine List.any_eq_true.mpr ⟨_, List.mem_map_of_mem (mark_mem_patched _ _ _), ?_⟩
    rw [reads_stripReturn]
    exact reads_headingLine hheading
  have hbreaks := fun l hl => @noBreak_patched (replaceSection body heading content) heading
    content l hheading hl
  rw [replaceSection_eq (replaceSection body heading content)]
  rw [textLines_replaceSection hheading, patched, if_pos hany] at hbreaks ⊢
  rw [replaceSection_eq body]
  constructor
  · exact unlines_inj hbreaks fun l hl => noBreak_patched hheading hl
  · exact fun h => by rw [h]

theorem undivided_of_idempotent {body heading content : List Char}
    (h : replaceSection (replaceSection body heading content) heading content =
      replaceSection body heading content) : Undivided heading content := by
  have hheading := recognised_of_idempotent h
  have hself := reads_headingLine hheading
  exact inert_of_fixed (reads_stripReturn _) atMargin_stripReturn hself rfl
    ((patched_again hheading).mp h) ⟨_, mark_mem_patched _ _ _, hself⟩

/-! ## Sections -/

/-- Each line with whether it is code: in a fence, or one. -/
@[simp] def flagLines : Bool → List (List Char) → List (List Char × Bool)
  | _, [] => []
  | inFence, l :: ls =>
    if isFence (trimStart l) then (l, true) :: flagLines (!inFence) ls
    else (l, inFence) :: flagLines inFence ls

/-- Whether a fence is open after the lines. -/
@[simp] def fenceAfter : Bool → List (List Char) → Bool
  | inFence, [] => inFence
  | inFence, l :: ls => fenceAfter (if isFence (trimStart l) then !inFence else inFence) ls

def flagged (text : List Char) : List (List Char × Bool) := flagLines false (textLines text)

/-- A line outside code that reads the heading. -/
def Named (s : List Char) (x : List Char × Bool) : Prop := x.2 = false ∧ reads s x.1 = true

/-- A line outside code that is a level-one heading. -/
def TopLevel (x : List Char × Bool) : Prop :=
  x.2 = false ∧ ['#', ' '].isPrefixOf (trimStart x.1) = true

/-- The section of the heading, from its line to the next level-one heading, or nothing where
there is none, has given way to the content, and all other lines stand as they stood: as
text, and as lines that are code or not. -/
inductive Replaced (body heading content out : List Char) : Prop
  | appended (hnone : ∀ x ∈ flagged body, ¬ Named (headingLine heading) x)
      (hout : out = unlines ((flagged body).map Prod.fst) ++
        sectionText (headingLine heading) content)
      (hlines : flagged out =
        flagged body ++ (headingLine heading, false) :: flagged (content ++ ['\n']))
  | replaced {before dropped after : List (List Char × Bool)} {head : List Char × Bool}
      (hsplit : flagged body = before ++ head :: (dropped ++ after))
      (hhead : Named (headingLine heading) head) (hdropped : ∀ x ∈ dropped, ¬ TopLevel x)
      (hafter : ∀ x ∈ after.head?, TopLevel x)
      (hothers : ∀ x ∈ before ++ after, ¬ Named (headingLine heading) x)
      (hout : out = unlines (before.map Prod.fst) ++ sectionText (headingLine heading) content ++
        unlines (after.map Prod.fst))
      (hlines : flagged out =
        before ++ (headingLine heading, false) :: (flagged (content ++ ['\n']) ++ after))

/-- Where the patch finds the section: nothing reads the heading and no fence is open at the
end, or one line outside code does, and behind it stands a line that ends its section for the
patch as it does in the text. Lines in code that read the heading already have the content
behind them, no line that stays ends in a carriage return, and the content leaves no fence
open in front of others. -/
inductive Placed (body heading content : List Char) : Prop
  | absent (hnone : ∀ l ∈ textLines body, reads (headingLine heading) l = false)
      (hreturn : ∀ l ∈ textLines body, stripReturn l = l)
      (hclosed : fenceAfter false (textLines body) = false)
  | present {before dropped after : List (List Char × Bool)} {head : List Char × Bool}
      (hsplit : flagged body = before ++ head :: (dropped ++ after))
      (hhead : Named (headingLine heading) head)
      (hdropped : ∀ x ∈ dropped, reads (headingLine heading) x.1 = false ∧
        atMargin x.1 = false ∧ ¬ TopLevel x)
      (hafter : ∀ x ∈ after.head?, TopLevel x ∧ atMargin x.1 = true)
      (hothers : ∀ x ∈ before ++ after, ¬ Named (headingLine heading) x)
      (hbefore : Settled (reads (headingLine heading)) atMargin (headingLine heading)
        (rawLines content) (before.map Prod.fst))
      (hrest : Settled (reads (headingLine heading)) atMargin (headingLine heading)
        (rawLines content) (after.map Prod.fst))
      (hreturn : ∀ x ∈ before ++ after, stripReturn x.1 = x.1)
      (hclosed : after = [] ∨ fenceAfter false (textLines (content ++ ['\n'])) = false)

theorem map_fst_flagLines (inFence : Bool) (lines : List (List Char)) :
    (flagLines inFence lines).map Prod.fst = lines := by
  induction lines generalizing inFence with
  | nil => rfl
  | cons l lines ih =>
    rw [flagLines]
    split
    · rw [List.map_cons, ih]
    · rw [List.map_cons, ih]

theorem flagLines_append (inFence : Bool) (x y : List (List Char)) :
    flagLines inFence (x ++ y) = flagLines inFence x ++ flagLines (fenceAfter inFence x) y := by
  induction x generalizing inFence with
  | nil => rfl
  | cons l x ih =>
    rw [List.cons_append, flagLines, flagLines, fenceAfter]
    split
    · rw [ih, List.cons_append]
    · rw [ih, List.cons_append]

/-- INTERNAL: each part of flagged lines is flagged from where it begins. -/
theorem flagLines_split {inFence : Bool} {lines : List (List Char)}
    {x y : List (List Char × Bool)} (h : flagLines inFence lines = x ++ y) :
    x = flagLines inFence (x.map Prod.fst) ∧
      y = flagLines (fenceAfter inFence (x.map Prod.fst)) (y.map Prod.fst) := by
  have hlines := map_fst_flagLines inFence lines
  rw [h, List.map_append] at hlines
  rw [← hlines, flagLines_append] at h
  have hlength : (flagLines inFence (x.map Prod.fst)).length = x.length := by
    rw [← List.length_map (f := Prod.fst), map_fst_flagLines, List.length_map]
  obtain ⟨hx, hy⟩ := List.append_inj h hlength
  exact ⟨hx.symm, hy.symm⟩

theorem isFence_headingLine (heading : List Char) :
    isFence (trimStart (headingLine heading)) = false := rfl

theorem flagLines_headingLine (inFence : Bool) (heading : List Char) (lines : List (List Char)) :
    flagLines inFence (headingLine heading :: lines) =
      (headingLine heading, inFence) :: flagLines inFence lines := by
  rw [flagLines, isFence_headingLine]
  rfl

/-- INTERNAL: no fence is open before a line outside code. -/
theorem open_of_flag {inFence : Bool} {x : List Char × Bool} {rest : List (List Char × Bool)}
    (h : x :: rest = flagLines inFence ((x :: rest).map Prod.fst)) (hx : x.2 = false) :
    inFence = false ∧ isFence (trimStart x.1) = false := by
  rw [List.map_cons, flagLines] at h
  split at h
  · rw [(List.cons.inj h).1] at hx
    cases hx
  · rename_i hfence
    rw [(List.cons.inj h).1] at hx
    exact ⟨hx, eq_false_of_ne_true hfence⟩

/-! ## The condition -/

theorem stripReturn_headingLine {heading : List Char} (h : Recognised heading) :
    stripReturn (headingLine heading) = headingLine heading := by
  obtain ⟨c, hlast, hc⟩ := h.visibleEnd
  unfold stripReturn
  rw [if_neg]
  intro hreturn
  obtain ⟨before, rfl⟩ := List.getLast?_eq_some_iff.mp hlast
  have hend := @List.getLast?_concat _ ('#' :: ' ' :: before) c
  have hsame : c = '\r' := Option.some.inj (hend.symm.trans hreturn)
  rw [hsame] at hc
  revert hc
  decide

theorem textLines_content (content : List Char) :
    textLines (content ++ ['\n']) = (rawLines content).map stripReturn := by
  rw [← unlines_rawLines, textLines_unlines fun l hl => noBreak_of_mem_rawLines hl]

theorem map_eq_self_iff {l : List (List Char)} :
    l.map stripReturn = l ↔ ∀ a ∈ l, stripReturn a = a := by
  nth_rewrite 2 [← List.map_id l]
  exact List.map_inj_left

section Condition

variable {body heading content : List Char}

/-- INTERNAL: the lines of the patched text, where the section stands between two parts. -/
theorem textLines_of_split (hheading : Recognised heading) {x y : List (List Char)}
    (hpatched : patched (headingLine heading) (rawLines content) (textLines body) =
      x ++ headingLine heading :: (rawLines content ++ y)) :
    textLines (replaceSection body heading content) = x.map stripReturn ++ headingLine heading ::
      (textLines (content ++ ['\n']) ++ y.map stripReturn) := by
  rw [textLines_replaceSection hheading, hpatched, List.map_append, List.map_cons, List.map_append,
    stripReturn_headingLine hheading, textLines_content]

/-- INTERNAL: there it is found again. -/
theorem idempotent_of_split (hheading : Recognised heading) (hcontent : Undivided heading content)
    {x y : List (List Char)}
    (hpatched : patched (headingLine heading) (rawLines content) (textLines body) =
      x ++ headingLine heading :: (rawLines content ++ y))
    (hx : Settled (reads (headingLine heading)) atMargin (headingLine heading) (rawLines content) x)
    (hy : Settled (reads (headingLine heading)) atMargin (headingLine heading) (rawLines content) y)
    (hhead : ∀ l ∈ y.head?, atMargin l = true) (hreturn : ∀ l ∈ x ++ y, stripReturn l = l) :
    replaceSection (replaceSection body heading content) heading content =
      replaceSection body heading content := by
  have hinert := inert hheading hcontent
  have hxr := map_eq_self_iff.mpr fun l hl => hreturn l (List.mem_append_left y hl)
  have hyr := map_eq_self_iff.mpr fun l hl => hreturn l (List.mem_append_right x hl)
  have hblock : ∀ l ∈ (rawLines content).map stripReturn,
      reads (headingLine heading) l = false ∧ atMargin l = false := by
    intro l hl
    obtain ⟨l', hl', rfl⟩ := List.mem_map.mp hl
    rw [reads_stripReturn, atMargin_stripReturn]
    exact hcontent l' hl'
  rw [patched_again hheading, hpatched, List.map_append, List.map_cons, List.map_append, hxr, hyr,
    stripReturn_headingLine hheading, replaceBlocks_append_mark hinert.mark,
    replaceBlocks_of_settled hinert hx, replaceBlocks_inside hblock,
    replaceBlocks_congr (fun l hl => .inr (hhead l hl)) true false,
    replaceBlocks_of_settled hinert hy]

/-- INTERNAL: the pass around the section. -/
theorem patched_of_named {x y z : List (List Char)} {m : List Char}
    (hlines : textLines body = x ++ m :: (y ++ z)) (hm : reads (headingLine heading) m = true) :
    patched (headingLine heading) (rawLines content) (textLines body) =
      replaceBlocks (reads (headingLine heading)) atMargin (headingLine heading) (rawLines content)
        false x ++ headingLine heading :: (rawLines content ++
          replaceBlocks (reads (headingLine heading)) atMargin (headingLine heading)
            (rawLines content) true (y ++ z)) := by
  have hany : (textLines body).any (reads (headingLine heading)) = true := by
    refine List.any_eq_true.mpr ⟨m, ?_, hm⟩
    rw [hlines]
    exact List.mem_append_right x List.mem_cons_self
  rw [patched, if_pos hany, hlines, replaceBlocks_append_mark hm]

theorem patched_of_absent (hnone : ∀ l ∈ textLines body, reads (headingLine heading) l = false) :
    patched (headingLine heading) (rawLines content) (textLines body) =
      textLines body ++ headingLine heading :: (rawLines content ++ []) := by
  have hany : ¬ (textLines body).any (reads (headingLine heading)) = true := by
    intro hany
    obtain ⟨l, hl, hreads⟩ := List.any_eq_true.mp hany
    rw [hnone l hl] at hreads
    cases hreads
  rw [patched, if_neg hany, List.append_nil]

/-- INTERNAL: a part of the lines, where a mark outside code would be the section. -/
theorem textLines_of_flagged {x y : List (List Char × Bool)} (h : flagged body = x ++ y) :
    textLines body = x.map Prod.fst ++ y.map Prod.fst := by
  rw [← map_fst_flagLines false (textLines body), ← flagged, h, List.map_append]

/-- INTERNAL: around a section of the body no fence is open. -/
theorem flags_of_split {before dropped after : List (List Char × Bool)} {head : List Char × Bool}
    (hsplit : flagged body = before ++ head :: (dropped ++ after))
    (hhead : Named (headingLine heading) head) (hafter : ∀ x ∈ after.head?, TopLevel x) :
    before = flagLines false (before.map Prod.fst) ∧
      fenceAfter false (before.map Prod.fst) = false ∧
      after = flagLines false (after.map Prod.fst) := by
  obtain ⟨hbefore, hrest⟩ := flagLines_split hsplit
  refine ⟨hbefore, (open_of_flag hrest hhead.1).1, ?_⟩
  rw [← List.cons_append] at hsplit
  rw [← List.append_assoc] at hsplit
  have hlast := (flagLines_split hsplit).2
  cases after with
  | nil => rfl
  | cons x after =>
    have hopen := (open_of_flag hlast (hafter x rfl).1).1
    rw [hopen] at hlast
    exact hlast

/-- INTERNAL: what the patch leaves of a body, as lines that are code or not. -/
theorem flagged_of_split (hheading : Recognised heading)
    {before after : List (List Char × Bool)}
    (hpatched : patched (headingLine heading) (rawLines content) (textLines body) =
      before.map Prod.fst ++ headingLine heading :: (rawLines content ++ after.map Prod.fst))
    (hbefore : before = flagLines false (before.map Prod.fst))
    (hopen : fenceAfter false (before.map Prod.fst) = false)
    (hreturn : ∀ x ∈ before ++ after, stripReturn x.1 = x.1) :
    flagged (replaceSection body heading content) =
      before ++ (headingLine heading, false) :: (flagged (content ++ ['\n']) ++
        flagLines (fenceAfter false (textLines (content ++ ['\n']))) (after.map Prod.fst)) := by
  have hfixed {l : List (List Char × Bool)} (hl : ∀ x ∈ l, x ∈ before ++ after) :
      (l.map Prod.fst).map stripReturn = l.map Prod.fst := by
    rw [map_eq_self_iff]
    intro a ha
    obtain ⟨x, hx, rfl⟩ := List.mem_map.mp ha
    exact hreturn x (hl x hx)
  rw [flagged, textLines_of_split hheading hpatched,
    hfixed fun x hx => List.mem_append_left after hx,
    hfixed fun x hx => List.mem_append_right before hx,
    flagLines_append, hopen, ← hbefore, flagLines_headingLine, flagLines_append]
  rfl

theorem replaced_of_placed (hheading : Recognised heading) (hcontent : Undivided heading content)
    (h : Placed body heading content) :
    Replaced body heading content (replaceSection body heading content) ∧
      replaceSection (replaceSection body heading content) heading content =
        replaceSection body heading content := by
  have hinert := inert hheading hcontent
  cases h with
  | absent hnone hreturn hclosed =>
    have hpatched := @patched_of_absent body heading content hnone
    have hbody := map_fst_flagLines false (textLines body)
    have hsettled : Settled (reads (headingLine heading)) atMargin (headingLine heading)
        (rawLines content) (textLines body) := by
      intro x m y hsplit hm
      have hno : reads (headingLine heading) m = false := by
        apply hnone
        rw [hsplit]
        exact List.mem_append_right x List.mem_cons_self
      rw [hm] at hno
      cases hno
    refine ⟨.appended ?_ ?_ ?_, ?_⟩
    · rintro x hx ⟨-, hreads⟩
      have hmem : x.1 ∈ textLines body := by
        rw [← hbody]
        exact List.mem_map_of_mem hx
      rw [hnone _ hmem] at hreads
      cases hreads
    · rw [replaceSection_eq, hpatched, flagged, hbody, sectionText_eq, unlines_append,
        List.append_nil]
    · rw [flagged, textLines_of_split hheading hpatched, map_eq_self_iff.mpr hreturn,
        flagLines_append, hclosed, flagLines_headingLine, List.map_nil, List.append_nil]
      rfl
    · refine idempotent_of_split hheading hcontent hpatched hsettled ?_ ?_ ?_
      · intro x m y hsplit
        cases x <;> cases hsplit
      · intro l hl
        cases hl
      · rw [List.append_nil]
        exact hreturn
  | @present before dropped after head hsplit hhead hdropped hafter hothers hbefore hrest hreturn
      hclosed =>
    have htop : ∀ x ∈ after.head?, TopLevel x := fun x hx => (hafter x hx).1
    obtain ⟨hbeforeFlags, hopen, hafterFlags⟩ := flags_of_split hsplit hhead htop
    have hlines : textLines body = before.map Prod.fst ++ head.1 ::
        (dropped.map Prod.fst ++ after.map Prod.fst) := by
      rw [textLines_of_flagged hsplit, List.map_cons, List.map_append]
    have hmargin : ∀ l ∈ (after.map Prod.fst).head?, atMargin l = true := by
      intro l hl
      rw [List.head?_map, Option.mem_def, Option.map_eq_some_iff] at hl
      obtain ⟨x, hx, rfl⟩ := hl
      exact (hafter x hx).2
    have hgone : ∀ l ∈ dropped.map Prod.fst,
        reads (headingLine heading) l = false ∧ atMargin l = false := by
      intro l hl
      obtain ⟨x, hx, rfl⟩ := List.mem_map.mp hl
      exact ⟨(hdropped x hx).1, (hdropped x hx).2.1⟩
    have hpatched := @patched_of_named body heading content _ _ _ _ hlines hhead.2
    rw [replaceBlocks_of_settled hinert hbefore, replaceBlocks_inside hgone,
      replaceBlocks_congr (fun l hl => .inr (hmargin l hl)) true false,
      replaceBlocks_of_settled hinert hrest] at hpatched
    refine ⟨.replaced hsplit hhead (fun x hx => (hdropped x hx).2.2) htop hothers ?_ ?_, ?_⟩
    · rw [replaceSection_eq, hpatched, unlines_append, ← List.cons_append, unlines_append,
        sectionText_eq, List.append_assoc]
    · rw [flagged_of_split hheading hpatched hbeforeFlags hopen hreturn]
      rcases hclosed with rfl | hclosed
      · rfl
      · rw [hclosed, ← hafterFlags]
    · refine idempotent_of_split hheading hcontent hpatched hbefore hrest hmargin ?_
      rw [← List.map_append]
      intro l hl
      obtain ⟨x, hx, rfl⟩ := List.mem_map.mp hl
      exact hreturn x hx

/-- INTERNAL: a section that was put behind the text. -/
theorem placed_of_appended (hheading : Recognised heading) (hcontent : Undivided heading content)
    (hout : replaceSection body heading content = unlines ((flagged body).map Prod.fst) ++
      sectionText (headingLine heading) content)
    (hlines : flagged (replaceSection body heading content) =
      flagged body ++ (headingLine heading, false) :: flagged (content ++ ['\n'])) :
    Placed body heading content := by
  have hinert := inert hheading hcontent
  have hbody : (flagged body).map Prod.fst = textLines body := map_fst_flagLines _ _
  have hpatched : patched (headingLine heading) (rawLines content) (textLines body) =
      textLines body ++ headingLine heading :: rawLines content := by
    rw [replaceSection_eq, hbody, sectionText_eq, ← unlines_append] at hout
    refine unlines_inj (fun l hl => noBreak_patched hheading hl) ?_ hout
    intro l hl
    rcases List.mem_append.mp hl with hl | hl
    · exact noBreak_of_mem_textLines hl
    · rcases List.mem_cons.mp hl with rfl | hl
      · simp [headingLine, hheading.noBreak]
      · exact noBreak_of_mem_rawLines hl
  have hnone : ∀ l ∈ textLines body, reads (headingLine heading) l = false := by
    intro l hl
    by_contra hmark
    have hany : (textLines body).any (reads (headingLine heading)) = true :=
      List.any_eq_true.mpr ⟨l, hl, by simpa using hmark⟩
    -- a line that reads the heading would be replaced, and no mark would come in addition
    have hcount := congrArg (List.countP (reads (headingLine heading))) hpatched
    rw [patched, if_pos hany, hinert.countP, List.countP_append,
      List.countP_cons_of_pos hinert.mark] at hcount
    omega
  have htext := textLines_of_split hheading (@patched_of_absent body heading content hnone)
  have hfst := congrArg (List.map Prod.fst) hlines
  rw [flagged, map_fst_flagLines, htext, List.map_append, hbody] at hfst
  have hreturn := (List.append_inj hfst (List.length_map _)).1
  refine .absent hnone (map_eq_self_iff.mp hreturn) ?_
  rw [flagged, htext, hreturn, flagLines_append, flagLines_headingLine] at hlines
  have hflag := (List.cons.inj (List.append_cancel_left hlines)).1
  exact (Prod.mk.inj hflag).2

/-- INTERNAL: a section that stood in the text. -/
theorem placed_of_replaced {before dropped after : List (List Char × Bool)}
    {head : List Char × Bool} (hheading : Recognised heading) (hcontent : Undivided heading content)
    (hsplit : flagged body = before ++ head :: (dropped ++ after))
    (hhead : Named (headingLine heading) head) (hdropped : ∀ x ∈ dropped, ¬ TopLevel x)
    (hafter : ∀ x ∈ after.head?, TopLevel x)
    (hothers : ∀ x ∈ before ++ after, ¬ Named (headingLine heading) x)
    (hout : replaceSection body heading content = unlines (before.map Prod.fst) ++
      sectionText (headingLine heading) content ++ unlines (after.map Prod.fst))
    (hlines : flagged (replaceSection body heading content) =
      before ++ (headingLine heading, false) :: (flagged (content ++ ['\n']) ++ after)) :
    Placed body heading content := by
  have hinert := inert hheading hcontent
  obtain ⟨hbeforeFlags, hopen, hafterFlags⟩ := flags_of_split hsplit hhead hafter
  have hbody : textLines body = before.map Prod.fst ++ head.1 ::
      (dropped.map Prod.fst ++ after.map Prod.fst) := by
    rw [textLines_of_flagged hsplit, List.map_cons, List.map_append]
  have hbreaks : ∀ l ∈ before.map Prod.fst ++ headingLine heading ::
      (rawLines content ++ after.map Prod.fst), '\n' ∉ l := by
    have hmem {l : List Char} (hl : l ∈ textLines body) := noBreak_of_mem_textLines hl
    rw [hbody] at hmem
    intro l hl
    rcases List.mem_append.mp hl with hl | hl
    · exact hmem (List.mem_append_left _ hl)
    · rcases List.mem_cons.mp hl with rfl | hl
      · simp [headingLine, hheading.noBreak]
      · rcases List.mem_append.mp hl with hl | hl
        · exact noBreak_of_mem_rawLines hl
        · exact hmem (List.mem_append_right _ (List.mem_cons_of_mem _ (List.mem_append_right _ hl)))
  have hpatched : patched (headingLine heading) (rawLines content) (textLines body) =
      before.map Prod.fst ++ headingLine heading :: (rawLines content ++ after.map Prod.fst) := by
    rw [replaceSection_eq, sectionText_eq, ← unlines_append, ← unlines_append, List.append_assoc,
      List.cons_append] at hout
    exact unlines_inj (fun l hl => noBreak_patched hheading hl) hbreaks hout
  have hpass := @patched_of_named body heading content _ _ _ _ hbody hhead.2
  -- the marks on both sides are the same in number, so none is in the part that is dropped
  have hunmarked : ∀ l ∈ dropped.map Prod.fst, reads (headingLine heading) l = false := by
    have hcount := congrArg (List.countP (reads (headingLine heading))) (hpass.symm.trans hpatched)
    have hblock : (rawLines content).countP (reads (headingLine heading)) = 0 := by
      rw [List.countP_eq_zero]
      intro l hl
      rw [(hcontent l hl).1]
      exact Bool.false_ne_true
    simp only [List.countP_append, List.countP_cons_of_pos hinert.mark, hinert.countP, hblock]
      at hcount
    have hzero : (dropped.map Prod.fst).countP (reads (headingLine heading)) = 0 := by omega
    intro l hl
    exact eq_false_of_ne_true (List.countP_eq_zero.mp hzero l hl)
  obtain ⟨hbeforeFixed, -, hrest⟩ := split_at_mark hinert.mark hinert.mark
    (hpass.symm.trans hpatched) (hinert.countP false _)
  obtain ⟨hbounds, hafterFixed⟩ := inside_of_fixed hinert hunmarked (List.append_cancel_left hrest)
  have hmargin : ∀ x ∈ after.head?, atMargin x.1 = true := by
    intro x hx
    apply head_replaceBlocks hinert.bound (l := after.map Prod.fst)
    rw [hafterFixed, List.head?_map, hx]
    rfl
  have hheads : ∀ l ∈ (after.map Prod.fst).head?,
      reads (headingLine heading) l = true ∨ atMargin l = true := by
    intro l hl
    rw [List.head?_map, Option.mem_def, Option.map_eq_some_iff] at hl
    obtain ⟨x, hx, rfl⟩ := hl
    exact .inr (hmargin x hx)
  have htext := textLines_of_split hheading hpatched
  have hfst := congrArg (List.map Prod.fst) hlines
  rw [flagged, map_fst_flagLines, htext, List.map_append, List.map_cons, List.map_append, flagged,
    map_fst_flagLines] at hfst
  obtain ⟨hxr, hfst⟩ := List.append_inj hfst (List.length_map _)
  have hyr := List.append_cancel_left (List.cons.inj hfst).2
  have hreturn : ∀ x ∈ before ++ after, stripReturn x.1 = x.1 := by
    intro x hx
    rcases List.mem_append.mp hx with hx | hx
    · exact map_eq_self_iff.mp hxr _ (List.mem_map_of_mem hx)
    · exact map_eq_self_iff.mp hyr _ (List.mem_map_of_mem hx)
  refine .present hsplit hhead ?_ ?_ hothers ((replaceBlocks_eq_self_iff hinert).mp hbeforeFixed)
    ((replaceBlocks_eq_self_iff hinert).mp ?_) hreturn ?_
  · intro x hx
    have hmem := List.mem_map_of_mem (f := Prod.fst) hx
    exact ⟨hunmarked _ hmem, hbounds _ hmem, hdropped x hx⟩
  · exact fun x hx => ⟨hafter x hx, hmargin x hx⟩
  · rw [replaceBlocks_congr hheads false true]
    exact hafterFixed
  · cases hnil : after with
    | nil => exact .inl rfl
    | cons x rest =>
      right
      rw [flagged_of_split hheading hpatched hbeforeFlags hopen hreturn] at hlines
      have hflags := List.append_cancel_left (List.cons.inj (List.append_cancel_left hlines)).2
      rw [hnil] at hflags hafter
      exact (open_of_flag hflags.symm (hafter x rfl).1).1

/-- **Sections.** The patch replaces the section of the heading and nothing else, and does so
once and for all, exactly where the heading and the content can be read back and the section
is placed. -/
theorem section_replaced_iff (body heading content : List Char) :
    (Replaced body heading content (replaceSection body heading content) ∧
      replaceSection (replaceSection body heading content) heading content =
        replaceSection body heading content) ↔
      Recognised heading ∧ Undivided heading content ∧ Placed body heading content := by
  constructor
  · rintro ⟨hreplaced, hidempotent⟩
    have hheading := recognised_of_idempotent hidempotent
    have hcontent := undivided_of_idempotent hidempotent
    refine ⟨hheading, hcontent, ?_⟩
    cases hreplaced with
    | appended hnone hout hlines => exact placed_of_appended hheading hcontent hout hlines
    | replaced hsplit hhead hdropped hafter hothers hout hlines =>
      exact placed_of_replaced hheading hcontent hsplit hhead hdropped hafter hothers hout hlines
  · rintro ⟨hheading, hcontent, hplaced⟩
    exact replaced_of_placed hheading hcontent hplaced

end Condition

example : replaceSection "# A\nx\n# B\n".toList ['A'] ['y'] = "# A\ny\n# B\n".toList := by decide

/-- A fence in which a line reads the heading. -/
def fencedBody : List Char := "~~~\n# A\n~~~\n".toList

/-- The section is written into the fence, and the end of the fence is gone. -/
theorem fence_overwritten : ¬ ∀ body heading content : List Char,
    (∀ x ∈ flagged content, ¬ TopLevel x) →
      Replaced body heading content (replaceSection body heading content) ∧
        replaceSection (replaceSection body heading content) heading content =
          replaceSection body heading content := by
  intro hall
  have hout : replaceSection fencedBody ['A'] ['y'] = "~~~\n# A\ny\n".toList := by decide
  have hflags : flagged fencedBody =
      [("~~~".toList, true), ("# A".toList, true), ("~~~".toList, true)] := by decide
  have hplain : ∀ x ∈ flagged ['y'], ¬ TopLevel x := by
    rintro x hx ⟨-, htop⟩
    have hx' : x ∈ [(['y'], false)] := hx
    rw [List.mem_singleton.mp hx'] at htop
    cases htop
  obtain ⟨hreplaced, -⟩ := hall fencedBody ['A'] ['y'] hplain
  rw [hout] at hreplaced
  cases hreplaced with
  | appended hnone hout hlines =>
    have hlength := congrArg List.length hout
    rw [hflags] at hlength
    revert hlength
    decide
  | replaced hsplit hhead =>
    rename_i before dropped after head _ _ _ _ _
    have hmem : head ∈ flagged fencedBody := by
      rw [hsplit]
      exact List.mem_append_right before List.mem_cons_self
    have hcode : ∀ x ∈ flagged fencedBody, x.2 = true := by
      rw [hflags]
      decide
    have hflag := hcode head hmem
    rw [hhead.1] at hflag
    cases hflag

end Mycelium.Analysis.SectionPatches
