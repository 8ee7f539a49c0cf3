import Mycelium.Analysis.LinkScan

/-!
# The links of a text in parts

1. *Fences.* Whether a text leaves a fence open decides how what follows it is masked
   (`maskCode_append`).
2. *Masks.* A masked text ends in a blank where the text ends in a line break
   (`blankLast_maskLines`); masking adds nothing but blanks (`mem_maskLines`).
3. *Parts.* No link runs over the end of a part that ends in a blank into a part whose first
   closing bracket has an opening one before it, but for a link that the second part has in
   any case (`reads_append`, `scan_append`).
-/

set_option autoImplicit false

namespace Mycelium.Analysis.LinkParts

open Mycelium.Model.Text Mycelium.Model.Links
open Mycelium.Analysis.TextLines Mycelium.Analysis.LinkScan

/-! ## Fences -/

/-- The fence flag of the scanner behind some lines. -/
def fenceAfter (inFence : Bool) (lines : List (List Char)) : Bool :=
  lines.foldl (fun b line => if isFenceLine line then !b else b) inFence

/-- The scanner is in a fence at the end of the text. -/
def leavesFence (l : List Char) : Bool := fenceAfter false (splitInclusive l)

theorem fenceAfter_append (inFence : Bool) (xs ys : List (List Char)) :
    fenceAfter inFence (xs ++ ys) = fenceAfter (fenceAfter inFence xs) ys := List.foldl_append

theorem fenceAfter_of_none {lines : List (List Char)}
    (h : ∀ line ∈ lines, isFenceLine line = false) (inFence : Bool) :
    fenceAfter inFence lines = inFence := by
  induction lines with
  | nil => rfl
  | cons line lines ih =>
    have hline := h line List.mem_cons_self
    show fenceAfter (if isFenceLine line then !inFence else inFence) lines = inFence
    rw [hline]
    exact ih fun l hl => h l (List.mem_cons_of_mem line hl)

theorem maskLines_append (inFence : Bool) (xs ys : List (List Char)) :
    maskLines inFence (xs ++ ys) = maskLines inFence xs ++ maskLines (fenceAfter inFence xs) ys := by
  induction xs generalizing inFence with
  | nil => rfl
  | cons line xs ih =>
    have hnext : fenceAfter inFence (line :: xs) =
        fenceAfter (if isFenceLine line then !inFence else inFence) xs := rfl
    rw [hnext, List.cons_append]
    simp only [maskLines]
    split
    · rw [ih, List.append_assoc]
    · split
      · rw [ih, List.append_assoc]
      · rw [ih, List.append_assoc]

/-- A text of whole lines. -/
def Ended (l : List Char) : Prop := l = [] ∨ ∃ x, l = x ++ ['\n']

theorem ended_append {x y z : List Char} (h : y = z ++ ['\n']) : Ended (x ++ y) := by
  right
  rw [h]
  exact ⟨x ++ z, (List.append_assoc ..).symm⟩

theorem splitInclusive_ended {x : List Char} (hx : Ended x) (y : List Char) :
    splitInclusive (x ++ y) = splitInclusive x ++ splitInclusive y := by
  obtain rfl | ⟨x', rfl⟩ := hx
  · rfl
  · rw [List.append_assoc]
    exact splitInclusive_append x' y

theorem leavesFence_append {x : List Char} (hx : Ended x) (y : List Char) :
    leavesFence (x ++ y) = fenceAfter (leavesFence x) (splitInclusive y) := by
  rw [leavesFence, splitInclusive_ended hx, fenceAfter_append]
  rfl

theorem maskCode_append {x : List Char} (hx : Ended x) (y : List Char) :
    maskCode (x ++ y) = maskCode x ++ maskLines (leavesFence x) (splitInclusive y) := by
  rw [maskCode, splitInclusive_ended hx, maskLines_append]
  rfl

/-! ## Masks -/

/-- The last character is a blank, if there is one. -/
def BlankLast (l : List Char) : Prop := ∀ c ∈ l.getLast?, isWhitespace c = true

/-- INTERNAL: what ends a text ends it behind anything. -/
theorem BlankLast.append {y : List Char} (hne : y ≠ []) (hy : BlankLast y) (x : List Char) :
    BlankLast (x ++ y) := by
  intro c hc
  rw [List.getLast?_append_of_ne_nil x hne] at hc
  exact hy c hc

theorem BlankLast.of_append {x y : List Char} (hne : y ≠ []) (h : BlankLast (x ++ y)) :
    BlankLast y := by
  intro c hc
  apply h c
  rw [List.getLast?_append_of_ne_nil x hne]
  exact hc

theorem mem_maskInlineCode {c : Char} {line : List Char} (h : c ∈ maskInlineCode line) :
    c = ' ' ∨ c ∈ line := by
  rw [maskInlineCode_eq] at h
  obtain ⟨⟨d, code⟩, hm, rfl⟩ := List.mem_map.mp h
  cases code with
  | true => exact .inl rfl
  | false =>
    right
    have hfst := List.mem_map_of_mem (f := Prod.fst) hm
    rw [marked_fst, length_pieces_chars] at hfst
    exact hfst

theorem mem_maskLines {c : Char} {inFence : Bool} {lines : List (List Char)}
    (h : c ∈ maskLines inFence lines) : c = ' ' ∨ c ∈ lines.flatten := by
  induction lines generalizing inFence with
  | nil => cases h
  | cons line lines ih =>
    have hrest {b : Bool} (hc : c ∈ maskLines b lines) : c = ' ' ∨ c ∈ (line :: lines).flatten := by
      rw [List.flatten_cons, List.mem_append]
      exact (ih hc).imp_right .inr
    simp only [maskLines] at h
    split at h
    · obtain hc | hc := List.mem_append.mp h
      · exact .inl (List.eq_of_mem_replicate hc)
      · exact hrest hc
    · split at h
      · obtain hc | hc := List.mem_append.mp h
        · exact .inl (List.eq_of_mem_replicate hc)
        · exact hrest hc
      · obtain hc | hc := List.mem_append.mp h
        · rw [List.flatten_cons, List.mem_append]
          exact (mem_maskInlineCode hc).imp_right .inl
        · exact hrest hc

/-- INTERNAL: a line without backticks is not masked. -/
theorem maskInlineCode_of_none {line : List Char} (h : '`' ∉ line) :
    maskInlineCode line = line := by
  induction line with
  | nil => rfl
  | cons c line ih =>
    rw [List.mem_cons, not_or] at h
    rw [maskInlineCode, maskFrom, if_neg (Ne.symm h.1)]
    exact congrArg (c :: ·) (ih h.2)

/-- INTERNAL: in a fence that no line ends there are only blanks. -/
theorem eq_blank_of_mem {lines : List (List Char)}
    (h : ∀ line ∈ lines, isFenceLine line = false) {c : Char} (hc : c ∈ maskLines true lines) :
    c = ' ' := by
  induction lines with
  | nil => cases hc
  | cons line lines ih =>
    simp only [maskLines, h line List.mem_cons_self, Bool.false_eq_true, if_false, if_true] at hc
    obtain hc | hc := List.mem_append.mp hc
    · exact List.eq_of_mem_replicate hc
    · exact ih (fun l hl => h l (List.mem_cons_of_mem line hl)) hc

/-- INTERNAL: a masked line has its blank at the end. -/
theorem blankLast_maskInlineCode {line : List Char} (h : line.getLast? = some '\n') :
    BlankLast (maskInlineCode line) := by
  intro c hc
  have hfst : (marked .text (pieces line)).map Prod.fst = line := by
    rw [marked_fst, length_pieces_chars]
  rw [maskInlineCode_eq, masked, List.getLast?_map, Option.mem_def, Option.map_eq_some_iff] at hc
  obtain ⟨⟨d, code⟩, hlast, rfl⟩ := hc
  rw [← hfst, List.getLast?_map, hlast] at h
  obtain rfl : d = '\n' := Option.some.inj h
  cases code with
  | true =>
    show isWhitespace ' ' = true
    decide
  | false =>
    show isWhitespace '\n' = true
    decide

theorem blankLast_blanks (n : ℕ) : BlankLast (blanks n) := by
  intro c hc
  obtain rfl := List.eq_of_mem_replicate (List.mem_of_getLast? hc)
  decide

theorem length_maskInlineCode (line : List Char) : (maskInlineCode line).length = line.length := by
  have hfst := congrArg List.length (marked_fst .text (pieces line))
  rw [length_pieces_chars, List.length_map] at hfst
  rw [maskInlineCode_eq, masked, List.length_map, hfst]

theorem blankLast_maskLines {x : List Char} (hx : Ended x) (inFence : Bool) :
    BlankLast (maskLines inFence (splitInclusive x)) := by
  obtain rfl | ⟨x', rfl⟩ := hx
  · intro c hc
    cases hc
  obtain hnil | ⟨lines, last, hlines⟩ := List.eq_nil_or_concat (splitInclusive (x' ++ ['\n']))
  · rw [hnil]
    intro c hc
    cases hc
  rw [List.concat_eq_append] at hlines
  have hne : last ≠ [] := by
    apply splitInclusive_ne_nil (l := x' ++ ['\n'])
    rw [hlines]
    exact List.mem_append_right lines (List.mem_singleton_self last)
  have hlast : last.getLast? = some '\n' := by
    have hflat := congrArg List.getLast? (flatten_splitInclusive (x' ++ ['\n']))
    rw [hlines, List.flatten_append, List.flatten_singleton, List.getLast?_append_of_ne_nil _ hne,
      List.getLast?_concat] at hflat
    exact hflat
  have hpos : 0 < byteLen last := byteLen_pos hne
  have hblanks : blanks (byteLen last) ≠ [] := by
    intro hnil
    have hlength := congrArg List.length hnil
    rw [blanks, List.length_replicate, List.length_nil] at hlength
    omega
  have hinline : maskInlineCode last ≠ [] := by
    intro hnil
    apply hne
    apply List.eq_nil_of_length_eq_zero
    rw [← length_maskInlineCode, hnil]
    rfl
  rw [hlines, maskLines_append]
  simp only [maskLines, List.append_nil]
  split
  · exact (blankLast_blanks _).append hblanks _
  · split
    · exact (blankLast_blanks _).append hblanks _
    · exact (blankLast_maskInlineCode hlast).append hinline _

/-! ## Parts -/

/-- The first closing bracket, if there is one, has an opening one before it. -/
def Opens (l : List Char) : Prop := ∀ x y, l = x ++ ']' :: y → '[' ∈ x

theorem opens_of_none {l : List Char} (h : ']' ∉ l) : Opens l := by
  rintro x y rfl
  exact absurd (List.mem_append_right x List.mem_cons_self) h

/-- INTERNAL: the first occurrence of a character. -/
theorem first_of_mem {c : Char} {l : List Char} (h : c ∈ l) : ∃ x y, l = x ++ c :: y ∧ c ∉ x := by
  induction l with
  | nil => cases h
  | cons d l ih =>
    by_cases hd : c = d
    · subst hd
      exact ⟨[], l, rfl, List.not_mem_nil⟩
    · obtain ⟨x, y, rfl, hx⟩ := ih ((List.mem_cons.mp h).resolve_left hd)
      refine ⟨d :: x, y, rfl, ?_⟩
      rw [List.mem_cons, not_or]
      exact ⟨hd, hx⟩

/-- INTERNAL: a text without a closing bracket has no links. -/
theorem reads_of_none {l : List Char} (h : ']' ∉ l) : Reads l [] := by
  induction l with
  | nil => exact .nil
  | cons c l ih =>
    refine .skip ?_ (ih fun hmem => h (List.mem_cons_of_mem c hmem))
    rintro target after ⟨text, run, heq, -⟩
    apply h
    rw [heq]
    simp

/-- The links of a text are determined. -/
theorem reads_unique {l : List Char} {ts us : List (List Char)} (ht : Reads l ts)
    (hu : Reads l us) : ts = us := (reads_iff.mp ht).trans (reads_iff.mp hu).symm

/-- INTERNAL: what is passed over before the first opening bracket. -/
theorem reads_skip {x l : List Char} (hx : '[' ∉ x) {targets : List (List Char)}
    (h : Reads l targets) : Reads (x ++ l) targets := by
  induction x with
  | nil => exact h
  | cons c x ih =>
    refine .skip ?_ (ih fun hmem => hx (List.mem_cons_of_mem c hmem))
    rintro target after ⟨text, run, heq, -⟩
    rw [(List.cons.inj heq).1] at hx
    exact hx List.mem_cons_self

/-- INTERNAL: a link that runs over the end of the first part is one of the second. -/
theorem link_of_crossing {y text run after : List Char} {us : List (List Char)} (hopen : Opens y)
    (hy : y = text ++ ']' :: '(' :: '/' :: (run ++ ')' :: after)) (htext : ']' ∉ text)
    (hrun : ∀ c ∈ run, isTargetChar c = true) (hreads : Reads y us) :
    ∃ us', us = ('/' :: run) :: us' ∧ Reads after us' := by
  obtain ⟨before, inner, rfl, hbefore⟩ := first_of_mem (hopen text _ hy)
  have hinner : ']' ∉ inner := fun hmem =>
    htext (List.mem_append_right before (List.mem_cons_of_mem '[' hmem))
  have hafter : Reads after (capturesFrom 0 after) := reads_iff.mpr rfl
  refine ⟨capturesFrom 0 after, ?_, hafter⟩
  apply reads_unique hreads
  rw [hy, List.append_assoc, List.cons_append]
  exact reads_skip hbefore (.link ⟨inner, run, rfl, hinner, hrun, rfl⟩ hafter)

theorem not_blank_of_target {c : Char} (h : isTargetChar c = true) : isWhitespace c = false := by
  by_contra hblank
  rw [target_of_blank c (eq_true_of_ne_false hblank)] at h
  cases h

/-- INTERNAL: a part that ends in a blank does not end within characters that are none. -/
theorem whole_of_dark {m y p q : List Char} (hne : m ≠ []) (hm : BlankLast m)
    (hp : ∀ c ∈ p, isWhitespace c = false) (h : m ++ y = p ++ q) : ∃ m', m = p ++ m' := by
  obtain ⟨r, rfl, -⟩ | ⟨r, rfl, -⟩ := List.append_eq_append_iff.mp h
  · exfalso
    have hlast := List.getLast?_eq_some_getLast hne
    have hblank := hm _ hlast
    rw [hp _ (List.mem_append_left r (List.mem_of_getLast? hlast))] at hblank
    cases hblank
  · exact ⟨r, rfl⟩

/-- The links of a text are those of its parts. -/
theorem reads_append {x y : List Char} {ts us : List (List Char)} (hx : Reads x ts)
    (hblank : BlankLast x) (hy : Reads y us) (hopen : Opens y) : Reads (x ++ y) (ts ++ us) := by
  induction hx with
  | nil => exact hy
  | @link l target after targets hlink _ ih =>
    obtain ⟨text, run, rfl, htext, hrun, rfl⟩ := hlink
    have hafter : BlankLast after := by
      by_cases hnil : after = []
      · rw [hnil]
        intro c hc
        cases hc
      · apply BlankLast.of_append (x := '[' :: (text ++ ']' :: '(' :: '/' :: (run ++ [')']))) hnil
        simpa using hblank
    refine .link ⟨text, run, ?_, htext, hrun, rfl⟩ (ih hafter)
    simp
  | @skip c l targets hnone hrest ih =>
    have hl : BlankLast l := by
      by_cases hnil : l = []
      · rw [hnil]
        intro c hc
        cases hc
      · exact BlankLast.of_append (x := [c]) hnil hblank
    by_cases hlink : ∃ target after, LinkAt (c :: (l ++ y)) target after
    · obtain ⟨target, after, text, run, heq, htext, hrun, rfl⟩ := hlink
      have hc := (List.cons.inj heq).1
      subst hc
      obtain ⟨m, rfl, hm⟩ | ⟨m, rfl, hm⟩ := List.append_eq_append_iff.mp (List.cons.inj heq).2
      · -- the link closes in the second part
        have hdark : ']' ∉ l := fun hmem => htext (List.mem_append_left m hmem)
        have hm' : ']' ∉ m := fun hmem => htext (List.mem_append_right l hmem)
        obtain ⟨us', rfl, hafter⟩ := link_of_crossing hopen hm hm' hrun hy
        rw [reads_unique hrest (reads_of_none hdark), List.nil_append, List.cons_append, hm]
        refine .link ⟨l ++ m, run, ?_, htext, hrun, rfl⟩ hafter
        simp
      · -- it closes in the first part, which does not end before the link does
        exfalso
        by_cases hnil : m = []
        · subst hnil
          exact List.not_mem_nil (hopen [] _ hm.symm)
        have hchars : ∀ d ∈ ']' :: '(' :: '/' :: (run ++ [')']), isWhitespace d = false := by
          intro d hd
          simp only [List.mem_cons, List.mem_append, List.not_mem_nil, or_false] at hd
          obtain rfl | rfl | rfl | hd | rfl := hd
          · decide
          · decide
          · decide
          · exact not_blank_of_target (hrun d hd)
          · decide
        have hwhole : m ++ y = (']' :: '(' :: '/' :: (run ++ [')'])) ++ after := by
          rw [← hm]
          simp
        obtain ⟨m', rfl⟩ := whole_of_dark hnil (BlankLast.of_append hnil hl) hchars hwhole
        refine hnone ('/' :: run) m' ⟨text, run, ?_, htext, hrun, rfl⟩
        simp
    · exact .skip (fun target after h => hlink ⟨target, after, h⟩) (ih hl)

theorem linksOf_reads {masked : List Char} {targets : List (List Char)} (h : Reads masked targets) :
    linksOf masked = (targets.filter isMdTarget).map String.ofList := by
  rw [reads_iff.mp h]
  rfl

/-- The links of a masked text are those of its parts. -/
theorem linksOf_append {x y : List Char} (hx : BlankLast x) (hy : Opens y) :
    linksOf (x ++ y) = linksOf x ++ linksOf y := by
  have hreads := reads_append (reads_iff.mpr rfl) hx (reads_iff.mpr rfl) hy
  rw [linksOf_reads hreads, List.filter_append, List.map_append]
  rfl

/-- The scanner on two parts, of which the first leaves no fence open. -/
theorem linksOf_maskCode_append {x y : List Char} (hx : Ended x) (hfence : leavesFence x = false)
    (hy : Opens (maskCode y)) :
    linksOf (maskCode (x ++ y)) = linksOf (maskCode x) ++ linksOf (maskCode y) := by
  rw [maskCode_append hx, hfence]
  exact linksOf_append (blankLast_maskLines hx false) hy

theorem linksOf_of_none {l : List Char} (h : ']' ∉ l) : linksOf l = [] :=
  linksOf_reads (reads_of_none h)

end Mycelium.Analysis.LinkParts
