import Mathlib.Data.List.Chain
import Mycelium.Model.Text

/-!
# Lines

What `split_inclusive('\n')` makes of a text: its pieces put together are the text, each has
its line break at the end, and only the last may have none. Pieces of a part of the text are
the pieces of that part.
-/

set_option autoImplicit false

namespace Mycelium.Analysis.TextLines

open Mycelium.Model.Text

/-- INTERNAL: a line begins with the character the text begins with. -/
theorem splitInclusive_cons {c : Char} (hc : c ≠ '\n') (l : List Char) :
    splitInclusive (c :: l) = match splitInclusive l with
      | [] => [[c]]
      | line :: lines => (c :: line) :: lines :=
  if_neg hc

/-- INTERNAL: a line break starts a new line. -/
theorem splitInclusive_append (x y : List Char) :
    splitInclusive (x ++ '\n' :: y) = splitInclusive (x ++ ['\n']) ++ splitInclusive y := by
  induction x with
  | nil => simp [splitInclusive]
  | cons c x ih =>
    simp only [List.cons_append, splitInclusive]
    split
    · rw [ih]
      rfl
    · rw [ih]
      cases hpieces : splitInclusive (x ++ ['\n']) with
      | nil =>
        have hflat := flatten_splitInclusive (x ++ ['\n'])
        rw [hpieces] at hflat
        simp at hflat
      | cons piece pieces => rfl

/-- INTERNAL: a line without a break in it is cut once. -/
theorem splitInclusive_line {x : List Char} (hx : ∀ c ∈ x, c ≠ '\n') :
    splitInclusive (x ++ ['\n']) = [x ++ ['\n']] := by
  induction x with
  | nil => rfl
  | cons c x ih =>
    have hrest := ih fun d hd => hx d (List.mem_cons_of_mem c hd)
    simp only [List.cons_append, splitInclusive, hx c List.mem_cons_self, if_false, hrest]

/-- INTERNAL: one more character is a line of its own or goes to the last line. -/
theorem splitInclusive_concat (l : List Char) (d : Char) :
    splitInclusive (l ++ [d]) = splitInclusive l ++ [[d]] ∨
      ∃ lines last, splitInclusive l = lines ++ [last] ∧
        splitInclusive (l ++ [d]) = lines ++ [last ++ [d]] := by
  induction l with
  | nil =>
    left
    simp [splitInclusive]
  | cons c l ih =>
    simp only [List.cons_append, splitInclusive]
    split
    · rcases ih with hown | ⟨lines, last, hl, hd⟩
      · left
        rw [hown]
        rfl
      · right
        refine ⟨[c] :: lines, last, ?_, ?_⟩
        · rw [hl]
          rfl
        · rw [hd]
          rfl
    · rcases ih with hown | ⟨lines, last, hl, hd⟩
      · rw [hown]
        cases hlines : splitInclusive l with
        | nil =>
          right
          exact ⟨[], [c], rfl, rfl⟩
        | cons line rest =>
          left
          rfl
      · right
        rw [hl, hd]
        cases lines with
        | nil => exact ⟨[], c :: last, rfl, rfl⟩
        | cons line rest => exact ⟨(c :: line) :: rest, last, rfl, rfl⟩

theorem splitInclusive_ne_nil {l line : List Char} (h : line ∈ splitInclusive l) : line ≠ [] := by
  induction l generalizing line with
  | nil => cases h
  | cons c l ih =>
    simp only [splitInclusive] at h
    split at h
    · rcases List.mem_cons.mp h with rfl | h
      · exact List.cons_ne_nil _ _
      · exact ih h
    · split at h
      · rw [List.mem_singleton.mp h]
        exact List.cons_ne_nil _ _
      · rename_i first lines hlines
        rw [hlines] at ih
        rcases List.mem_cons.mp h with rfl | h
        · exact List.cons_ne_nil _ _
        · exact ih (List.mem_cons_of_mem first h)

/-- INTERNAL: a line has its line break at the end. -/
theorem line_shape {l line : List Char} (h : line ∈ splitInclusive l) :
    ∃ x, '\n' ∉ x ∧ (line = x ∨ line = x ++ ['\n']) := by
  induction l generalizing line with
  | nil => cases h
  | cons c l ih =>
    by_cases hc : c = '\n'
    · subst hc
      simp only [splitInclusive, if_true] at h
      rcases List.mem_cons.mp h with rfl | h
      · exact ⟨[], by simp, .inr rfl⟩
      · exact ih h
    · rw [splitInclusive_cons hc] at h
      cases hlines : splitInclusive l with
      | nil =>
        rw [hlines] at h
        rw [List.mem_singleton.mp h]
        exact ⟨[c], by simpa using Ne.symm hc, .inl rfl⟩
      | cons first lines =>
        rw [hlines] at h ih
        rcases List.mem_cons.mp h with rfl | h
        · obtain ⟨x, hx, hfirst⟩ := ih List.mem_cons_self
          refine ⟨c :: x, by simpa [Ne.symm hc] using hx, ?_⟩
          rcases hfirst with rfl | rfl
          · exact .inl rfl
          · exact .inr rfl
        · exact ih (List.mem_cons_of_mem first h)

/-- INTERNAL: only the last line may have no line break. -/
theorem break_of_not_last (l : List Char) :
    (splitInclusive l).IsChain fun line _ => '\n' ∈ line := by
  induction l with
  | nil => exact .nil
  | cons c l ih =>
    simp only [splitInclusive]
    split
    · rename_i hc
      cases hlines : splitInclusive l with
      | nil => exact .singleton _
      | cons line lines =>
        rw [hlines] at ih
        refine .cons_cons ?_ ih
        rw [hc]
        exact List.mem_singleton_self _
    · split
      · exact .singleton _
      · rename_i line lines hlines
        rw [hlines] at ih
        cases lines with
        | nil => exact .singleton _
        | cons next lines =>
          rw [List.isChain_cons_cons] at ih
          exact .cons_cons (List.mem_cons_of_mem c ih.1) ih.2

/-- INTERNAL: the lines before another line end with a line break. -/
theorem flatten_before {l line : List Char} {before after : List (List Char)}
    (hl : splitInclusive l = before ++ line :: after) :
    before = [] ∨ ∃ x, before.flatten = x ++ ['\n'] := by
  obtain rfl | ⟨lines, last, rfl⟩ := List.eq_nil_or_concat before
  · exact .inl rfl
  · right
    have hchain := break_of_not_last l
    rw [hl, List.concat_eq_append, List.append_assoc, List.isChain_append] at hchain
    have hbreak : '\n' ∈ last := (List.isChain_cons_cons.mp hchain.2.1).1
    have hmem : last ∈ splitInclusive l := by
      rw [hl]
      simp
    obtain ⟨x, hx, rfl | rfl⟩ := line_shape hmem
    · exact absurd hbreak hx
    · exact ⟨lines.flatten ++ x, by simp⟩

/-- INTERNAL: the first lines of a text are its first part cut into lines. -/
theorem splitInclusive_flatten {l : List Char} {before after : List (List Char)}
    (h : splitInclusive l = before ++ after) : splitInclusive before.flatten = before := by
  induction l generalizing before with
  | nil =>
    rw [(List.append_eq_nil_iff.mp h.symm).1]
    rfl
  | cons c l ih =>
    cases before with
    | nil => rfl
    | cons line before =>
      by_cases hc : c = '\n'
      · subst hc
        simp only [splitInclusive, if_true, List.cons_append, List.cons.injEq] at h
        rw [← h.1, List.flatten_cons]
        simp [splitInclusive, ih h.2]
      · rw [splitInclusive_cons hc] at h
        cases hlines : splitInclusive l with
        | nil =>
          simp only [hlines, List.cons_append, List.cons.injEq] at h
          rw [← h.1, (List.append_eq_nil_iff.mp h.2.symm).1]
          simp [splitInclusive, hc]
        | cons first lines =>
          simp only [hlines, List.cons_append, List.cons.injEq] at h
          have hfirst := @ih (first :: before) (by rw [hlines, h.2, List.cons_append])
          rw [List.flatten_cons] at hfirst
          rw [← h.1, List.flatten_cons, List.cons_append, splitInclusive_cons hc, hfirst]

/-- INTERNAL: what stands after a piece splits into the pieces after it. -/
theorem splitInclusive_drop {l line : List Char} {lines : List (List Char)}
    (h : splitInclusive l = line :: lines) : splitInclusive (l.drop line.length) = lines := by
  induction l generalizing line with
  | nil => cases h
  | cons c cs ih =>
    simp only [splitInclusive] at h
    split at h
    · cases h
      rfl
    · split at h
      · rename_i hnil
        cases h
        have hcs := flatten_splitInclusive cs
        rw [hnil] at hcs
        simp [← hcs, splitInclusive]
      · rename_i piece pieces hcons
        cases h
        exact ih hcons

/-- INTERNAL: the same for several pieces. -/
theorem splitInclusive_drop_flatten {l : List Char} {before after : List (List Char)}
    (h : splitInclusive l = before ++ after) :
    splitInclusive (l.drop before.flatten.length) = after := by
  induction before generalizing l with
  | nil => exact h
  | cons line before ih =>
    have hrest := ih (splitInclusive_drop h)
    rw [List.drop_drop] at hrest
    simpa using hrest

theorem splitInclusive_crlfToLf (l : List Char) :
    splitInclusive (crlfToLf l) = (splitInclusive l).map crlfToLf := by
  fun_induction crlfToLf l with
  | case1 l ih =>
    simp [splitInclusive, ih, crlfToLf]
  | case2 c l hcrlf ih =>
    by_cases hc : c = '\n'
    · subst hc
      simp [splitInclusive, ih, crlfToLf]
    · rw [splitInclusive_cons hc, splitInclusive_cons hc, ih]
      cases hlines : splitInclusive l with
      | nil => simp [crlfToLf]
      | cons line lines =>
        have hline : crlfToLf (c :: line) = c :: crlfToLf line := by
          rw [crlfToLf]
          rintro rest rfl rfl
          have hl := flatten_splitInclusive l
          rw [hlines] at hl
          exact hcrlf _ rfl hl.symm
        simp [hline]
  | case3 => rfl

end Mycelium.Analysis.TextLines
