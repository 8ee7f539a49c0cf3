import Mycelium.Model.Search

/-!
# Tokens and blanks

A blank ends every token, so the tokens of a text are those of its words
(`tokenize_words`), and the tokens of a part that stands between blanks are tokens of the
whole (`tokenize_blank`). What this needs of `str::to_lowercase` is in `Lowers`.
-/

set_option autoImplicit false

namespace Mycelium.Analysis.Tokens

open Mycelium.Model.Text Mycelium.Model.Search

/-! ## Pieces -/

section Pieces

variable {p : Char → Bool}

theorem splitBy_append {c : Char} (hc : p c = true) (x y : List Char) :
    splitBy p (x ++ c :: y) = splitBy p x ++ splitBy p y := by
  induction x with
  | nil => simp [splitBy, hc]
  | cons d x ih =>
    simp only [List.cons_append, splitBy, ih]
    split
    · rfl
    · cases hx : splitBy p x with
      | nil =>
        -- there is always a piece
        exfalso
        cases x with
        | nil => cases hx
        | cons e x =>
          simp only [splitBy] at hx
          split at hx
          · cases hx
          · split at hx <;> cases hx
      | cons piece pieces => rfl

theorem splitBy_whole {x : List Char} (hx : ∀ c ∈ x, p c = false) : splitBy p x = [x] := by
  induction x with
  | nil => rfl
  | cons c x ih =>
    have hrest := ih fun d hd => hx d (List.mem_cons_of_mem c hd)
    simp [splitBy, hx c List.mem_cons_self, hrest]

/-- INTERNAL: a text without separators, or what stands before and after the first one. -/
theorem split_first (p : Char → Bool) (l : List Char) :
    (∀ c ∈ l, p c = false) ∨
      ∃ x c y, l = x ++ c :: y ∧ p c = true ∧ ∀ d ∈ x, p d = false := by
  induction l with
  | nil => exact .inl (by simp)
  | cons c l ih =>
    cases hc : p c with
    | true => exact .inr ⟨[], c, l, rfl, hc, by simp⟩
    | false =>
      rcases ih with hall | ⟨x, d, y, rfl, hd, hx⟩
      · left
        intro e he
        rcases List.mem_cons.mp he with rfl | he
        · exact hc
        · exact hall e he
      · right
        refine ⟨c :: x, d, y, rfl, hd, ?_⟩
        intro e he
        rcases List.mem_cons.mp he with rfl | he
        · exact hc
        · exact hx e he

/-- A piece has no separator. -/
theorem not_sep_of_mem_splitBy {l piece : List Char} (h : piece ∈ splitBy p l) :
    ∀ c ∈ piece, p c = false := by
  induction l generalizing piece with
  | nil =>
    rw [List.mem_singleton.mp h]
    intro c hc
    cases hc
  | cons d l ih =>
    simp only [splitBy] at h
    split at h
    · rcases List.mem_cons.mp h with rfl | h
      · intro c hc
        cases hc
      · exact ih h
    · rename_i hd
      have hd' : p d = false := eq_false_of_ne_true hd
      split at h
      · rw [List.mem_singleton.mp h]
        intro c hc
        rw [List.mem_singleton.mp hc]
        exact hd'
      · rename_i first rest hsplit
        rw [hsplit] at ih
        rcases List.mem_cons.mp h with rfl | h
        · intro c hc
          rcases List.mem_cons.mp hc with rfl | hc
          · exact hd'
          · exact ih List.mem_cons_self c hc
        · exact ih (List.mem_cons_of_mem first h)

/-- What stands in a piece stands in the text. -/
theorem mem_of_mem_splitBy {l piece : List Char} (h : piece ∈ splitBy p l) {c : Char}
    (hc : c ∈ piece) : c ∈ l := by
  induction l generalizing piece with
  | nil =>
    rw [List.mem_singleton.mp h] at hc
    cases hc
  | cons d l ih =>
    simp only [splitBy] at h
    split at h
    · rcases List.mem_cons.mp h with rfl | h
      · cases hc
      · exact List.mem_cons_of_mem d (ih h hc)
    · split at h
      · rw [List.mem_singleton.mp h] at hc
        exact List.mem_cons.mpr (.inl (List.mem_singleton.mp hc))
      · rename_i first rest hsplit
        rw [hsplit] at ih
        rcases List.mem_cons.mp h with rfl | h
        · rcases List.mem_cons.mp hc with rfl | hc
          · exact List.mem_cons_self
          · exact List.mem_cons_of_mem d (ih List.mem_cons_self hc)
        · exact List.mem_cons_of_mem d (ih (List.mem_cons_of_mem first h) hc)

end Pieces

/-! ## Lower case -/

theorem not_alphanumeric_of_isWhitespace {c : Char} (h : isWhitespace c = true) :
    isAsciiAlphanumeric c = false := by
  rw [Bool.eq_false_iff]
  intro halnum
  simp only [isAsciiAlphanumeric, Bool.or_eq_true, Bool.and_eq_true, decide_eq_true_eq,
    Char.le_def, UInt32.le_iff_toNat_le] at halnum
  simp only [isWhitespace, Bool.or_eq_true, Bool.and_eq_true, decide_eq_true_eq,
    beq_iff_eq] at h
  have hval : c.val.toNat = c.toNat := rfl
  simp [hval] at halnum
  omega

/-- What the index needs of `str::to_lowercase`: it maps the words of a text one by one and
keeps the blanks, it leaves small ASCII letters and digits as they are, and no capital ASCII
letter is left. -/
structure Lowers (lower : String → String) : Prop where
  blank : ∀ (x : List Char) (c : Char) (y : List Char), isWhitespace c = true →
    (lower (String.ofList (x ++ c :: y))).toList =
      (lower (String.ofList x)).toList ++ c :: (lower (String.ofList y)).toList
  settled : ∀ s, (∀ c ∈ s.toList, isAsciiAlphanumeric c = true ∧ c.toLower = c) → lower s = s
  small : ∀ s, ∀ c ∈ (lower s).toList, c.toLower = c

variable {lower : String → String}

/-- The tokens on both sides of a blank. -/
theorem tokenize_blank (hlower : Lowers lower) (x : List Char) {c : Char} (y : List Char)
    (hc : isWhitespace c = true) : tokenize lower (String.ofList (x ++ c :: y)) =
      tokenize lower (String.ofList x) ++ tokenize lower (String.ofList y) := by
  have hsep : (!isAsciiAlphanumeric c) = true := by
    rw [not_alphanumeric_of_isWhitespace hc]
    rfl
  simp only [tokenize, hlower.blank x c y hc]
  rw [splitBy_append hsep, List.filter_append, List.map_append]

theorem tokenize_empty (hlower : Lowers lower) : tokenize lower (String.ofList []) = [] := by
  have hempty : lower (String.ofList []) = String.ofList [] := hlower.settled _ (by simp)
  simp [tokenize, hempty, splitBy]

/-- The tokens of a text are those of its words. -/
theorem tokenize_words (hlower : Lowers lower) (l : List Char) : tokenize lower (String.ofList l) =
    (splitWhitespace l).flatMap fun w => tokenize lower (String.ofList w) := by
  have hpiece (x : List Char) : ([x].filter (· ≠ [])).flatMap
      (fun w => tokenize lower (String.ofList w)) = tokenize lower (String.ofList x) := by
    cases x with
    | nil => simp [tokenize_empty hlower]
    | cons c x => simp
  rcases split_first isWhitespace l with hall | ⟨x, c, y, rfl, hc, hx⟩
  · rw [splitWhitespace, splitBy_whole hall, hpiece]
  · have hrest := tokenize_words hlower y
    rw [tokenize_blank hlower x y hc, hrest, splitWhitespace, splitWhitespace,
      splitBy_append hc, splitBy_whole hx, List.filter_append, List.flatMap_append, hpiece]
termination_by l.length

/-- A token is made of small letters and digits, two at least. -/
theorem of_mem_tokenize (hlower : Lowers lower) {text t : String} (ht : t ∈ tokenize lower text) :
    2 ≤ t.toList.length ∧ ∀ c ∈ t.toList, isAsciiAlphanumeric c = true ∧ c.toLower = c := by
  obtain ⟨piece, hpiece, rfl⟩ := List.mem_map.mp ht
  obtain ⟨hsplit, hlength⟩ := List.mem_filter.mp hpiece
  rw [String.toList_ofList]
  refine ⟨of_decide_eq_true hlength, ?_⟩
  intro c hc
  have halnum := not_sep_of_mem_splitBy hsplit c hc
  exact ⟨by simpa using halnum, hlower.small text c (mem_of_mem_splitBy hsplit hc)⟩

end Mycelium.Analysis.Tokens
