import Mycelium.Analysis.TextLines
import Mycelium.Model.Links

/-!
# What the link scanner finds

1. *Links of a text.* `Reads` says which targets a text without code has, from left to right;
   the scanner finds them (`reads_iff`). More or fewer blanks in a row do not matter
   (`reads_alike`).
2. *Code.* `marked` is a line in pieces with its code spans marked, `markedBody` a body with
   its fenced blocks as well.
3. *Spans.* The scanner masks exactly the spans of a line (`maskInlineCode_eq`).
4. *Fences.* Where each line that the scanner takes for a fence is one, and no other line is,
   it finds the links outside code (`scan_of_simpleFences`).
5. *Layout.* What masking does to lengths and line breaks (`keepsLayout_iff`), and the claim
   of the comments as a whole (`link_scan_exact`).
-/

set_option autoImplicit false

namespace Mycelium.Analysis.LinkScan

open Mycelium.Model.Text Mycelium.Model.Links
open Mycelium.Analysis.TextLines

/-! ## Links of a text -/

/-- A link stands at the begin of the text: its target, and what follows it. -/
def LinkAt (l target after : List Char) : Prop :=
  ∃ text run, l = '[' :: (text ++ ']' :: '(' :: '/' :: (run ++ ')' :: after)) ∧
    ']' ∉ text ∧ (∀ c ∈ run, isTargetChar c = true) ∧ target = '/' :: run

/-- The targets of the links of a text, from left to right. -/
inductive Reads : List Char → List (List Char) → Prop
  | nil : Reads [] []
  | link {l target after : List Char} {targets : List (List Char)} (hlink : LinkAt l target after)
      (hafter : Reads after targets) : Reads l (target :: targets)
  | skip {c : Char} {l : List Char} {targets : List (List Char)}
      (hnone : ∀ target after, ¬ LinkAt (c :: l) target after) (hrest : Reads l targets) :
      Reads (c :: l) targets

/-- INTERNAL: the text before the first character that ends it. -/
theorem dropWhile_append_of_all {p : Char → Bool} {x y : List Char} {c : Char}
    (hx : ∀ d ∈ x, p d = true) (hc : p c = false) : (x ++ c :: y).dropWhile p = c :: y := by
  rw [List.dropWhile_append_of_pos hx]
  simp [hc]

theorem takeWhile_append_of_all {p : Char → Bool} {x y : List Char} {c : Char}
    (hx : ∀ d ∈ x, p d = true) (hc : p c = false) : (x ++ c :: y).takeWhile p = x := by
  rw [List.takeWhile_append_of_pos hx]
  simp [hc]

/-- INTERNAL: a text is what is taken and what is dropped. -/
theorem eq_of_dropWhile {p : Char → Bool} {l rest : List Char} {c : Char}
    (h : l.dropWhile p = c :: rest) :
    l = l.takeWhile p ++ c :: rest ∧ (∀ d ∈ l.takeWhile p, p d = true) ∧ p c = false := by
  refine ⟨?_, fun d hd => List.mem_takeWhile_imp hd, ?_⟩
  · rw [← h]
    exact (List.takeWhile_append_dropWhile ..).symm
  · have hne : l.dropWhile p ≠ [] := by
      rw [h]
      exact List.cons_ne_nil _ _
    have hhead := List.head_dropWhile_not p hne
    simpa [h] using hhead

theorem matchAt_iff {l target after : List Char} :
    matchAt l = some (target, after) ↔ LinkAt ('[' :: l) target after := by
  constructor
  · intro hmatch
    unfold matchAt at hmatch
    split at hmatch
    · rename_i rest htext
      split at hmatch
      · rename_i after' hrun
        cases hmatch
        obtain ⟨hl, htaken, -⟩ := eq_of_dropWhile htext
        obtain ⟨hrest, hchars, -⟩ := eq_of_dropWhile hrun
        refine ⟨l.takeWhile (· ≠ ']'), rest.takeWhile isTargetChar, ?_, ?_, hchars, rfl⟩
        · rw [← hrest, ← hl]
        · intro hmem
          simpa using htaken ']' hmem
      · cases hmatch
    · cases hmatch
  · rintro ⟨text, run, hl, htext, hrun, rfl⟩
    have hl' : l = text ++ ']' :: '(' :: '/' :: (run ++ ')' :: after) := (List.cons.inj hl).2
    have hnot : ∀ d ∈ text, decide (d ≠ ']') = true := by
      intro d hd
      apply decide_eq_true
      rintro rfl
      exact htext hd
    have hclose : isTargetChar ')' = false := by decide
    rw [matchAt, hl', dropWhile_append_of_all hnot (by simp)]
    simp only [dropWhile_append_of_all hrun hclose, takeWhile_append_of_all hrun hclose]

/-- INTERNAL: what a match has taken is skipped. -/
theorem capturesFrom_skip (n : ℕ) (l : List Char) :
    capturesFrom n l = capturesFrom 0 (l.drop n) := by
  induction n generalizing l with
  | zero => rfl
  | succ n ih =>
    cases l with
    | nil => rfl
    | cons c l => exact ih l

theorem linkAt_after {l target after : List Char} (h : LinkAt l target after) :
    after.length < l.length ∧ l.drop (l.length - after.length) = after := by
  obtain ⟨text, run, rfl, -, -, -⟩ := h
  have hsplit : '[' :: (text ++ ']' :: '(' :: '/' :: (run ++ ')' :: after)) =
      ('[' :: (text ++ ']' :: '(' :: '/' :: (run ++ [')']))) ++ after := by simp
  constructor
  · simp
    omega
  · rw [hsplit, List.length_append, Nat.add_sub_cancel]
    exact List.drop_left

/-- The scanner on a text that begins with a link. -/
theorem captures_link {l target after : List Char} (h : LinkAt l target after) :
    capturesFrom 0 l = target :: capturesFrom 0 after := by
  have hl := h
  obtain ⟨text, run, rfl, -, -, -⟩ := h
  obtain ⟨hlt, hdrop⟩ := linkAt_after hl
  simp only [capturesFrom, if_true, matchAt_iff.mpr hl]
  rw [capturesFrom_skip]
  refine congrArg (target :: capturesFrom 0 ·) ?_
  rw [← List.drop_succ_cons (a := '['), ← Nat.sub_add_comm]
  · exact hdrop
  · simp only [List.length_cons] at hlt
    omega

/-- The scanner on a text that does not. -/
theorem captures_skip {c : Char} {l : List Char}
    (h : ∀ target after, ¬ LinkAt (c :: l) target after) :
    capturesFrom 0 (c :: l) = capturesFrom 0 l := by
  simp only [capturesFrom]
  split
  · rename_i hc
    subst hc
    cases hmatch : matchAt l with
    | none => rfl
    | some r => exact absurd (matchAt_iff.mp hmatch) (h r.1 r.2)
  · rfl

/-- The scanner finds the links of a text, and nothing else. -/
theorem reads_iff {l : List Char} {targets : List (List Char)} :
    Reads l targets ↔ targets = capturesFrom 0 l := by
  constructor
  · intro h
    induction h with
    | nil => rfl
    | link hlink _ ih => rw [captures_link hlink, ih]
    | skip hnone _ ih => rw [captures_skip hnone, ih]
  · rintro rfl
    have hall (n : ℕ) : ∀ l : List Char, l.length ≤ n → Reads l (capturesFrom 0 l) := by
      induction n with
      | zero =>
        intro l hl
        rw [List.length_eq_zero_iff.mp (Nat.le_zero.mp hl)]
        exact .nil
      | succ n ih =>
        intro l hl
        cases l with
        | nil => exact .nil
        | cons c l =>
          by_cases hlink : ∃ target after, LinkAt (c :: l) target after
          · obtain ⟨target, after, hlink⟩ := hlink
            rw [captures_link hlink]
            refine .link hlink (ih after ?_)
            have hlt := (linkAt_after hlink).1
            omega
          · have hnone : ∀ target after, ¬ LinkAt (c :: l) target after := by
              intro target after h
              exact hlink ⟨target, after, h⟩
            rw [captures_skip hnone]
            refine .skip hnone (ih l ?_)
            simp only [List.length_cons] at hl
            omega
    exact hall l.length l (Nat.le_refl _)

/-! ## Blanks -/

def AllBlank (l : List Char) : Prop := ∀ c ∈ l, isWhitespace c = true

/-- The same text, but for the blanks that stand in a row. -/
inductive Alike : List Char → List Char → Prop
  | nil : Alike [] []
  | same (c : Char) {x y : List Char} (hxy : Alike x y) : Alike (c :: x) (c :: y)
  | blanks {b b' x y : List Char} (hne : b ≠ []) (hne' : b' ≠ []) (hb : AllBlank b)
      (hb' : AllBlank b') (hxy : Alike x y) : Alike (b ++ x) (b' ++ y)

theorem Alike.refl (l : List Char) : Alike l l := by
  induction l with
  | nil => exact .nil
  | cons c l ih => exact .same c ih

theorem Alike.symm {x y : List Char} (h : Alike x y) : Alike y x := by
  induction h with
  | nil => exact .nil
  | same c _ ih => exact .same c ih
  | blanks hne hne' hb hb' _ ih => exact .blanks hne' hne hb' hb ih

theorem Alike.append {x y x' y' : List Char} (h : Alike x y) (h' : Alike x' y') :
    Alike (x ++ x') (y ++ y') := by
  induction h with
  | nil => exact h'
  | same c _ ih => exact .same c ih
  | blanks hne hne' hb hb' _ ih =>
    rw [List.append_assoc, List.append_assoc]
    exact .blanks hne hne' hb hb' ih

theorem alike_blanks {b b' : List Char} (hne : b ≠ []) (hne' : b' ≠ []) (hb : AllBlank b)
    (hb' : AllBlank b') : Alike b b' := by
  have h := Alike.blanks hne hne' hb hb' .nil
  rw [List.append_nil, List.append_nil] at h
  exact h

/-- INTERNAL: a character that is not blank stands in both texts. -/
theorem Alike.cons_inv {c : Char} (hc : isWhitespace c = false) {x z : List Char}
    (h : Alike (c :: x) z) : ∃ y, z = c :: y ∧ Alike x y := by
  generalize hcx : c :: x = w at h
  cases h with
  | nil => cases hcx
  | same d hxy =>
    cases hcx
    exact ⟨_, rfl, hxy⟩
  | @blanks b b' x' y hne hne' hb hb' hxy =>
    cases b with
    | nil => exact absurd rfl hne
    | cons d b =>
      cases hcx
      exact absurd (hb c List.mem_cons_self) (by rw [hc]; exact Bool.false_ne_true)

/-- INTERNAL: what blanks do not end goes on behind them. -/
theorem Alike.dropWhile {p : Char → Bool} (hp : ∀ c, isWhitespace c = true → p c = true)
    {x y : List Char} (h : Alike x y) : Alike (x.dropWhile p) (y.dropWhile p) := by
  induction h with
  | nil => exact .nil
  | same c hxy ih =>
    rw [List.dropWhile_cons, List.dropWhile_cons]
    split
    · exact ih
    · exact .same c hxy
  | blanks hne hne' hb hb' hxy ih =>
    rw [List.dropWhile_append_of_pos fun c hc => hp c (hb c hc),
      List.dropWhile_append_of_pos fun c hc => hp c (hb' c hc)]
    exact ih

/-- INTERNAL: what blanks end is the same in both texts. -/
theorem Alike.takeWhile {p : Char → Bool} (hp : ∀ c, isWhitespace c = true → p c = false)
    {x y : List Char} (h : Alike x y) :
    x.takeWhile p = y.takeWhile p ∧ Alike (x.dropWhile p) (y.dropWhile p) := by
  have hstop {b : List Char} (hne : b ≠ []) (hb : AllBlank b) (l : List Char) :
      (b ++ l).takeWhile p = [] ∧ (b ++ l).dropWhile p = b ++ l := by
    cases b with
    | nil => exact absurd rfl hne
    | cons c b =>
      have hc := hp c (hb c List.mem_cons_self)
      simp [hc]
  induction h with
  | nil => exact ⟨rfl, .nil⟩
  | same c hxy ih =>
    rw [List.dropWhile_cons, List.dropWhile_cons, List.takeWhile_cons, List.takeWhile_cons]
    split
    · exact ⟨by rw [ih.1], ih.2⟩
    · exact ⟨rfl, .same c hxy⟩
  | blanks hne hne' hb hb' hxy _ =>
    rw [(hstop hne hb _).1, (hstop hne hb _).2, (hstop hne' hb' _).1, (hstop hne' hb' _).2]
    exact ⟨rfl, .blanks hne hne' hb hb' hxy⟩

theorem bracket_of_blank (c : Char) (hc : isWhitespace c = true) : decide (c ≠ ']') = true := by
  apply decide_eq_true
  rintro rfl
  exact absurd hc (by decide)

theorem target_of_blank (c : Char) (hc : isWhitespace c = true) : isTargetChar c = false := by
  simp [isTargetChar, hc]

/-- INTERNAL: texts that are alike begin with the same link. -/
theorem linkAt_alike {x y target after : List Char} (hxy : Alike x y)
    (h : LinkAt x target after) : ∃ after', LinkAt y target after' ∧ Alike after after' := by
  obtain ⟨text, run, rfl, htext, hrun, rfl⟩ := h
  obtain ⟨y₁, rfl, h₁⟩ := hxy.cons_inv (by decide)
  have hnot : ∀ d ∈ text, decide (d ≠ ']') = true := by
    intro d hd
    apply decide_eq_true
    rintro rfl
    exact htext hd
  have h₂ := h₁.dropWhile bracket_of_blank
  rw [dropWhile_append_of_all hnot (by simp)] at h₂
  obtain ⟨y₂, hy₁, h₃⟩ := h₂.cons_inv (by decide)
  obtain ⟨y₃, rfl, h₄⟩ := h₃.cons_inv (by decide)
  obtain ⟨y₄, rfl, h₅⟩ := h₄.cons_inv (by decide)
  have hclose : isTargetChar ')' = false := by decide
  obtain ⟨htake, hdrop⟩ := h₅.takeWhile target_of_blank
  rw [takeWhile_append_of_all hrun hclose] at htake
  rw [dropWhile_append_of_all hrun hclose] at hdrop
  obtain ⟨after', hy₄, hafter⟩ := hdrop.cons_inv (by decide)
  obtain ⟨hshape, hchars, -⟩ := eq_of_dropWhile hy₄
  obtain ⟨hshape₁, hchars₁, -⟩ := eq_of_dropWhile hy₁
  refine ⟨after', ⟨y₁.takeWhile (· ≠ ']'), run, ?_, ?_, hrun, rfl⟩, hafter⟩
  · rw [htake, ← hshape, ← hshape₁]
  · intro hmem
    simpa using hchars₁ ']' hmem

/-- INTERNAL: blanks are skipped. -/
theorem reads_append_blanks {b l : List Char} {targets : List (List Char)} (hb : AllBlank b)
    (h : Reads l targets) : Reads (b ++ l) targets := by
  induction b with
  | nil => exact h
  | cons c b ih =>
    refine .skip ?_ (ih fun d hd => hb d (List.mem_cons_of_mem c hd))
    rintro target after ⟨text, run, heq, -⟩
    have hc := hb c List.mem_cons_self
    rw [(List.cons.inj heq).1] at hc
    exact absurd hc (by decide)

/-- Texts that are alike have the same links. -/
theorem reads_alike {x y : List Char} {targets : List (List Char)} (h : Reads x targets)
    (hxy : Alike x y) : Reads y targets := by
  induction h generalizing y with
  | nil =>
    generalize hnil : ([] : List Char) = w at hxy
    cases hxy with
    | nil => exact .nil
    | same c _ => cases hnil
    | blanks hne _ _ _ _ => exact absurd (List.append_eq_nil_iff.mp hnil.symm).1 hne
  | link hlink _ ih =>
    obtain ⟨after', hlink', hafter⟩ := linkAt_alike hxy hlink
    exact .link hlink' (ih hafter)
  | @skip c l targets hnone hrest ih =>
    have hnone' : ∀ target after, ¬ LinkAt y target after := by
      intro target after hlink
      obtain ⟨after', hlink', -⟩ := linkAt_alike hxy.symm hlink
      exact hnone target after' hlink'
    generalize hcl : c :: l = w at hxy
    cases hxy with
    | nil => cases hcl
    | same d hxy' =>
      cases hcl
      exact .skip hnone' (ih hxy')
    | @blanks b b' x' y' hne hne' hb hb' hxy' =>
      cases b with
      | nil => exact absurd rfl hne
      | cons d b =>
        rw [List.cons_append] at hcl
        obtain ⟨-, rfl⟩ := List.cons.inj hcl
        have hbrest : AllBlank b := fun e he => hb e (List.mem_cons_of_mem d he)
        cases b with
        | nil => exact reads_append_blanks hb' (ih hxy')
        | cons e b => exact ih (.blanks (List.cons_ne_nil _ _) hne' hbrest hb' hxy')

theorem linksOf_alike {x y : List Char} (h : Alike x y) : linksOf x = linksOf y := by
  have hreads := reads_alike (reads_iff.mpr rfl) h
  rw [linksOf, linksOf, reads_iff.mp hreads]

/-! ## Code -/

def ticks (n : ℕ) : List Char := List.replicate n '`'

/-- A line in pieces: its characters, with the backticks in a row as one piece. -/
inductive Piece
  | char (c : Char)
  | run (n : ℕ)
  deriving DecidableEq

def Piece.chars : Piece → List Char
  | .char c => [c]
  | .run n => ticks n

def pieces : List Char → List Piece
  | [] => []
  | c :: cs =>
    if c = '`' then
      match pieces cs with
      | .run n :: ps => .run (n + 1) :: ps
      | ps => .run 1 :: ps
    else .char c :: pieces cs

/-- Where a piece stands: outside code, in a span that a run of this length closes, or behind
a run that nothing closes. -/
inductive Place
  | text
  | span (n : ℕ)
  | rest
  deriving DecidableEq

/-- The characters of a line, each with whether it is code. A run of backticks opens a span;
the next run of its length on the line closes it, and without one the span goes on to the end
of the line. -/
def marked : Place → List Piece → List (Char × Bool)
  | _, [] => []
  | .text, .char c :: ps => (c, false) :: marked .text ps
  | .text, .run n :: ps =>
    (ticks n).map (·, true) ++ marked (if .run n ∈ ps then .span n else .rest) ps
  | .span n, p :: ps =>
    p.chars.map (·, true) ++ marked (if p = .run n then .text else .span n) ps
  | .rest, p :: ps => p.chars.map (·, true) ++ marked .rest ps

/-- The character and the number of those that open a fenced block. -/
def fenceOf (line : List Char) : Option (Char × ℕ) :=
  match trimStart line with
  | c :: cs =>
    let n := ((c :: cs).takeWhile (· = c)).length
    if (c = '`' ∨ c = '~') ∧ 3 ≤ n then some (c, n) else none
  | [] => none

/-- A line of at least as many of the same character. -/
def closes (fence : Char × ℕ) (line : List Char) : Bool :=
  (trim line).all (· = fence.1) && fence.2 ≤ (trim line).length

/-- The characters of a body, each with whether it is code: in a fenced block, which is open
to the end if no line closes it, or in a span of a line outside them. -/
def markedBody : Option (Char × ℕ) → List (List Char) → List (Char × Bool)
  | _, [] => []
  | none, line :: lines =>
    match fenceOf line with
    | some fence => line.map (·, true) ++ markedBody (some fence) lines
    | none => marked .text (pieces line) ++ markedBody none lines
  | some fence, line :: lines =>
    line.map (·, true) ++ markedBody (if closes fence line then none else some fence) lines

/-- Code gives way to blanks, lines stay lines. -/
def hide (m : Char × Bool) : Char := if m.2 = true ∧ m.1 ≠ '\n' then ' ' else m.1

def outsideCode (body : List Char) : List Char :=
  (markedBody none (splitInclusive body)).map hide

/-- The links of the body outside code, in order of appearance, are what the scanner
returns. -/
def FindsLinks (body : String) : Prop :=
  ∃ targets, Reads (outsideCode body.toList) targets ∧
    scanLinks body = (targets.filter isMdTarget).map String.ofList

/-! ## Spans -/

/-- INTERNAL: a line is empty, begins with another character or with a run of backticks. -/
theorem line_cases (l : List Char) : l = [] ∨ (∃ c rest, c ≠ '`' ∧ l = c :: rest) ∨
    ∃ n rest, rest.head? ≠ some '`' ∧ l = ticks (n + 1) ++ rest := by
  induction l with
  | nil => exact .inl rfl
  | cons c l ih =>
    right
    by_cases hc : c = '`'
    · subst hc
      right
      rcases ih with rfl | ⟨d, rest, hd, rfl⟩ | ⟨n, rest, hrest, rfl⟩
      · exact ⟨0, [], by simp, rfl⟩
      · exact ⟨0, d :: rest, by simpa using hd, rfl⟩
      · exact ⟨n + 1, rest, hrest, rfl⟩
    · exact .inl ⟨c, l, hc, rfl⟩

theorem pieces_char {c : Char} (hc : c ≠ '`') (l : List Char) :
    pieces (c :: l) = .char c :: pieces l := by
  simp only [pieces, hc, if_false]

theorem pieces_ticks {rest : List Char} (hrest : rest.head? ≠ some '`') (n : ℕ) :
    pieces (ticks (n + 1) ++ rest) = .run (n + 1) :: pieces rest := by
  induction n with
  | zero =>
    cases rest with
    | nil => rfl
    | cons c rest =>
      have hc : c ≠ '`' := by simpa using hrest
      show pieces ('`' :: c :: rest) = _
      rw [pieces, pieces_char hc]
      rfl
  | succ n ih =>
    show pieces ('`' :: (ticks (n + 1) ++ rest)) = _
    rw [pieces, ih]
    rfl

/-- The characters up to the end of the first run of this length. -/
def lengthTo (n : ℕ) : List Piece → Option ℕ
  | [] => none
  | p :: ps => if p = .run n then some n else (lengthTo n ps).map (· + p.chars.length)

theorem lengthTo_eq_none {n : ℕ} {ps : List Piece} : lengthTo n ps = none ↔ .run n ∉ ps := by
  induction ps with
  | nil => simp [lengthTo]
  | cons p ps ih =>
    rw [lengthTo]
    split
    · rename_i hp
      simp [hp]
    · rename_i hp
      rw [Option.map_eq_none_iff, ih, List.mem_cons, not_or]
      simp [Ne.symm hp]

/-- INTERNAL: the search of the scanner, with a run of `run` backticks just passed. -/
theorem closeAt_eq {n : ℕ} (hn : 1 ≤ n) (run : ℕ) (l : List Char) :
    (closeAt n run l).map (· + run) = lengthTo n (pieces (ticks run ++ l)) := by
  have hrun (r : ℕ) {rest : List Char} (hrest : rest.head? ≠ some '`') :
      lengthTo n (pieces (ticks r ++ rest)) =
        if r = n then some n else (lengthTo n (pieces rest)).map (· + r) := by
    cases r with
    | zero =>
      rw [if_neg (by omega)]
      simp [ticks]
    | succ r =>
      rw [pieces_ticks hrest, lengthTo]
      simp [Piece.chars, ticks]
  induction l generalizing run with
  | nil =>
    rw [hrun run (by simp)]
    simp only [closeAt]
    split
    · rename_i heq
      simp [heq]
    · simp [pieces, lengthTo]
  | cons c l ih =>
    by_cases hc : c = '`'
    · subst hc
      have hmore : ticks run ++ '`' :: l = ticks (run + 1) ++ l := by
        rw [ticks, ticks, List.replicate_succ', List.append_assoc]
        rfl
      rw [hmore, ← ih (run + 1)]
      simp [closeAt, Function.comp_def, Nat.add_assoc, Nat.add_comm 1 run]
    · rw [hrun run (by simpa using hc)]
      simp only [closeAt, hc, if_false]
      split
      · rename_i heq
        simp [heq]
      · have hrest := ih 0
        simp only [Nat.add_zero, Option.map_id', ticks, List.replicate_zero,
          List.nil_append] at hrest
        rw [pieces_char hc, lengthTo, if_neg (by simp), ← hrest]
        simp [Piece.chars]

/-- How the scanner masks a marked character. -/
def blank (m : Char × Bool) : Char := if m.2 then ' ' else m.1

def masked (place : Place) (ps : List Piece) : List Char := (marked place ps).map blank

theorem map_blank_code (l : List Char) : (l.map (·, true)).map blank = blanks l.length := by
  rw [List.map_map, blanks, ← List.map_const']
  rfl

theorem length_pieces_chars (l : List Char) : (pieces l).flatMap Piece.chars = l := by
  induction l with
  | nil => rfl
  | cons c l ih =>
    by_cases hc : c = '`'
    · subst hc
      simp only [pieces, if_true]
      cases hps : pieces l with
      | nil =>
        rw [hps] at ih
        rw [← ih]
        rfl
      | cons p ps =>
        rw [hps, List.flatMap_cons] at ih
        cases p with
        | char d => exact congrArg ('`' :: ·) ih
        | run n => exact congrArg ('`' :: ·) ih
    · rw [pieces_char hc]
      exact congrArg (c :: ·) ih

theorem marked_rest (ps : List Piece) :
    marked .rest ps = (ps.flatMap Piece.chars).map (·, true) := by
  induction ps with
  | nil => rfl
  | cons p ps ih => rw [marked, ih, List.flatMap_cons, List.map_append]

/-- INTERNAL: behind a run that nothing closes everything is masked. -/
theorem masked_rest (l : List Char) : masked .rest (pieces l) = blanks l.length := by
  rw [masked, marked_rest, length_pieces_chars, map_blank_code]

theorem blanks_append (m n : ℕ) : blanks m ++ blanks n = blanks (m + n) :=
  List.replicate_append_replicate ..

theorem masked_append (l : List (Char × Bool)) (place : Place) (ps : List Piece) :
    (l ++ marked place ps).map blank = l.map blank ++ masked place ps := List.map_append ..

/-- INTERNAL: a span is masked up to the end of the run that closes it. -/
theorem masked_span {n m : ℕ} {l : List Char} (h : lengthTo n (pieces l) = some m) :
    m ≤ l.length ∧ masked (.span n) (pieces l) = blanks m ++ masked .text (pieces (l.drop m)) := by
  rcases line_cases l with rfl | ⟨c, rest, hc, hl⟩ | ⟨r, rest, hrest, hl⟩
  · cases h
  · have hlt : rest.length < l.length := by simp [hl]
    rw [hl, pieces_char hc, lengthTo, if_neg (by simp)] at h
    obtain ⟨k, hk, rfl⟩ := Option.map_eq_some_iff.mp h
    obtain ⟨hle, heq⟩ := masked_span hk
    subst hl
    refine ⟨Nat.succ_le_succ hle, ?_⟩
    rw [pieces_char hc, masked, marked, if_neg (by simp), masked_append, heq, map_blank_code,
      ← List.append_assoc, blanks_append]
    simp [Piece.chars, Nat.add_comm 1 k]
  · have hlength : (ticks (r + 1)).length = r + 1 := List.length_replicate ..
    have hlt : rest.length < l.length := by
      rw [hl, List.length_append, hlength]
      omega
    rw [hl, pieces_ticks hrest, lengthTo] at h
    split at h
    · rename_i hp
      obtain rfl : r + 1 = n := Piece.run.inj hp
      cases h
      subst hl
      refine ⟨by simp [hlength], ?_⟩
      rw [pieces_ticks hrest, masked, marked, if_pos rfl, masked_append, map_blank_code]
      simp [Piece.chars, ticks]
    · rename_i hp
      obtain ⟨k, hk, rfl⟩ := Option.map_eq_some_iff.mp h
      obtain ⟨hle, heq⟩ := masked_span hk
      subst hl
      have hchars : (Piece.run (r + 1)).chars.length = r + 1 := hlength
      refine ⟨by rw [List.length_append, hlength, hchars]; omega, ?_⟩
      have hdrop : (ticks (r + 1) ++ rest).drop (k + (r + 1)) = rest.drop k := by
        rw [List.drop_append, List.drop_of_length_le (by omega), hlength]
        simp
      rw [pieces_ticks hrest, masked, marked, if_neg hp, masked_append, heq, map_blank_code,
        hchars, ← List.append_assoc, blanks_append, Nat.add_comm (r + 1) k, hdrop]
termination_by l.length

/-- INTERNAL: what the scanner has masked ahead. -/
theorem maskFrom_skip {n : ℕ} {l : List Char} (h : n ≤ l.length) :
    maskFrom n l = blanks n ++ maskFrom 0 (l.drop n) := by
  induction n generalizing l with
  | zero => rfl
  | succ n ih =>
    cases l with
    | nil => simp at h
    | cons c l =>
      rw [maskFrom, ih (Nat.le_of_succ_le_succ h)]
      rfl

/-- **Spans.** The scanner masks the code of a line, and nothing else. -/
theorem maskInlineCode_eq (l : List Char) : maskInlineCode l = masked .text (pieces l) := by
  rcases line_cases l with rfl | ⟨c, rest, hc, hl⟩ | ⟨r, rest, hrest, hl⟩
  · rfl
  · have hlt : rest.length < l.length := by simp [hl]
    have ih := maskInlineCode_eq rest
    rw [hl, maskInlineCode, maskFrom, if_neg hc, pieces_char hc]
    exact congrArg (c :: ·) ih
  · -- the run, and where the scanner looks for the one that closes it
    have hmore : ((ticks r ++ rest).takeWhile (· = '`')).length = r := by
      cases rest with
      | nil => simp [ticks]
      | cons d rest =>
        have hd : d ≠ '`' := by simpa using hrest
        rw [takeWhile_append_of_all (by simp [ticks]) (by simpa using hd)]
        simp [ticks]
    have hdrop : (ticks r ++ rest).drop r = rest := by
      rw [List.drop_append, ticks, List.length_replicate]
      simp
    have hclose := closeAt_eq (n := r + 1) (by omega) 0 rest
    simp only [Nat.add_zero, Option.map_id', ticks, List.replicate_zero, List.nil_append] at hclose
    have hline : ticks (r + 1) ++ rest = '`' :: (ticks r ++ rest) := rfl
    rw [hl, pieces_ticks hrest, hline, maskInlineCode, maskFrom, if_pos rfl]
    simp only [hmore, hdrop, hclose]
    rw [masked, marked, masked_append, map_blank_code]
    cases hto : lengthTo (r + 1) (pieces rest) with
    | none =>
      rw [if_neg (lengthTo_eq_none.mp hto), masked_rest, blanks_append]
      simp [blanks, ticks, List.replicate_succ, Nat.add_right_comm]
    | some m =>
      have hmem : Piece.run (r + 1) ∈ pieces rest := by
        by_contra hnot
        rw [lengthTo_eq_none.mpr hnot] at hto
        cases hto
      obtain ⟨hle, hspan⟩ := masked_span hto
      have hlt : rest.length - m < l.length := by
        rw [hl, List.length_append, ticks, List.length_replicate]
        omega
      have ih := maskInlineCode_eq (rest.drop m)
      have hlength : r + m ≤ (ticks r ++ rest).length := by
        rw [List.length_append, ticks, List.length_replicate]
        omega
      have hrest' : (ticks r ++ rest).drop (r + m) = rest.drop m := by
        rw [← List.drop_drop, hdrop]
      simp only []
      rw [if_pos hmem, hspan, maskFrom_skip hlength, hrest', ← ih, ← List.append_assoc,
        blanks_append]
      have hcount : (ticks (r + 1)).length + m = (r + m) + 1 := by
        rw [ticks, List.length_replicate]
        omega
      rw [hcount]
      rfl
termination_by l.length

/-! ## Fences -/

/-- Each line that begins with three backticks opens a block or is the one that closes it, and
no line outside a block begins with three tildes. The state is the length of the open fence. -/
def SimpleFences : Option ℕ → List (List Char) → Prop
  | _, [] => True
  | none, line :: lines =>
    match fenceOf line with
    | some fence => fence.1 = '`' ∧ SimpleFences (some fence.2) lines
    | none => SimpleFences none lines
  | some n, line :: lines =>
    if isFenceLine line then closes ('`', n) line = true ∧ SimpleFences none lines
    else SimpleFences (some n) lines

/-- INTERNAL: which lines the scanner takes for fences. -/
theorem isFenceLine_iff (line : List Char) :
    isFenceLine line = true ↔ ∃ n, fenceOf line = some ('`', n) := by
  have hthree (l : List Char) : "```".toList.isPrefixOf l = true ↔
      ∃ c cs, l = c :: cs ∧ c = '`' ∧ 3 ≤ ((c :: cs).takeWhile (· = c)).length := by
    rw [List.isPrefixOf_iff_prefix]
    constructor
    · rintro ⟨rest, rfl⟩
      refine ⟨'`', '`' :: '`' :: rest, rfl, rfl, ?_⟩
      simp
    · rintro ⟨c, cs, rfl, rfl, hlen⟩
      cases cs with
      | nil => simp at hlen
      | cons d cs =>
        by_cases hd : d = '`'
        · subst hd
          cases cs with
          | nil => simp at hlen
          | cons e cs =>
            by_cases he : e = '`'
            · subst he
              exact ⟨cs, rfl⟩
            · simp [he] at hlen
        · simp [hd] at hlen
  rw [isFenceLine, hthree, fenceOf]
  cases trimStart line with
  | nil => simp
  | cons c cs =>
    simp only [List.cons.injEq]
    constructor
    · rintro ⟨_, _, ⟨rfl, rfl⟩, rfl, hlen⟩
      refine ⟨_, if_pos ⟨.inl rfl, hlen⟩⟩
    · rintro ⟨n, hn⟩
      split at hn
      · rename_i hfence
        cases hn
        exact ⟨'`', cs, ⟨rfl, rfl⟩, rfl, hfence.2⟩
      · cases hn

theorem three_le_of_fenceOf {line : List Char} {fence : Char × ℕ}
    (h : fenceOf line = some fence) : 3 ≤ fence.2 ∧ (fence.1 = '`' ∨ fence.1 = '~') := by
  unfold fenceOf at h
  split at h
  · simp only [] at h
    split at h
    · rename_i hfence
      cases h
      exact ⟨hfence.2, hfence.1⟩
    · cases h
  · cases h

/-- INTERNAL: a line that closes a fence begins with one. -/
theorem isFenceLine_of_closes {n : ℕ} (hn : 3 ≤ n) {line : List Char}
    (h : closes ('`', n) line = true) : isFenceLine line = true := by
  simp only [closes, Bool.and_eq_true, List.all_eq_true, decide_eq_true_eq] at h
  have hticks : trim line = List.replicate (trim line).length '`' :=
    List.eq_replicate_of_mem fun c hc => h.1 c hc
  have hstart : trim line ++ (trimStart line).rtakeWhile isWhitespace = trimStart line :=
    List.rdropWhile_append_rtakeWhile ..
  have hthree : "```".toList <+: trim line := by
    rw [hticks]
    obtain ⟨k, hk⟩ : ∃ k, (trim line).length = 3 + k := ⟨(trim line).length - 3, by omega⟩
    rw [hk, List.replicate_add]
    exact List.prefix_append _ _
  rw [isFenceLine, List.isPrefixOf_iff_prefix, ← hstart]
  exact hthree.trans (List.prefix_append _ _)

theorem byteLen_pos {line : List Char} (h : line ≠ []) : 0 < byteLen line := by
  cases line with
  | nil => exact absurd rfl h
  | cons c line =>
    have hc := Char.utf8Size_pos c
    simp only [byteLen, List.map_cons, List.sum_cons]
    omega

theorem allBlank_blanks (n : ℕ) : AllBlank (blanks n) := by
  intro c hc
  rw [List.eq_of_mem_replicate hc]
  decide

/-- INTERNAL: a masked line of a block is blank on both sides. -/
theorem alike_code {line : List Char} (h : line ≠ []) :
    Alike (blanks (byteLen line)) ((line.map (·, true)).map hide) := by
  have hpos := byteLen_pos h
  apply alike_blanks
  · intro hnil
    have hlength := congrArg List.length hnil
    rw [blanks, List.length_replicate, List.length_nil] at hlength
    omega
  · simpa using h
  · exact allBlank_blanks _
  · intro c hc
    obtain ⟨m, hm, rfl⟩ := List.mem_map.mp hc
    obtain ⟨d, -, rfl⟩ := List.mem_map.mp hm
    simp only [hide]
    split
    · decide
    · rename_i hnewline
      have hd : d = '\n' := by simpa using hnewline
      rw [hd]
      decide

/-- INTERNAL: the scanner masks a line break too. -/
theorem alike_hide (l : List (Char × Bool)) : Alike (l.map blank) (l.map hide) := by
  have hone (m : Char × Bool) : Alike [blank m] [hide m] := by
    obtain ⟨c, code⟩ := m
    cases code with
    | false => exact .refl _
    | true =>
      apply alike_blanks (by simp) (by simp)
      · intro d hd
        rw [List.mem_singleton.mp hd]
        rfl
      · intro d hd
        rw [List.mem_singleton.mp hd]
        simp only [hide]
        split
        · decide
        · rename_i hnewline
          have hc : c = '\n' := by simpa using hnewline
          rw [hc]
          decide
  induction l with
  | nil => exact .nil
  | cons m l ih => exact (hone m).append ih

/-- INTERNAL: line by line the scanner masks what is code. -/
theorem alike_lines {st : Option ℕ} {lines : List (List Char)} (hsimple : SimpleFences st lines)
    (hst : ∀ n, st = some n → 3 ≤ n) (hne : ∀ line ∈ lines, line ≠ []) :
    Alike (maskLines st.isSome lines) ((markedBody (st.map fun n => ('`', n)) lines).map hide) := by
  induction lines generalizing st with
  | nil =>
    cases st with
    | none => exact .nil
    | some n => exact .nil
  | cons line lines ih =>
    have hline := hne line List.mem_cons_self
    have hrest : ∀ l ∈ lines, l ≠ [] := fun l hl => hne l (List.mem_cons_of_mem line hl)
    cases st with
    | none =>
      simp only [SimpleFences] at hsimple
      simp only [Option.map_none, markedBody, maskLines, Option.isSome_none, Bool.false_eq_true,
        if_false, Bool.not_false]
      cases hfence : fenceOf line with
      | none =>
        -- a line of text
        rw [hfence] at hsimple
        have hplain : ¬ isFenceLine line = true := by
          intro hopen
          obtain ⟨n, hn⟩ := (isFenceLine_iff line).mp hopen
          rw [hn] at hfence
          cases hfence
        have hnext := ih hsimple (by simp) hrest
        rw [if_neg hplain, maskInlineCode_eq, List.map_append]
        exact (alike_hide _).append hnext
      | some fence =>
        -- a line that opens a block
        rw [hfence] at hsimple
        obtain ⟨c, n⟩ := fence
        obtain ⟨rfl, hblock⟩ := hsimple
        have hopen : isFenceLine line = true := (isFenceLine_iff line).mpr ⟨n, hfence⟩
        have hn := (three_le_of_fenceOf hfence).1
        have hnext := ih hblock (fun m hm => Option.some.inj hm ▸ hn) hrest
        rw [if_pos hopen, List.map_append]
        exact (alike_code hline).append hnext
    | some n =>
      have hn := hst n rfl
      simp only [SimpleFences] at hsimple
      simp only [Option.map_some, markedBody, maskLines, Option.isSome_some, if_true,
        Bool.not_true]
      by_cases hopen : isFenceLine line = true
      · rw [if_pos hopen] at hsimple
        have hnext := ih hsimple.2 (by simp) hrest
        rw [if_pos hopen, if_pos hsimple.1, List.map_append]
        exact (alike_code hline).append hnext
      · rw [if_neg hopen] at hsimple
        have hclose : ¬ closes ('`', n) line = true := fun h => hopen (isFenceLine_of_closes hn h)
        have hnext := ih hsimple hst hrest
        rw [if_neg hopen, if_neg hclose, List.map_append]
        exact (alike_code hline).append hnext

/-- **Fences.** Where the fences are simple the scanner finds the links outside code. -/
theorem scan_of_simpleFences {body : String}
    (h : SimpleFences none (splitInclusive body.toList)) : FindsLinks body := by
  have hlines := alike_lines h (by simp) fun line => splitInclusive_ne_nil
  refine ⟨_, reads_iff.mpr rfl, ?_⟩
  show linksOf (maskCode body.toList) = linksOf (outsideCode body.toList)
  exact linksOf_alike hlines

/-! ## Layout -/

/-- The second text has the length of the first, in bytes, and each line break of the first
stands at its place in the second. -/
structure Kept (x x' : List Char) : Prop where
  length : byteLen x' = byteLen x
  breaks : ∀ a b, x = a ++ '\n' :: b → ∃ a' b', x' = a' ++ '\n' :: b' ∧ byteLen a' = byteLen a

/-- What the comment of `mask_code` says. SOURCE: links.rs:36-37 -/
def KeepsLayout (body : String) : Prop := Kept body.toList (maskCode body.toList)

theorem byteLen_append (x y : List Char) : byteLen (x ++ y) = byteLen x + byteLen y := by
  simp [byteLen]

theorem byteLen_cons (c : Char) (x : List Char) : byteLen (c :: x) = c.utf8Size + byteLen x := by
  simp [byteLen]

theorem byteLen_blanks (n : ℕ) : byteLen (blanks n) = n := by
  have hsize : ' '.utf8Size = 1 := by decide
  simp [byteLen, blanks, hsize]

theorem Kept.nil : Kept [] [] := by
  refine ⟨rfl, ?_⟩
  intro a b h
  exact absurd (congrArg List.length h) (by simp)

theorem Kept.append {x x' y y' : List Char} (hx : Kept x x') (hy : Kept y y') :
    Kept (x ++ y) (x' ++ y') := by
  refine ⟨by rw [byteLen_append, byteLen_append, hx.length, hy.length], ?_⟩
  intro a b h
  rcases List.append_eq_append_iff.mp h with ⟨c, rfl, hc⟩ | ⟨c, hx', hc⟩
  · obtain ⟨a', b', rfl, ha'⟩ := hy.breaks c b hc
    refine ⟨x' ++ a', b', by simp, ?_⟩
    rw [byteLen_append, byteLen_append, hx.length, ha']
  · cases c with
    | nil =>
      -- the line break is the first character of the second part
      rw [List.append_nil] at hx'
      obtain ⟨a', b', rfl, ha'⟩ := hy.breaks [] b (by simpa using hc.symm)
      refine ⟨x' ++ a', b', by simp, ?_⟩
      rw [byteLen_append, hx.length, ha', hx']
      rfl
    | cons d c =>
      obtain ⟨rfl, -⟩ := List.cons.inj hc
      obtain ⟨a', b', rfl, ha'⟩ := hx.breaks a c hx'
      exact ⟨a', b' ++ y', by simp, ha'⟩

/-- INTERNAL: of two prefixes of a text one goes on to the other. -/
theorem prefix_of_byteLen {x y z w : List Char} (h : x ++ y = z ++ w)
    (hle : byteLen x ≤ byteLen z) : ∃ m, z = x ++ m ∧ y = m ++ w := by
  rcases List.append_eq_append_iff.mp h with ⟨m, hz, hy⟩ | ⟨m, hx, hw⟩
  · exact ⟨m, hz, hy⟩
  · have hm : m = [] := by
      by_contra hne
      have hpos := byteLen_pos hne
      rw [hx, byteLen_append] at hle
      omega
    subst hm
    exact ⟨[], by simpa using hx.symm, by simpa using hw.symm⟩

/-- INTERNAL: a masked text that is no longer in any part is kept part by part. -/
theorem kept_of_append {x x' y y' : List Char} (h : Kept (x ++ y) (x' ++ y'))
    (hx : byteLen x' ≤ byteLen x) (hy : byteLen y' ≤ byteLen y) : Kept x x' ∧ Kept y y' := by
  have hlength := h.length
  rw [byteLen_append, byteLen_append] at hlength
  have hx' : byteLen x' = byteLen x := by omega
  have hy' : byteLen y' = byteLen y := by omega
  refine ⟨⟨hx', ?_⟩, ⟨hy', ?_⟩⟩
  · rintro a b rfl
    obtain ⟨a', b', hsplit, ha'⟩ := h.breaks a (b ++ y) (by simp)
    have hsize : '\n'.utf8Size = 1 := by decide
    have hsplit' : (a' ++ ['\n']) ++ b' = x' ++ y' := by
      rw [hsplit]
      simp
    have hle : byteLen (a' ++ ['\n']) ≤ byteLen x' := by
      rw [byteLen_append, ha', hx', byteLen_append, byteLen_cons, byteLen_cons]
      simp [byteLen]
    obtain ⟨m, hm, -⟩ := prefix_of_byteLen hsplit' hle
    exact ⟨a', m, by simp [hm], ha'⟩
  · rintro a b rfl
    obtain ⟨a', b', hsplit, ha'⟩ := h.breaks (x ++ a) b (by simp)
    rw [byteLen_append] at ha'
    obtain ⟨m, rfl, hm⟩ := prefix_of_byteLen hsplit (by omega)
    rw [byteLen_append] at ha'
    exact ⟨m, b', hm, by omega⟩

/-- INTERNAL: one character, masked or not. -/
theorem kept_char_iff (m : Char × Bool) :
    Kept [m.1] [blank m] ↔ (m.2 = true → m.1 ≠ '\n' ∧ m.1.utf8Size = 1) := by
  obtain ⟨c, code⟩ := m
  have hsize : ' '.utf8Size = 1 := by decide
  cases code with
  | false =>
    refine iff_of_true ⟨rfl, ?_⟩ (by simp)
    intro a b h
    exact ⟨a, b, h, rfl⟩
  | true =>
    constructor
    · intro h _
      constructor
      · rintro rfl
        obtain ⟨a', b', hsplit, -⟩ := h.breaks [] [] rfl
        have hmem : '\n' ∈ [blank ('\n', true)] := by
          rw [hsplit]
          simp
        exact absurd hmem (by decide)
      · have hlength : ' '.utf8Size + 0 = c.utf8Size + 0 := h.length
        rw [hsize] at hlength
        show c.utf8Size = 1
        omega
    · intro h
      obtain ⟨hbreak, hone⟩ := h rfl
      refine ⟨?_, ?_⟩
      · simp [blank, byteLen, hsize, hone]
      · intro a b hab
        cases a with
        | nil => exact absurd (List.cons.inj hab).1 hbreak
        | cons d a => exact absurd (congrArg List.length hab) (by simp)

theorem byteLen_blank_le (l : List (Char × Bool)) :
    byteLen (l.map blank) ≤ byteLen (l.map Prod.fst) := by
  induction l with
  | nil => exact Nat.le_refl _
  | cons m l ih =>
    have hone : (blank m).utf8Size ≤ m.1.utf8Size := by
      obtain ⟨c, code⟩ := m
      cases code with
      | false => exact Nat.le_refl _
      | true =>
        have hsize : ' '.utf8Size = 1 := by decide
        have hpos := Char.utf8Size_pos c
        show ' '.utf8Size ≤ c.utf8Size
        omega
    rw [List.map_cons, List.map_cons, byteLen_cons, byteLen_cons]
    omega

/-- INTERNAL: a line outside fences. -/
theorem kept_marked_iff (l : List (Char × Bool)) : Kept (l.map Prod.fst) (l.map blank) ↔
    ∀ m ∈ l, m.2 = true → m.1 ≠ '\n' ∧ m.1.utf8Size = 1 := by
  induction l with
  | nil => exact iff_of_true .nil (by simp)
  | cons m l ih =>
    rw [List.forall_mem_cons, ← kept_char_iff, ← ih]
    constructor
    · intro h
      have hone := byteLen_blank_le [m]
      exact @kept_of_append [m.1] [blank m] _ _ h hone (byteLen_blank_le l)
    · rintro ⟨hm, hl⟩
      exact hm.append hl

theorem marked_fst (place : Place) (ps : List Piece) :
    (marked place ps).map Prod.fst = ps.flatMap Piece.chars := by
  have hfst (l : List Char) : (l.map (·, true)).map Prod.fst = l := by
    rw [List.map_map]
    exact List.map_id l
  induction ps generalizing place with
  | nil => cases place <;> rfl
  | cons p ps ih =>
    cases place with
    | text =>
      cases p with
      | char c =>
        rw [marked, List.map_cons, ih]
        rfl
      | run n =>
        rw [marked, List.map_append, ih, hfst]
        rfl
    | span n => rw [marked, List.map_append, ih, hfst, List.flatMap_cons]
    | rest => rw [marked, List.map_append, ih, hfst, List.flatMap_cons]

/-- A line that masking leaves in shape: a fence without a line break, or a line whose code
has neither a line break nor characters of several bytes. -/
def PlainLine (line : List Char) : Prop :=
  if isFenceLine line then '\n' ∉ line
  else ∀ m ∈ marked .text (pieces line), m.2 = true → m.1 ≠ '\n' ∧ m.1.utf8Size = 1

instance (line : List Char) : Decidable (PlainLine line) := by
  unfold PlainLine
  infer_instance

/-- INTERNAL: one line. -/
theorem kept_line_iff (line : List Char) : Kept line
    (if isFenceLine line then blanks (byteLen line) else maskInlineCode line) ↔ PlainLine line := by
  rw [PlainLine]
  split
  · constructor
    · intro h hbreak
      obtain ⟨a, b, rfl⟩ := List.append_of_mem hbreak
      obtain ⟨a', b', hsplit, -⟩ := h.breaks a b rfl
      have hmem : '\n' ∈ blanks (byteLen (a ++ '\n' :: b)) := by
        rw [hsplit]
        simp
      exact absurd (List.eq_of_mem_replicate hmem) (by decide)
    · intro h
      refine ⟨byteLen_blanks _, ?_⟩
      rintro a b rfl
      exact absurd (by simp) h
  · have hline : (marked .text (pieces line)).map Prod.fst = line := by
      rw [marked_fst, length_pieces_chars]
    have hkept := kept_marked_iff (marked .text (pieces line))
    rw [hline] at hkept
    rw [maskInlineCode_eq]
    exact hkept

theorem byteLen_maskInlineCode_le (line : List Char) :
    byteLen (maskInlineCode line) ≤ byteLen line := by
  have hle := byteLen_blank_le (marked .text (pieces line))
  rw [marked_fst, length_pieces_chars] at hle
  rw [maskInlineCode_eq]
  exact hle

theorem byteLen_maskLines_le (inFence : Bool) (lines : List (List Char)) :
    byteLen (maskLines inFence lines) ≤ byteLen lines.flatten := by
  induction lines generalizing inFence with
  | nil => exact Nat.le_refl _
  | cons line lines ih =>
    have hinline := byteLen_maskInlineCode_le line
    have htrue := ih true
    have hfalse := ih false
    have hnot := ih (!inFence)
    simp only [maskLines, List.flatten_cons]
    split
    · rw [byteLen_append, byteLen_append, byteLen_blanks]
      omega
    · split
      · rename_i hin
        subst hin
        rw [byteLen_append, byteLen_append, byteLen_blanks]
        omega
      · rename_i hin
        obtain rfl : inFence = false := eq_false_of_ne_true hin
        rw [byteLen_append, byteLen_append]
        omega

/-- INTERNAL: all lines. -/
theorem kept_lines_iff {lines : List (List Char)}
    (hchain : lines.IsChain fun line _ => '\n' ∈ line) :
    Kept lines.flatten (maskLines false lines) ↔ ∀ line ∈ lines, PlainLine line := by
  induction lines with
  | nil => exact iff_of_true .nil (by simp)
  | cons line lines ih =>
    have hrest := ih hchain.of_cons
    have hone := kept_line_iff line
    rw [List.forall_mem_cons, List.flatten_cons, maskLines]
    by_cases hfence : isFenceLine line = true
    · rw [if_pos hfence] at hone ⊢
      cases lines with
      | nil =>
        simp only [List.flatten_nil, List.append_nil, maskLines, List.not_mem_nil,
          false_implies, implies_true, and_true]
        exact hone
      | cons next lines =>
        -- a fence that is not the last line has a line break
        have hbreak : '\n' ∈ line := (List.isChain_cons_cons.mp hchain).1
        have hnot : ¬ PlainLine line := by
          rw [PlainLine, if_pos hfence]
          exact fun h => h hbreak
        refine iff_of_false ?_ (fun h => hnot h.1)
        intro h
        have hparts := kept_of_append h (Nat.le_of_eq (byteLen_blanks _)) (byteLen_maskLines_le _ _)
        exact hnot (hone.mp hparts.1)
    · rw [if_neg hfence] at hone ⊢
      simp only [Bool.false_eq_true, if_false]
      constructor
      · intro h
        have hparts := kept_of_append h (byteLen_maskInlineCode_le line) (byteLen_maskLines_le _ _)
        exact ⟨hone.mp hparts.1, hrest.mp hparts.2⟩
      · rintro ⟨hline, hlines⟩
        exact (hone.mpr hline).append (hrest.mpr hlines)

/-- **Layout.** Masking keeps the length and the line breaks of exactly the bodies of plain
lines. -/
theorem keepsLayout_iff (body : String) :
    KeepsLayout body ↔ ∀ line ∈ splitInclusive body.toList, PlainLine line := by
  have hlines := kept_lines_iff (break_of_not_last body.toList)
  rw [flatten_splitInclusive] at hlines
  exact hlines

/-! ## The scanner as a whole -/

/-- The scanner finds the links outside code, and masking keeps the layout. -/
structure ScansExactly (body : String) : Prop where
  finds : FindsLinks body
  layout : KeepsLayout body

/-- No line begins with three tildes. -/
def NoTildes (lines : List (List Char)) : Prop := ∀ line ∈ lines, ∀ n, fenceOf line ≠ some ('~', n)

/-- INTERNAL: of plain lines without tildes at most the last is a fence. -/
theorem simpleFences_of_plain {lines : List (List Char)}
    (hchain : lines.IsChain fun line _ => '\n' ∈ line) (htildes : NoTildes lines)
    (hplain : ∀ line ∈ lines, PlainLine line) : SimpleFences none lines := by
  induction lines with
  | nil => trivial
  | cons line lines ih =>
    have hrest := ih hchain.of_cons (fun l hl => htildes l (List.mem_cons_of_mem line hl))
      fun l hl => hplain l (List.mem_cons_of_mem line hl)
    simp only [SimpleFences]
    split
    · rename_i fence hfence
      have hticks : fence.1 = '`' := by
        apply (three_le_of_fenceOf hfence).2.resolve_right
        intro htilde
        apply htildes line List.mem_cons_self fence.2
        rw [hfence, ← htilde]
      refine ⟨hticks, ?_⟩
      cases lines with
      | nil => trivial
      | cons next lines =>
        have hbreak : '\n' ∈ line := (List.isChain_cons_cons.mp hchain).1
        have hopen : isFenceLine line = true := by
          rw [isFenceLine_iff]
          exact ⟨fence.2, by rw [hfence, ← hticks]⟩
        have hline := hplain line List.mem_cons_self
        rw [PlainLine, if_pos hopen] at hline
        exact absurd hbreak hline
    · exact hrest

/-- **The scanner.** It is exact on the bodies of plain lines of which none begins with three
tildes, and on no body with a line that is not plain. SOURCE: links.rs:20-111 -/
theorem link_scan_exact (body : String) :
    ((∀ line ∈ splitInclusive body.toList, PlainLine line) ∧
        NoTildes (splitInclusive body.toList) → ScansExactly body) ∧
      (ScansExactly body → ∀ line ∈ splitInclusive body.toList, PlainLine line) := by
  constructor
  · rintro ⟨hplain, htildes⟩
    have hsimple := simpleFences_of_plain (break_of_not_last body.toList) htildes hplain
    exact ⟨scan_of_simpleFences hsimple, (keepsLayout_iff body).mpr hplain⟩
  · intro h
    exact (keepsLayout_iff body).mp h.layout

/-- The block between tildes is code, and the line breaks of a block between backticks are
lost. -/
theorem fences_not_exact :
    ¬ FindsLinks "~~~\n[A](/a.md)\n~~~\n" ∧ ¬ KeepsLayout "```\ncode\n```\n" := by
  constructor
  · rintro ⟨targets, hreads, hscan⟩
    have hnone : capturesFrom 0 (outsideCode "~~~\n[A](/a.md)\n~~~\n".toList) = [] := by decide
    rw [reads_iff.mp hreads, hnone] at hscan
    exact absurd hscan (by decide)
  · intro hlayout
    have hplain := (keepsLayout_iff _).mp hlayout
    exact absurd (hplain "```\n".toList (by decide)) (by decide)

end Mycelium.Analysis.LinkScan
