import Mathlib.Logic.Equiv.List
import Mathlib.Tactic.DeriveEncodable
import Mycelium.Analysis.TextLines
import Mycelium.Model.Concepts

/-!
# A concept written and read back

`to_markdown` puts the YAML of the frontmatter between two delimiter lines and the body
after them; `parse` finds the second delimiter again and gives back the frontmatter and the
body, its line endings normalised (`parse_toMarkdown`).

What this needs of the YAML library is in `Faithful`: it prints the frontmatters the store
writes, those with an RFC 3339 `confirmed_at`, without carriage returns and without a line
that reads as a delimiter, and reads back what it printed.
-/

set_option autoImplicit false

namespace Mycelium.Analysis.ConceptRoundTrip

open Mycelium.Model.Text
open Mycelium.Model.Concepts
open Mycelium.Analysis.TextLines

/-- The YAML as it stands between the delimiters. -/
def yamlBlock (yaml : String) : List Char := trimEnd (trimDelimiters yaml.toList)

/-- What the library printed for a frontmatter: carriage returns are escaped, a mapping has
no line that is three dashes, and it is read back. -/
structure Prints (cx : Codec) (fm : Frontmatter) (yaml : String) : Prop where
  printed : cx.toYaml fm = .ok yaml
  noReturn : '\r' ∉ yamlBlock yaml
  noDelimiter : ∀ line ∈ splitInclusive (yamlBlock yaml ++ ['\n']), trimEnd line ≠ "---".toList
  reads : cx.fromYaml (String.ofList (yamlBlock yaml ++ ['\n'])) = .ok fm

/-- The frontmatters that the store writes are stamped. -/
def Stamped (cx : Codec) (fm : Frontmatter) : Prop :=
  ∃ t, fm.confirmedAt = some t ∧ cx.isRfc3339 t = true

def Faithful (cx : Codec) : Prop := ∀ fm, Stamped cx fm → ∃ yaml, Prints cx fm yaml

/-- `str::replace("\r\n", "\n")` on a body. -/
def normalized (body : String) : String := String.ofList (crlfToLf body.toList)

/-- The concept as it is read back. -/
def readBack (c : Concept) : Concept := { c with body := normalized c.body }

/-! ## Texts -/

theorem crlfToLf_append {x : List Char} (hx : '\r' ∉ x) (y : List Char) :
    crlfToLf (x ++ y) = x ++ crlfToLf y := by
  induction x with
  | nil => rfl
  | cons c x ih =>
    have hc : c ≠ '\r' := by
      rintro rfl
      exact hx List.mem_cons_self
    have hrest : '\r' ∉ x := fun h => hx (List.mem_cons_of_mem c h)
    rw [List.cons_append, List.cons_append, ← ih hrest]
    conv_lhs => unfold crlfToLf
    split
    · rename_i heq
      exact absurd (List.cons.inj heq).1 hc
    · rename_i heq
      obtain ⟨rfl, rfl⟩ := List.cons.inj heq
      rfl
    · rename_i heq
      cases heq

/-- INTERNAL: lines that are no delimiter stand before it. -/
theorem splitAtDelimiter_append {lines : List (List Char)}
    (hlines : ∀ line ∈ lines, trimEnd line ≠ "---".toList) (rest : List (List Char)) :
    splitAtDelimiter (lines ++ rest) =
      (splitAtDelimiter rest).map fun r => (lines.flatten ++ r.1, r.2) := by
  induction lines with
  | nil => simp
  | cons line lines ih =>
    have hrest := ih fun l hl => hlines l (List.mem_cons_of_mem line hl)
    simp only [List.cons_append, splitAtDelimiter]
    rw [if_neg (hlines line List.mem_cons_self), hrest, Option.map_map]
    congr 1
    funext r
    simp

/-! ## The round trip -/

/-- INTERNAL: the two parts of a printed file. -/
theorem splitFrontmatter_printed {block : List Char} (hreturn : '\r' ∉ block)
    (hdelimiter : ∀ line ∈ splitInclusive (block ++ ['\n']), trimEnd line ≠ "---".toList)
    (body : String) :
    splitFrontmatter ("---\n" ++ String.ofList block ++ "\n---\n" ++ body) =
      .ok (String.ofList (block ++ ['\n']), normalized body) := by
  have hchars : ("---\n" ++ String.ofList block ++ "\n---\n" ++ body).toList =
      ('-' :: '-' :: '-' :: '\n' :: (block ++ ['\n', '-', '-', '-', '\n'])) ++ body.toList := by
    simp [String.toList_append]
  have hnoReturn : '\r' ∉ '-' :: '-' :: '-' :: '\n' :: (block ++ ['\n', '-', '-', '-', '\n']) := by
    simp [hreturn]
  have hpieces : splitInclusive (block ++ '\n' :: '-' :: '-' :: '-' :: '\n' ::
      crlfToLf body.toList) =
      splitInclusive (block ++ ['\n']) ++
        (['-', '-', '-', '\n'] :: splitInclusive (crlfToLf body.toList)) := by
    rw [splitInclusive_append]
    rfl
  have hsplit : splitAtDelimiter (splitInclusive (block ++ '\n' :: '-' :: '-' :: '-' :: '\n' ::
      crlfToLf body.toList)) = some (block ++ ['\n'], crlfToLf body.toList) := by
    have hline : trimEnd ['-', '-', '-', '\n'] = "---".toList := by decide
    rw [hpieces, splitAtDelimiter_append hdelimiter]
    simp only [splitAtDelimiter, hline, if_true, Option.map_some, flatten_splitInclusive,
      List.append_nil]
  have hbom : ¬ '-' = Char.ofNat 0xFEFF := by decide
  unfold splitFrontmatter
  rw [hchars, crlfToLf_append hnoReturn]
  simp only [List.cons_append, List.append_assoc, List.nil_append, hbom, if_false, hsplit]
  rfl

/-- **The round trip.** What `to_markdown` wrote is read back with the body normalised, or
refused for its blank type. -/
theorem parse_toMarkdown {cx : Codec} (hcx : Faithful cx) {c : Concept} {markdown : String}
    (hstamped : Stamped cx c.frontmatter) (hmarkdown : c.toMarkdown cx = .ok markdown) :
    Concept.parse cx c.sourcePath markdown =
      if (trim c.frontmatter.conceptType.toList).isEmpty then .error .missingTypeField
      else .ok (readBack c) := by
  obtain ⟨yaml, hprints⟩ := hcx c.frontmatter hstamped
  have hfile : markdown = "---\n" ++ String.ofList (yamlBlock yaml) ++ "\n---\n" ++ c.body := by
    simp only [Concept.toMarkdown, hprints.printed] at hmarkdown
    cases hmarkdown
    rfl
  have hparts := splitFrontmatter_printed hprints.noReturn hprints.noDelimiter c.body
  rw [← hfile] at hparts
  simp only [Concept.parse, hparts, bind, Except.bind, hprints.reads, Except.mapError]
  split
  · rfl
  · rfl

/-- INTERNAL: a stamped frontmatter is printed. -/
theorem exists_toMarkdown {cx : Codec} (hcx : Faithful cx) {c : Concept}
    (hstamped : Stamped cx c.frontmatter) : ∃ markdown, c.toMarkdown cx = .ok markdown := by
  obtain ⟨yaml, hprints⟩ := hcx c.frontmatter hstamped
  refine ⟨"---\n" ++ String.ofList (yamlBlock yaml) ++ "\n---\n" ++ c.body, ?_⟩
  simp only [Concept.toMarkdown, hprints.printed]
  rfl

/-- A parsed concept is at its path and has a type. -/
theorem parse_eq_ok {cx : Codec} {path markdown : String} {c : Concept}
    (h : Concept.parse cx path markdown = .ok c) :
    c.sourcePath = path ∧ (trim c.frontmatter.conceptType.toList).isEmpty = false := by
  simp only [Concept.parse, bind, Except.bind] at h
  split at h
  · cases h
  · split at h
    · cases h
    · split at h
      · cases h
      · rename_i htype
        cases h
        exact ⟨rfl, by simpa using htype⟩

/-! ## A library for notes

It prints one frontmatter as YAML does and the others by a number, so that the runs of
notes can be evaluated. -/

instance encodableChar : Encodable Char :=
  Encodable.ofLeftInverse Char.toNat Char.ofNat Char.ofNat_toNat

instance encodableString : Encodable String :=
  Encodable.ofLeftInverse String.toList String.ofList fun _ => String.ofList_toList

deriving instance Encodable for SkillRole
deriving instance Encodable for SkillFile
deriving instance Encodable for SkillManifest
deriving instance Encodable for Frontmatter

def noteTime : String := "2026-01-01T00:00:00+00:00"

def noteFrontmatter : Frontmatter := { conceptType := "note", confirmedAt := some noteTime }

def noteYaml : String := "type: note\nconfirmed_at: 2026-01-01T00:00:00+00:00\n"

def codeText (fm : Frontmatter) : List Char :=
  'c' :: 'o' :: 'd' :: 'e' :: ':' :: ' ' :: Nat.toDigits 10 (Encodable.encode fm)

def noteCodec : Codec where
  toYaml fm := .ok (if fm = noteFrontmatter then noteYaml else String.ofList (codeText fm ++ ['\n']))
  fromYaml text :=
    if text = noteYaml then .ok noteFrontmatter
    else
      match Encodable.decode (Nat.ofDigitChars 10 (text.toList.drop 6).dropLast 0) with
      | some fm => .ok fm
      | none => .error "not a frontmatter"
  isRfc3339 text := text = noteTime

/-- INTERNAL: blanks after a text that does not end in one. -/
theorem trimEnd_concat {x : List Char} {c : Char} (hc : isWhitespace c = false) :
    trimEnd (x ++ [c] ++ ['\n']) = x ++ [c] := by
  unfold trimEnd
  rw [List.rdropWhile_concat_pos _ _ _ (by decide), List.rdropWhile_concat_neg _ _ _ (by simp [hc])]

theorem not_whitespace_of_isDigit {c : Char} (h : c.isDigit = true) : isWhitespace c = false := by
  simp only [Char.isDigit, Bool.and_eq_true, decide_eq_true_eq] at h
  have hlow : 48 ≤ c.toNat := h.1
  have hhigh : c.toNat ≤ 57 := h.2
  simp only [isWhitespace, Bool.or_eq_false_iff, Bool.and_eq_false_iff, decide_eq_false_iff_not,
    beq_eq_false_iff_ne]
  omega

/-- INTERNAL: the digits of a code are characters that no line ends with. -/
theorem codeText_shape (fm : Frontmatter) :
    (∃ x c, codeText fm = x ++ [c] ∧ isWhitespace c = false) ∧
      ∀ c ∈ codeText fm, c ≠ '\r' ∧ c ≠ '\n' := by
  have hdigit : ∀ c ∈ Nat.toDigits 10 (Encodable.encode fm), c.isDigit = true :=
    fun c hc => Nat.isDigit_of_mem_toDigits (by omega) (by omega) hc
  refine ⟨?_, ?_⟩
  · have hne : Nat.toDigits 10 (Encodable.encode fm) ≠ [] := Nat.toDigits_ne_nil
    refine ⟨['c', 'o', 'd', 'e', ':', ' '] ++ (Nat.toDigits 10 (Encodable.encode fm)).dropLast,
      (Nat.toDigits 10 (Encodable.encode fm)).getLast hne, ?_, ?_⟩
    · rw [List.append_assoc, List.dropLast_append_getLast hne]
      rfl
    · exact not_whitespace_of_isDigit (hdigit _ (List.getLast_mem hne))
  · intro c hc
    simp only [codeText, List.mem_cons] at hc
    rcases hc with rfl | rfl | rfl | rfl | rfl | rfl | hc
    case inr.inr.inr.inr.inr.inr =>
      have h := not_whitespace_of_isDigit (hdigit c hc)
      refine ⟨?_, ?_⟩
      · rintro rfl
        revert h
        decide
      · rintro rfl
        revert h
        decide
    all_goals decide

theorem faithful_noteCodec : Faithful noteCodec := by
  intro fm _
  by_cases hnote : fm = noteFrontmatter
  · subst hnote
    refine ⟨noteYaml, ?_, ?_, ?_, ?_⟩
    · simp [noteCodec]
    · decide
    · decide
    · decide
  · obtain ⟨⟨x, c, hshape, hc⟩, hchars⟩ := codeText_shape fm
    have hblock : yamlBlock (String.ofList (codeText fm ++ ['\n'])) = codeText fm := by
      have htrim : trimDelimiters (codeText fm ++ ['\n']) = codeText fm ++ ['\n'] := rfl
      unfold yamlBlock
      rw [String.toList_ofList, htrim, hshape, trimEnd_concat hc]
    refine ⟨String.ofList (codeText fm ++ ['\n']), ?_, ?_, ?_, ?_⟩
    · simp only [noteCodec, if_neg hnote]
    · rw [hblock]
      exact fun h => (hchars _ h).1 rfl
    · rw [hblock, splitInclusive_line fun c hc => (hchars c hc).2]
      intro line hline
      rw [List.mem_singleton.mp hline, hshape, trimEnd_concat hc, ← hshape]
      intro h
      exact absurd (List.cons.inj h).1 (by decide)
    · rw [hblock]
      have hne : String.ofList (codeText fm ++ ['\n']) ≠ noteYaml := by
        intro h
        have hlist := congrArg String.toList h
        rw [String.toList_ofList] at hlist
        exact absurd (List.cons.inj hlist).1 (by decide)
      have hdigits : ((codeText fm ++ ['\n']).drop 6).dropLast =
          Nat.toDigits 10 (Encodable.encode fm) := by
        simp [codeText]
      simp only [noteCodec, if_neg hne, String.toList_ofList, hdigits,
        Nat.ofDigitChars_ten_toDigits, Encodable.encodek]

end Mycelium.Analysis.ConceptRoundTrip
