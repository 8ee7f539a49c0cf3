import Mathlib.Data.List.Infix
import Mycelium.Analysis.ConceptRoundTrip

/-!
# A concept read, written and read again

1. *Line endings.* `parse` replaces each CR LF once, so that a body read from CR CR LF has a
   CR LF again, and the next cycle replaces that one too (`crlfToLf_eq_self`,
   `crlf_of_crlfToLf`). A text without CR CR LF has no such body (`not_hasCrlf_of_text`).
2. *The block.* `to_markdown` cuts the blanks off the end of the YAML, those of a last value
   among them (`block_end_drifts`).

Nothing else drifts (`parse_toMarkdown_parse`).
-/

set_option autoImplicit false

namespace Mycelium.Analysis.TextNormalForm

open Mycelium.Model.Text Mycelium.Model.Concepts
open Mycelium.Analysis.ConceptRoundTrip

/-! ## Line endings -/

def HasCrlf (text : List Char) : Prop := ['\r', '\n'] <:+: text

instance (text : List Char) : Decidable (HasCrlf text) := inferInstanceAs (Decidable (_ <:+: _))

theorem length_crlfToLf_le (text : List Char) : (crlfToLf text).length ≤ text.length := by
  induction text using crlfToLf.induct with
  | case1 cs ih =>
    simp only [crlfToLf, List.length_cons]
    omega
  | case2 c cs hne ih =>
    rw [crlfToLf.eq_2 c cs hne]
    simp only [List.length_cons]
    omega
  | case3 => exact Nat.le_refl 0

/-- INTERNAL: two characters at the front of a text. -/
theorem pair_prefix_iff {a b c : Char} {cs : List Char} :
    [a, b] <+: c :: cs ↔ c = a ∧ [b] <+: cs := by
  rw [List.cons_prefix_cons]
  exact and_congr_left' eq_comm

/-- INTERNAL: a text that the replacement passes over does not start with CR LF. -/
theorem not_crlf_prefix {c : Char} {cs : List Char}
    (h : ∀ ds, c = '\r' → cs = '\n' :: ds → False) : ¬ ['\r', '\n'] <+: c :: cs := by
  rw [pair_prefix_iff]
  rintro ⟨hc, ds, hcs⟩
  exact h ds hc hcs.symm

theorem crlfToLf_eq_self {text : List Char} : crlfToLf text = text ↔ ¬ HasCrlf text := by
  unfold HasCrlf
  induction text using crlfToLf.induct with
  | case1 cs ih =>
    constructor
    · intro h
      have hlength := congrArg List.length h
      have hle := length_crlfToLf_le cs
      simp only [crlfToLf, List.length_cons] at hlength
      omega
    · intro h
      exact absurd ⟨[], cs, rfl⟩ h
  | case2 c cs hne ih =>
    rw [crlfToLf.eq_2 c cs hne, List.cons.injEq, List.infix_cons_iff]
    simp only [true_and, ih, not_or, not_crlf_prefix hne, not_false_eq_true]
  | case3 => simp [crlfToLf]

/-- INTERNAL: where a replaced text starts with a line feed. -/
theorem lf_prefix_crlfToLf {text : List Char} :
    ['\n'] <+: crlfToLf text ↔ ['\n'] <+: text ∨ ['\r', '\n'] <+: text := by
  induction text using crlfToLf.induct with
  | case1 cs ih => simp [crlfToLf]
  | case2 c cs hne ih =>
    rw [crlfToLf.eq_2 c cs hne]
    simp [List.cons_prefix_cons, not_crlf_prefix hne]
  | case3 => simp [crlfToLf]

/-- A CR LF is left where there was a CR before it. -/
theorem crlf_of_crlfToLf {text : List Char} :
    HasCrlf (crlfToLf text) ↔ ['\r', '\r', '\n'] <:+: text := by
  unfold HasCrlf
  induction text using crlfToLf.induct with
  | case1 cs ih =>
    rw [crlfToLf, List.infix_cons_iff, ih, List.infix_cons_iff, List.infix_cons_iff]
    simp [List.cons_prefix_cons]
  | case2 c cs hne ih =>
    rw [crlfToLf.eq_2 c cs hne, List.infix_cons_iff, ih, List.infix_cons_iff, pair_prefix_iff,
      lf_prefix_crlfToLf]
    apply or_congr_left
    rw [List.cons_prefix_cons]
    constructor
    · rintro ⟨hc, hlf | hcrlf⟩
      · obtain ⟨ds, hcs⟩ := hlf
        exact (hne ds hc hcs.symm).elim
      · exact ⟨hc.symm, hcrlf⟩
    · rintro ⟨hc, hcrlf⟩
      exact ⟨hc.symm, .inr hcrlf⟩
  | case3 => simp [crlfToLf]

/-- INTERNAL: the body is the end of the text. -/
theorem splitAtDelimiter_suffix {lines : List (List Char)} {yaml body : List Char}
    (h : splitAtDelimiter lines = some (yaml, body)) : body <:+ lines.flatten := by
  induction lines generalizing yaml with
  | nil => cases h
  | cons line lines ih =>
    rw [List.flatten_cons]
    simp only [splitAtDelimiter] at h
    split at h
    · cases h
      exact List.suffix_append line _
    · obtain ⟨⟨yaml', body'⟩, hrest, heq⟩ := Option.map_eq_some_iff.mp h
      cases heq
      exact (ih hrest).trans (List.suffix_append line _)

theorem body_suffix {contents yaml body : String}
    (h : splitFrontmatter contents = .ok (yaml, body)) :
    body.toList <:+ crlfToLf contents.toList := by
  unfold splitFrontmatter at h
  dsimp only at h
  split at h
  · rename_i lines hlines
    -- what follows the byte order mark, whatever it is
    have hrest : '-' :: '-' :: '-' :: '\n' :: lines <:+ crlfToLf contents.toList := by
      rw [← hlines]
      cases crlfToLf contents.toList with
      | nil => exact List.suffix_refl []
      | cons c cs =>
        dsimp only
        split
        · exact List.suffix_cons c cs
        · exact List.suffix_refl (c :: cs)
    refine List.IsSuffix.trans ?_ hrest
    cases hsplit : splitAtDelimiter (splitInclusive lines) with
    | none =>
      rw [hsplit] at h
      cases h
    | some parts =>
      rw [hsplit] at h
      cases h
      have hsuffix := splitAtDelimiter_suffix hsplit
      rw [flatten_splitInclusive] at hsuffix
      rw [String.toList_ofList]
      exact hsuffix.trans (List.suffix_append ['-', '-', '-', '\n'] lines)
  · cases h

/-- A text without CR CR LF has a body without CR LF. -/
theorem not_hasCrlf_of_text {contents yaml body : String}
    (h : splitFrontmatter contents = .ok (yaml, body))
    (htext : ¬ ['\r', '\r', '\n'] <:+: contents.toList) : ¬ HasCrlf body.toList := by
  rw [← crlf_of_crlfToLf] at htext
  exact fun hbody => htext (hbody.trans (body_suffix h).isInfix)

/-! ## The cycle -/

/-- What the library prints for a frontmatter: carriage returns are escaped, a mapping has no
line that is three dashes, and it reads back what it printed. -/
structure WritesYaml (cx : Codec) (fm : Frontmatter) (yaml : String) : Prop where
  printed : cx.toYaml fm = .ok yaml
  inverse : cx.fromYaml yaml = .ok fm
  noReturn : '\r' ∉ yamlBlock yaml
  noDelimiter : ∀ line ∈ splitInclusive (yamlBlock yaml ++ ['\n']), trimEnd line ≠ "---".toList

/-- The YAML as `split_frontmatter` gives it to the library. -/
def trimmedYaml (yaml : String) : String := String.ofList (yamlBlock yaml ++ ['\n'])

variable {cx : Codec}

theorem toMarkdown_eq {c : Concept} {yaml : String} (h : cx.toYaml c.frontmatter = .ok yaml) :
    c.toMarkdown cx = .ok ("---\n" ++ String.ofList (yamlBlock yaml) ++ "\n---\n" ++ c.body) := by
  simp only [Concept.toMarkdown, h]
  rfl

theorem normalized_eq_self {body : String} : normalized body = body ↔ ¬ HasCrlf body.toList := by
  rw [← crlfToLf_eq_self]
  unfold normalized
  constructor
  · intro h
    have hlist := congrArg String.toList h
    rw [String.toList_ofList] at hlist
    exact hlist
  · intro h
    rw [h, String.ofList_toList]

/-- **The normal form.** What was parsed is printed and parsed again as it is, exactly when its
body has no CR LF left and the library reads the block that it printed in the same way without
the blanks at its end. SOURCE: concept.rs:210-270 -/
theorem parse_toMarkdown_parse {path text : String} {c : Concept} {yaml : String}
    (hparse : Concept.parse cx path text = .ok c) (hyaml : WritesYaml cx c.frontmatter yaml) :
    (∃ markdown, c.toMarkdown cx = .ok markdown ∧ Concept.parse cx path markdown = .ok c) ↔
      ¬ HasCrlf c.body.toList ∧ cx.fromYaml (trimmedYaml yaml) = cx.fromYaml yaml := by
  obtain ⟨hpath, htype⟩ := parse_eq_ok hparse
  have hprint := toMarkdown_eq hyaml.printed
  have hparts := splitFrontmatter_printed hyaml.noReturn hyaml.noDelimiter c.body
  have hagain : Concept.parse cx path
      ("---\n" ++ String.ofList (yamlBlock yaml) ++ "\n---\n" ++ c.body) = .ok c ↔
        normalized c.body = c.body ∧ cx.fromYaml (trimmedYaml yaml) = .ok c.frontmatter := by
    simp only [Concept.parse, hparts, bind, Except.bind]
    unfold trimmedYaml
    cases hread : cx.fromYaml (String.ofList (yamlBlock yaml ++ ['\n'])) with
    | error e => simp [Except.mapError]
    | ok fm =>
      simp only [Except.mapError, Except.ok.injEq]
      constructor
      · intro h
        split at h
        · cases h
        · have hc := Except.ok.inj h
          exact ⟨congrArg Concept.body hc, congrArg Concept.frontmatter hc⟩
      · rintro ⟨hbody, rfl⟩
        rw [htype, hbody, ← hpath]
        rfl
  rw [hyaml.inverse, ← normalized_eq_self, ← hagain]
  constructor
  · rintro ⟨markdown, hmarkdown, h⟩
    rw [hprint] at hmarkdown
    cases hmarkdown
    exact h
  · intro h
    exact ⟨_, hprint, h⟩

/-! ## Three texts -/

theorem writesYaml_note : WritesYaml noteCodec noteFrontmatter noteYaml where
  printed := rfl
  inverse := rfl
  noReturn := by decide
  noDelimiter := by decide

/-- A note with Windows line endings, which are gone when it has been read. -/
theorem parse_toMarkdown_windows : ∃ c markdown,
    Concept.parse noteCodec "/port.md" ("---\r\n" ++ noteYaml ++ "---\r\n80\r\n80") = .ok c ∧
      c.toMarkdown noteCodec = .ok markdown ∧ Concept.parse noteCodec "/port.md" markdown = .ok c := by
  have hparse : Concept.parse noteCodec "/port.md" ("---\r\n" ++ noteYaml ++ "---\r\n80\r\n80") =
      .ok { frontmatter := noteFrontmatter, body := "80\n80", sourcePath := "/port.md" } := by rfl
  obtain ⟨markdown, hmarkdown, hagain⟩ :=
    (parse_toMarkdown_parse hparse writesYaml_note).mpr ⟨by decide, rfl⟩
  exact ⟨_, markdown, hparse, hmarkdown, hagain⟩

theorem crlf_drifts :
    ¬ ∀ (cx : Codec) (path text : String) (c : Concept) (yaml : String),
      Concept.parse cx path text = .ok c → WritesYaml cx c.frontmatter yaml →
      ∃ markdown, c.toMarkdown cx = .ok markdown ∧ Concept.parse cx path markdown = .ok c := by
  intro hall
  have hparse : Concept.parse noteCodec "/port.md" ("---\n" ++ noteYaml ++ "---\n80\r\r\n80") =
      .ok { frontmatter := noteFrontmatter, body := "80\r\n80", sourcePath := "/port.md" } := by rfl
  obtain ⟨markdown, hmarkdown, hagain⟩ := hall _ _ _ _ noteYaml hparse writesYaml_note
  rw [toMarkdown_eq writesYaml_note.printed] at hmarkdown
  cases hmarkdown
  have hbody := congrArg (fun r => r.toOption.map Concept.body) hagain
  revert hbody
  decide

/-- A title with two line breaks at its end, in a literal block. -/
def twoBreaks : Frontmatter := { conceptType := "note", title := some "a\n\n" }

def literalYaml : String := "type: note\ntitle: |+\n  a\n\n"

/-- What the library does with the literal block and with the trimmed one. -/
def literalCodec : Codec where
  toYaml _ := .ok literalYaml
  fromYaml text :=
    if text = literalYaml then .ok twoBreaks
    else if text = "type: note\ntitle: |+\n  a\n" then .ok { twoBreaks with title := some "a\n" }
    else .error "not a note"
  isRfc3339 _ := false

theorem block_end_drifts : WritesYaml literalCodec twoBreaks literalYaml ∧
    literalCodec.fromYaml (trimmedYaml literalYaml) ≠ literalCodec.fromYaml literalYaml := by
  refine ⟨⟨rfl, rfl, by decide, by decide⟩, ?_⟩
  decide

end Mycelium.Analysis.TextNormalForm
