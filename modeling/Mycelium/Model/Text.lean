import Mathlib.Algebra.GroupWithZero.Nat
import Mathlib.Data.List.Basic
import Mathlib.Data.List.DropRight

/-!
# Rust's string operations

The `str` methods the modelled functions call, on the list of a string's characters.
-/

set_option autoImplicit false

namespace Mycelium.Model.Text

/-- INTERNAL: membership of pairs of names, such as a scope and a path, is decided by it. -/
instance lawfulBEqNames : LawfulBEq (String × String) := inferInstance

/-- `char::is_whitespace`: the Unicode `White_Space` property. -/
def isWhitespace (c : Char) : Bool :=
  let n := c.toNat
  (0x09 ≤ n && n ≤ 0x0D) || n == 0x20 || n == 0x85 || n == 0xA0 || n == 0x1680 ||
    (0x2000 ≤ n && n ≤ 0x200A) || n == 0x2028 || n == 0x2029 || n == 0x202F || n == 0x205F ||
    n == 0x3000

/-- `char::is_ascii_alphanumeric`. -/
def isAsciiAlphanumeric (c : Char) : Bool :=
  ('a' ≤ c && c ≤ 'z') || ('A' ≤ c && c ≤ 'Z') || ('0' ≤ c && c ≤ '9')

/-- `str::trim_end`. -/
def trimEnd (l : List Char) : List Char := l.rdropWhile isWhitespace

/-- `str::trim`. -/
def trim (l : List Char) : List Char := trimEnd (l.dropWhile isWhitespace)

/-- `str::starts_with`. -/
def startsWith (s p : String) : Bool := p.toList.isPrefixOf s.toList

/-- `str::ends_with`. -/
def endsWith (s p : String) : Bool := p.toList.isSuffixOf s.toList

/-- `str::split_inclusive('\n')`: the lines, each with its newline. -/
def splitInclusive : List Char → List (List Char)
  | [] => []
  | c :: cs =>
    if c = '\n' then [c] :: splitInclusive cs
    else
      match splitInclusive cs with
      | [] => [[c]]
      | line :: lines => (c :: line) :: lines

/-- `str::split` at the characters that satisfy `p`: always at least one piece. -/
def splitBy (p : Char → Bool) : List Char → List (List Char)
  | [] => [[]]
  | c :: cs =>
    if p c then [] :: splitBy p cs
    else
      match splitBy p cs with
      | [] => [[c]]
      | piece :: pieces => (c :: piece) :: pieces

/-- `str::split_whitespace`. -/
def splitWhitespace (l : List Char) : List (List Char) := (splitBy isWhitespace l).filter (· ≠ [])

/-- `path.rsplit('/').next()`: what follows the last slash. -/
def basename (path : String) : String := String.ofList (path.toList.rtakeWhile (· ≠ '/'))

/-- `path.rsplit_once('/')`, the part before: none when there is no slash. -/
def dirname (path : String) : Option String :=
  if '/' ∈ path.toList then
    some (String.ofList ((path.toList.rdropWhile (· ≠ '/')).dropLast))
  else none

/-- `str::replace("\r\n", "\n")`. -/
def crlfToLf : List Char → List Char
  | '\r' :: '\n' :: cs => '\n' :: crlfToLf cs
  | c :: cs => c :: crlfToLf cs
  | [] => []

/-- `str::strip_prefix`. -/
def stripPrefix (s p : String) : Option (List Char) :=
  if startsWith s p then some (s.toList.drop p.length) else none

/-- `str::trim_start`. -/
def trimStart (l : List Char) : List Char := l.dropWhile isWhitespace

/-- What `str::lines` leaves of a piece of `split_inclusive('\n')`. -/
def stripLineEnd (l : List Char) : List Char :=
  if l.getLast? = some '\n' then
    let l := l.dropLast
    if l.getLast? = some '\r' then l.dropLast else l
  else l

/-- `str::strip_suffix` of a character. -/
def stripLast (c : Char) (l : List Char) : Option (List Char) :=
  if l.getLast? = some c then some l.dropLast else none

/-- `str::rsplit_once`, of a pattern that is not empty. -/
def rsplitOnce (p : List Char) : List Char → Option (List Char × List Char)
  | [] => none
  | c :: cs =>
    match rsplitOnce p cs with
    | some (before, after) => some (c :: before, after)
    | none => if p.isPrefixOf (c :: cs) then some ([], (c :: cs).drop p.length) else none

/-- `str::splitn` at a character: at most `n` pieces. -/
def splitn : ℕ → Char → List Char → List (List Char)
  | 0, _, _ => []
  | 1, _, l => [l]
  | n + 2, c, l =>
    let piece := l.takeWhile (· ≠ c)
    match l.dropWhile (· ≠ c) with
    | [] => [piece]
    | _ :: rest => piece :: splitn (n + 1) c rest

/-- `char::is_ascii_digit`. -/
def isAsciiDigit (c : Char) : Bool := '0' ≤ c && c ≤ '9'

def u32Bound : ℕ := 2 ^ 32

/-- `str::parse::<u32>`: digits after an optional plus sign, and a value that fits. -/
def parseU32 (l : List Char) : Option ℕ :=
  let digits := match l with
    | '+' :: rest => rest
    | l => l
  if digits ≠ [] ∧ digits.all isAsciiDigit = true ∧ Nat.ofDigitChars 10 digits 0 < u32Bound then
    some (Nat.ofDigitChars 10 digits 0)
  else none

/-- `lines.join(sep)`. -/
def join (sep : String) : List String → String
  | [] => ""
  | [s] => s
  | s :: rest => s ++ sep ++ join sep rest

/-- INTERNAL: the first slash of a text. -/
theorem slash_split {a b x y : List Char} (ha : '/' ∉ a) (hb : '/' ∉ b)
    (h : a ++ '/' :: x = b ++ '/' :: y) : a = b ∧ x = y := by
  induction a generalizing b with
  | nil =>
    cases b with
    | nil => exact ⟨rfl, (List.cons.inj h).2⟩
    | cons c b =>
      have hc : '/' = c := (List.cons.inj h).1
      exact absurd (hc ▸ List.mem_cons_self) hb
  | cons c a ih =>
    cases b with
    | nil =>
      have hc : c = '/' := (List.cons.inj h).1
      exact absurd (hc ▸ List.mem_cons_self) ha
    | cons d b =>
      obtain ⟨rfl, hrest⟩ := List.cons.inj h
      obtain ⟨rfl, rfl⟩ := ih (fun hm => ha (List.mem_cons_of_mem c hm))
        (fun hm => hb (List.mem_cons_of_mem c hm)) hrest
      exact ⟨rfl, rfl⟩

/-- INTERNAL: the last slash of a text. -/
theorem slash_split_last {a b x y : List Char} (hx : '/' ∉ x) (hy : '/' ∉ y)
    (h : a ++ '/' :: x = b ++ '/' :: y) : a = b ∧ x = y := by
  have hreverse := congrArg List.reverse h
  simp only [List.reverse_append, List.reverse_cons, List.append_assoc, List.singleton_append]
    at hreverse
  obtain ⟨hxy, hab⟩ := slash_split (by simpa using hx) (by simpa using hy) hreverse
  exact ⟨List.reverse_injective hab, List.reverse_injective hxy⟩

/-- INTERNAL: what `rsplit_once` leaves before and after the last slash. -/
theorem toList_of_dirname {path dir : String} (h : dirname path = some dir) :
    ∃ base, path.toList = dir.toList ++ '/' :: base ∧ '/' ∉ base := by
  unfold dirname at h
  split at h
  · rename_i hslash
    cases h
    rw [String.toList_ofList]
    have hne : path.toList.rdropWhile (· ≠ '/') ≠ [] := by
      intro hnil
      have hall := List.rdropWhile_eq_nil_iff.mp hnil '/' hslash
      simp at hall
    have hlast := List.rdropWhile_last_not _ _ hne
    simp only [ne_eq, decide_not, Bool.not_eq_true', decide_eq_false_iff_not, not_not] at hlast
    refine ⟨path.toList.rtakeWhile (· ≠ '/'), ?_, ?_⟩
    · conv_lhs => rw [← List.rdropWhile_append_rtakeWhile (p := fun c => decide (c ≠ '/'))
        (l := path.toList), ← List.dropLast_append_getLast hne]
      simp only [ne_eq, decide_not, hlast, List.append_assoc, List.singleton_append]
    · intro hmem
      have hnot := List.mem_rtakeWhile_imp hmem
      simp at hnot
  · cases h

/-- INTERNAL: the pieces together are the text. -/
theorem flatten_splitInclusive (l : List Char) : (splitInclusive l).flatten = l := by
  induction l with
  | nil => rfl
  | cons c cs ih =>
    simp only [splitInclusive]
    split
    · rename_i hc
      simp [ih, hc]
    · split
      · rename_i hnil
        rw [hnil] at ih
        simpa using ih
      · rename_i line lines hcons
        rw [hcons] at ih
        simpa using ih

/-- INTERNAL: a text with a character that is no whitespace. -/
theorem trim_not_empty {text : List Char} {c : Char} (hc : c ∈ text) (hw : isWhitespace c = false) :
    (trim text).isEmpty = false := by
  have hdrop : c ∈ text.dropWhile isWhitespace := by
    rw [← List.takeWhile_append_dropWhile (p := isWhitespace) (l := text)] at hc
    rcases List.mem_append.mp hc with hc | hc
    · have hyes := List.mem_takeWhile_imp hc
      rw [hw] at hyes
      cases hyes
    · exact hc
  rw [List.isEmpty_eq_false_iff]
  intro hnil
  have hall := List.rdropWhile_eq_nil_iff.mp hnil c hdrop
  rw [hw] at hall
  cases hall

/-- INTERNAL: what trimming leaves is empty or ends in no whitespace. -/
theorem trim_trim_not_empty {text : List Char} (h : trim text ≠ []) :
    (trim (trim text)).isEmpty = false := by
  apply trim_not_empty (List.getLast_mem h)
  have hlast := List.rdropWhile_last_not isWhitespace (text.dropWhile isWhitespace) h
  exact eq_false_of_ne_true hlast

/-- INTERNAL: the basename of a joined path is what was joined. -/
theorem basename_append (dir name : String) (h : '/' ∉ name.toList) :
    basename (dir ++ "/" ++ name) = name := by
  have hlist : (dir ++ "/" ++ name).toList = dir.toList ++ '/' :: name.toList := by
    simp [String.toList_append]
  have hall : ∀ c ∈ name.toList.reverse, decide (c ≠ '/') = true := by
    intro c hc
    have hne : c ≠ '/' := by
      rintro rfl
      exact h (List.mem_reverse.mp hc)
    exact decide_eq_true hne
  unfold basename
  rw [hlist, List.rtakeWhile, List.reverse_append, List.reverse_cons, List.append_assoc,
    List.takeWhile_append_of_pos hall]
  simp [String.ofList_toList]

example : basename "/tables/users.md" = "users.md" := by decide

example : dirname "/tables/users.md" = some "/tables" := by decide

/-- INTERNAL: `char::to_ascii_lowercase` by code points. -/
theorem toNat_toLower (c : Char) :
    c.toLower.toNat = if 65 ≤ c.toNat ∧ c.toNat ≤ 90 then c.toNat + 32 else c.toNat := by
  delta Char.toLower
  by_cases h : c.val ≥ 'A'.val ∧ c.val ≤ 'Z'.val
  · have hn : 65 ≤ c.toNat ∧ c.toNat ≤ 90 := h
    have hsmall : c.val.toNat ≤ 90 := hn.2
    rw [dif_pos h, if_pos hn]
    show (c.val + 32).toNat = c.val.toNat + 32
    rw [UInt32.toNat_add]
    simp only [UInt32.reduceToNat]
    omega
  · have hn : ¬ (65 ≤ c.toNat ∧ c.toNat ≤ 90) := h
    rw [dif_neg h, if_neg hn]

end Mycelium.Model.Text
