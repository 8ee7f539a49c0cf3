import Mycelium.Model.Text

/-!
# The link scanner

Links of a markdown body to other concepts: absolute targets that end in `.md`. Code is
masked with spaces before the links are matched.

The pattern `\[[^\]]*\]\((/[^\s()]*/?)\)` has one way to match at a bracket: its text ends at
the first closing bracket, its target at the first blank or parenthesis.

SOURCE: crates/mycelium-core/src/links.rs
-/

set_option autoImplicit false

namespace Mycelium.Model.Links

open Mycelium.Model.Text

/-! ## Masking -/

def blanks (n : ℕ) : List Char := List.replicate n ' '

/-- `str::len`, in bytes. -/
def byteLen (l : List Char) : ℕ := (l.map Char.utf8Size).sum

/-- How far `j` goes from here to close a run of `n` backticks, `run` of them just passed.
SOURCE: links.rs:75-90 -/
def closeAt (n : ℕ) : ℕ → List Char → Option ℕ
  | run, [] => if run = n then some 0 else none
  | run, c :: cs =>
    if c = '`' then (closeAt n (run + 1) cs).map (· + 1)
    else if run = n then some 0
    else (closeAt n 0 cs).map (· + 1)

/-- The loop of `mask_inline_code`; the first argument counts the characters up to `i` that
are masked already. SOURCE: links.rs:63-111 -/
def maskFrom : ℕ → List Char → List Char
  | _, [] => []
  | skip + 1, _ :: cs => ' ' :: maskFrom skip cs
  | 0, c :: cs =>
    if c = '`' then
      let more := (cs.takeWhile (· = '`')).length
      match closeAt (more + 1) 0 (cs.drop more) with
      | some n => ' ' :: maskFrom (more + n) cs
      | none => ' ' :: blanks cs.length
    else c :: maskFrom 0 cs

def maskInlineCode (line : List Char) : List Char := maskFrom 0 line

def isFenceLine (line : List Char) : Bool := "```".toList.isPrefixOf (trimStart line)

/-- The lines of a body, masked, with the fence flag. SOURCE: links.rs:41-55 -/
def maskLines : Bool → List (List Char) → List Char
  | _, [] => []
  | inFence, line :: lines =>
    if isFenceLine line then blanks (byteLen line) ++ maskLines (!inFence) lines
    else if inFence then blanks (byteLen line) ++ maskLines inFence lines
    else maskInlineCode line ++ maskLines inFence lines

/-- SOURCE: links.rs:38-57 -/
def maskCode (body : List Char) : List Char := maskLines false (splitInclusive body)

/-! ## Matching -/

/-- A character of a target. -/
def isTargetChar (c : Char) : Bool := !isWhitespace c && c ≠ '(' && c ≠ ')'

/-- The match behind an opening bracket: its target, and what follows it.
SOURCE: links.rs:12-13 -/
def matchAt (l : List Char) : Option (List Char × List Char) :=
  match l.dropWhile (· ≠ ']') with
  | ']' :: '(' :: '/' :: rest =>
    match rest.dropWhile isTargetChar with
    | ')' :: after => some ('/' :: rest.takeWhile isTargetChar, after)
    | _ => none
  | _ => none

/-- `captures_iter`: the matches from left to right; the first argument counts the characters
a match has taken. -/
def capturesFrom : ℕ → List Char → List (List Char)
  | _, [] => []
  | skip + 1, _ :: cs => capturesFrom skip cs
  | 0, c :: cs =>
    if c = '[' then
      match matchAt cs with
      | some (target, after) => target :: capturesFrom (cs.length - after.length) cs
      | none => capturesFrom 0 cs
    else capturesFrom 0 cs

def isMdTarget (target : List Char) : Bool := ".md".toList.isSuffixOf target

/-- The links of a masked text. -/
def linksOf (masked : List Char) : List String :=
  ((capturesFrom 0 masked).filter isMdTarget).map String.ofList

/-- SOURCE: links.rs:20-34 -/
def scanLinks (body : String) : List String := linksOf (maskCode body.toList)

example : scanLinks "[A](/a.md) and `[C](/c.md)` and [B](/b.md)" = ["/a.md", "/b.md"] := by decide

end Mycelium.Model.Links
