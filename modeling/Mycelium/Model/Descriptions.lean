import Mycelium.Model.Catalog
import Mycelium.Model.Links

/-!
# The descriptions of chapters

The librarian's third scan of a book: for each chapter of the outline the first words of its
text. Lines are numbered from 0; the lines of a chapter are those from its heading up to the
next heading that bounds it.

SOURCE: crates/mycelium-librarian/src/extract.rs
-/

set_option autoImplicit false

namespace Mycelium.Model.Descriptions

open Mycelium.Model.Text Mycelium.Model.Outline Mycelium.Model.Catalog
open Mycelium.Model.Links (byteLen)

structure NumberedHeading where
  line : ℕ
  level : ℕ
  anchorId : Option Str
  deriving DecidableEq, Repr

/-- The headings outside fences with the numbers of their lines. SOURCE: extract.rs:431-445 -/
def numberedHeadings : ℕ → Bool → List Str → List NumberedHeading
  | _, _, [] => []
  | line, inFence, raw :: rest =>
    let t := trimStart (stripLineEnd raw)
    if isFence t then numberedHeadings (line + 1) (!inFence) rest
    else if inFence then numberedHeadings (line + 1) inFence rest
    else if isHeading t then
      { line := line, level := hashCount t, anchorId := headingAnchorId t } ::
        numberedHeadings (line + 1) inFence rest
    else numberedHeadings (line + 1) inFence rest

/-- The heading with a property after `n` others with it, and the headings after it. -/
def nthHeading (p : NumberedHeading → Bool) :
    ℕ → List NumberedHeading → Option (NumberedHeading × List NumberedHeading)
  | _, [] => none
  | n, h :: rest =>
    if p h then
      match n with
      | 0 => some (h, rest)
      | n + 1 => nthHeading p n rest
    else nthHeading p n rest

/-- The heading of a chapter: the first with its id, or that of its number.
SOURCE: extract.rs:456-468 -/
def chapterHeading (ch : ChapterOutline) (hs : List NumberedHeading) :
    Option (NumberedHeading × List NumberedHeading) :=
  match ch.anchorId with
  | some id => nthHeading (fun h => h.anchorId = some id) 0 hs
  | none => if ch.index = 0 then none else nthHeading (fun h => h.level = 1) (ch.index - 1) hs

/-- A heading that ends the chapter. SOURCE: extract.rs:472-483 -/
def boundsChapter (ch : ChapterOutline) (h : NumberedHeading) : Bool :=
  match ch.anchorId with
  | some _ => h.anchorId.any fun id => ['c', 'h', '-'].isPrefixOf id
  | none => h.level = 1

/-- The lines of a chapter: the number of its heading line, and of the line it ends before. -/
def chapterLines (text : Str) (ch : ChapterOutline) : Option (ℕ × ℕ) :=
  let lines := splitInclusive text
  (chapterHeading ch (numberedHeadings 0 false lines)).map fun r =>
    (r.1.line, ((r.2.find? (boundsChapter ch)).map (·.line)).getD lines.length)

/-- Words as long as they fit. SOURCE: extract.rs:491-500 -/
def leadingWords (out : Str) : List Str → Str
  | [] => out
  | word :: words =>
    if 200 < byteLen out + byteLen word + 1 then out
    else leadingWords ((if out = [] then out else out ++ [' ']) ++ word) words

/-- The leading words of the prose of some lines: blank lines and headings do not count.
SOURCE: extract.rs:484-501 -/
def describe (lines : List Str) : String :=
  let prose := (lines.map fun raw => trim (stripLineEnd raw)).filter fun l =>
    l ≠ [] && l.head? ≠ some '#'
  String.ofList (leadingWords [] (splitWhitespace (List.intercalate [' '] prose)))

/-- SOURCE: extract.rs:453-503 -/
def chapterDescription (text : Str) (ch : ChapterOutline) : String :=
  match chapterLines text ch with
  | none => ""
  | some (line, stop) =>
    describe (((splitInclusive text).drop (line + 1)).take (stop - (line + 1)))

/-- SOURCE: extract.rs:430-505 -/
def chapterDescriptions (outline : List ChapterOutline) (text : Str) : List String :=
  outline.map (chapterDescription text)

end Mycelium.Model.Descriptions
