import Mycelium.Model.Outline

/-!
# The passages of a book

The reader's side of `book://` anchors: an anchor is parsed, the heading it names is looked
for in the text, and the passage runs from there to a boundary heading. A book whose
headings carry ids is read by ids, one without by counting.

A passage's `start` is a ghost, the place in the text it was cut at. Places are counted in
characters. Counters are naturals here: a count is compared with the number sought, a `u32`,
and is past it by one at most before the search ends.

SOURCE: crates/mycelium-core/src/library.rs
-/

set_option autoImplicit false

namespace Mycelium.Model.Passages

open Mycelium.Model.Text
open Mycelium.Model.Outline (Str isFence hashCount explicitId afterPrefix sectionNumbersOf isNumber
  decimal)

/-- SOURCE: library.rs:34-48 -/
inductive Anchor where
  | chapter (index : ℕ) (slug : Str)
  | sec (chapter number : ℕ) (slug : Str)
  | other (anchor : Str)
  deriving DecidableEq, Repr

inductive PassageError where
  | anchorNotFound (anchor : Str)
  | emptyBook
  deriving DecidableEq, Repr

structure Passage where
  slug : Str
  anchor : Str
  text : Str
  start : ℕ
  deriving DecidableEq, Repr

/-- The chapter an anchor names, when its number is one. SOURCE: library.rs:52-65 -/
def parseChapter (anchor : Str) : Option Anchor :=
  match afterPrefix ['c', 'h', '-'] anchor with
  | none => none
  | some rest =>
    match splitn 2 '-' rest with
    | [] => none
    | num :: parts =>
      match parseU32 num with
      | none => none
      | some index =>
        if index = 0 then some (.other anchor) else some (.chapter index (parts.head?.getD []))

/-- SOURCE: library.rs:66-82 -/
def parseSection (anchor : Str) : Option Anchor :=
  match afterPrefix ['s', 'e', 'c', '-'] anchor with
  | none => none
  | some rest =>
    match splitn 3 '-' rest with
    | c :: s :: parts =>
      match parseU32 c, parseU32 s with
      | some chapter, some number =>
        if chapter = 0 ∨ number = 0 then some (.other anchor)
        else some (.sec chapter number (parts.head?.getD []))
      | _, _ => none
    | _ => none

/-- SOURCE: library.rs:51-84 -/
def Anchor.parse (anchor : Str) : Anchor :=
  ((parseChapter anchor).or (parseSection anchor)).getD (.other anchor)

/-! ## Headings -/

structure BookHeading where
  level : ℕ
  offset : ℕ
  anchorId : Option Str
  deriving DecidableEq, Repr

/-- SOURCE: library.rs:157-183 -/
def parseHeadingLine (line : Str) : Option (ℕ × Option Str) :=
  let trimmed := trimEnd line
  let hashes := hashCount trimmed
  if hashes = 0 ∨ 6 < hashes then none
  else
    let rest := trimmed.drop hashes
    if rest.head? ≠ some ' ' then none else some (hashes, explicitId (trimStart rest))

/-- SOURCE: library.rs:187-209 -/
def collectHeadings : ℕ → Bool → List Str → List BookHeading
  | _, _, [] => []
  | offset, inFence, line :: rest =>
    let trimmed := trimStart line
    let next := offset + line.length
    if isFence trimmed then collectHeadings next (!inFence) rest
    else
      match if !inFence && trimmed.head? = some '#' then parseHeadingLine trimmed else none with
      | some (level, id) =>
        { level := level, offset := offset, anchorId := id } :: collectHeadings next inFence rest
      | none => collectHeadings next inFence rest

def bookHeadings (text : Str) : List BookHeading := collectHeadings 0 false (splitInclusive text)

/-- SOURCE: library.rs:213-220 -/
def chapterNumberOf (id : Str) : Option ℕ :=
  match splitBy (· == '-') id with
  | _ :: n :: _ => if isNumber n then parseU32 n else none
  | _ => none

/-- The heading has an id of a chapter. -/
def isChapterHeading (h : BookHeading) : Bool :=
  match h.anchorId with
  | some id => ['c', 'h', '-'].isPrefixOf id
  | none => false

/-- The heading has the id of the chapter with this number. -/
def namesChapter (index : ℕ) (h : BookHeading) : Bool :=
  match h.anchorId with
  | some id => ['c', 'h', '-'].isPrefixOf id && chapterNumberOf id = some index
  | none => false

/-- The heading has the id of the section with these numbers. -/
def namesSection (chapter number : ℕ) (h : BookHeading) : Bool :=
  match h.anchorId with
  | some id => sectionNumbersOf id = some (chapter, number)
  | none => false

/-! ## Spans

A span is the place a passage starts at and the place it ends before. -/

/-- The first heading with a property, and the headings after it. -/
def firstHeading (p : BookHeading → Bool) : List BookHeading → Option (BookHeading × List BookHeading)
  | [] => none
  | h :: rest => if p h then some (h, rest) else firstHeading p rest

/-- The place of the next heading with a property, or the end. -/
def nextOffset (p : BookHeading → Bool) (rest : List BookHeading) (stop : ℕ) : ℕ :=
  ((rest.find? p).map (·.offset)).getD stop

/-- SOURCE: library.rs:226-246 -/
def anchoredSection (text : Str) (chapter number : ℕ) : Option (ℕ × ℕ) :=
  let hs := bookHeadings text
  if hs.all fun h => h.anchorId.isNone then none
  else
    (firstHeading (namesSection chapter number) hs).map fun r =>
      (r.1.offset, nextOffset (fun h => h.level ≤ r.1.level) r.2 text.length)

def chapterNotFound (index : ℕ) : PassageError := .anchorNotFound (['c', 'h', '-'] ++ decimal index)

def sectionNotFound (chapter number : ℕ) : PassageError :=
  .anchorNotFound (['s', 'e', 'c', '-'] ++ decimal chapter ++ '-' :: decimal number)

/-- The span from a start that was found, if one was. -/
def spanTo (start : Option ℕ) (stop : ℕ) (e : PassageError) : Except PassageError (ℕ × ℕ) :=
  match start with
  | some s => .ok (s, stop)
  | none => .error e

/-- SOURCE: library.rs:289-319 -/
def countBasedChapter (index : ℕ) : ℕ → ℕ → Option ℕ → Bool → List Str → Except PassageError (ℕ × ℕ)
  | offset, _, start, _, [] => spanTo start offset (chapterNotFound index)
  | offset, seen, start, inFence, line :: lines =>
    let trimmed := trimStart line
    let next := offset + line.length
    if isFence trimmed then countBasedChapter index next seen start (!inFence) lines
    else if !inFence && ['#', ' '].isPrefixOf trimmed then
      if seen + 1 = index then countBasedChapter index next (seen + 1) (some offset) inFence lines
      else if index < seen + 1 then spanTo start offset (chapterNotFound index)
      else countBasedChapter index next (seen + 1) start inFence lines
    else countBasedChapter index next seen start inFence lines

/-- SOURCE: library.rs:255-286 -/
def extractChapter (text : Str) (index : ℕ) : Except PassageError (ℕ × ℕ) :=
  let hs := bookHeadings text
  if hs.any fun h => h.anchorId.isSome then
    match firstHeading (namesChapter index) hs with
    | some (h, rest) => .ok (h.offset, nextOffset isChapterHeading rest text.length)
    | none => .error (chapterNotFound index)
  else countBasedChapter index 0 0 none false (splitInclusive text)

/-- Where the chapter with a number starts. SOURCE: library.rs:338-356 -/
def chapterStart (chapter : ℕ) : ℕ → ℕ → Bool → List Str → Option ℕ
  | _, _, _, [] => none
  | offset, seen, inFence, line :: lines =>
    let trimmed := trimStart line
    let next := offset + line.length
    if isFence trimmed then chapterStart chapter next seen (!inFence) lines
    else if !inFence && ['#', ' '].isPrefixOf trimmed then
      if seen + 1 = chapter then some offset
      else chapterStart chapter next (seen + 1) inFence lines
    else chapterStart chapter next seen inFence lines

/-- The span of a section in the text of its chapter. SOURCE: library.rs:358-393 -/
def sectionSpan (chapter number : ℕ) :
    ℕ → ℕ → Option ℕ → Bool → List Str → Except PassageError (ℕ × ℕ)
  | offset, _, start, _, [] => spanTo start offset (sectionNotFound chapter number)
  | offset, seen, start, inFence, line :: lines =>
    let trimmed := trimStart line
    let next := offset + line.length
    if isFence trimmed then sectionSpan chapter number next seen start (!inFence) lines
    else if !inFence && 0 < offset && ['#', ' '].isPrefixOf trimmed then
      spanTo start offset (sectionNotFound chapter number)
    else if !inFence && ['#', '#', ' '].isPrefixOf trimmed then
      if seen + 1 = number then
        sectionSpan chapter number next (seen + 1) (some offset) inFence lines
      else if number < seen + 1 then spanTo start offset (sectionNotFound chapter number)
      else sectionSpan chapter number next (seen + 1) start inFence lines
    else sectionSpan chapter number next seen start inFence lines

/-- SOURCE: library.rs:336-394 -/
def countBasedSection (text : Str) (chapter number : ℕ) : Except PassageError (ℕ × ℕ) :=
  match chapterStart chapter 0 0 false (splitInclusive text) with
  | none => .error (chapterNotFound chapter)
  | some start =>
    (sectionSpan chapter number 0 0 none false (splitInclusive (text.drop start))).map fun r =>
      (start + r.1, start + r.2)

/-- SOURCE: library.rs:323-333 -/
def extractSection (text : Str) (chapter number : ℕ) : Except PassageError (ℕ × ℕ) :=
  match anchoredSection text chapter number with
  | some span => .ok span
  | none => countBasedSection text chapter number

/-- SOURCE: library.rs:118-142 -/
def extractPassageCapped (slug anchor fullText : Str) (maxChars : ℕ) : Except PassageError Passage := do
  if (trim fullText).isEmpty then throw .emptyBook
  let span ←
    match Anchor.parse anchor with
    | .chapter index _ => extractChapter fullText index
    | .sec chapter number _ => extractSection fullText chapter number
    | .other a => if a.isEmpty then .ok (0, fullText.length) else .error (.anchorNotFound a)
  return { slug := slug, anchor := anchor, start := span.1,
           text := ((fullText.drop span.1).take (span.2 - span.1)).take maxChars }

end Mycelium.Model.Passages
