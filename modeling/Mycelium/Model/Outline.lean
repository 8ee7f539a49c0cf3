import Mathlib.Data.List.Sort
import Mycelium.Model.Text

/-!
# The outline of a book

The librarian's scan of a book text: the headings outside fenced code, the chapters and
sections they are, and the anchors the catalog links. A heading may carry an explicit id,
`# Title {#id}`; where one does, the chapters and sections are those of the ids, else they
are counted.

Texts are lists of characters. `line` is a ghost: how many characters of the text stand
before the heading line that an entry was parsed from. The Unicode tables behind
`char::is_alphanumeric` and `char::to_lowercase` are a parameter.

SOURCE: crates/mycelium-librarian/src/extract.rs
-/

set_option autoImplicit false

namespace Mycelium.Model.Outline

open Mycelium.Model.Text

abbrev Str := List Char

structure CharTables where
  isAlphanumeric : Char → Bool
  toLowercase : Char → Str

/-- SOURCE: extract.rs:20-31 -/
structure SectionOutline where
  index : ℕ
  title : Str
  anchorId : Option Str
  line : ℕ
  deriving DecidableEq, Repr

/-- SOURCE: extract.rs:33-50 -/
structure ChapterOutline where
  index : ℕ
  title : Str
  slug : Str
  sections : List SectionOutline
  anchorId : Option Str
  line : ℕ
  deriving DecidableEq, Repr

/-- A heading outside fences: its id, its title and its level. -/
structure Heading where
  anchorId : Option Str
  title : Str
  level : ℕ
  line : ℕ
  deriving DecidableEq, Repr

/-! ## Ids -/

/-- `{#id}` at the end of a title. -/
def explicitId (title : Str) : Option Str :=
  ((stripLast '}' title).bind (rsplitOnce ['{', '#'])).map fun r => (stripLast '}' r.2).getD r.2

/-- SOURCE: extract.rs:58-65 -/
def headingAnchorId (trimmed : Str) : Option Str :=
  (explicitId (trimStart (trimmed.dropWhile (· = '#')))).filter fun id => id ≠ []

def isNumber (part : Str) : Bool := part ≠ [] && part.all isAsciiDigit

/-- SOURCE: extract.rs:70-76 -/
def isChapterId (id : Str) : Bool :=
  match splitBy (· == '-') id with
  | ch :: n :: _ :: _ => ch = ['c', 'h'] && isNumber n
  | _ => false

/-- SOURCE: extract.rs:81-89 -/
def isSectionId (id : Str) : Bool :=
  match splitBy (· == '-') id with
  | sec :: n :: m :: _ :: _ => sec = ['s', 'e', 'c'] && isNumber n && isNumber m
  | _ => false

/-- The rest of a text after a prefix. -/
def afterPrefix (p l : Str) : Option Str := if p.isPrefixOf l then some (l.drop p.length) else none

/-- SOURCE: extract.rs:94-107, library.rs:240-255 -/
def sectionNumbersOf (id : Str) : Option (ℕ × ℕ) :=
  match afterPrefix ['s', 'e', 'c', '-'] id with
  | none => none
  | some rest =>
    match splitn 3 '-' rest with
    | c :: s :: _ =>
      if isNumber c && isNumber s then
        match parseU32 c, parseU32 s with
        | some c, some s => some (c, s)
        | _, _ => none
      else none
    | _ => none

/-- The number of a `ch-<n>-…` id, when it is one of a chapter. SOURCE: extract.rs:166-169 -/
def chapterIdNumber (id : Str) : Option ℕ :=
  match splitBy (· == '-') id with
  | _ :: n :: _ => (parseU32 n).filter fun n => 0 < n
  | _ => none

/-! ## Headings -/

/-- A line that opens or closes a fence. -/
def isFence (trimmed : Str) : Bool :=
  ['`', '`', '`'].isPrefixOf trimmed || ['~', '~', '~'].isPrefixOf trimmed

def hashCount (trimmed : Str) : ℕ := (trimmed.takeWhile (· = '#')).length

/-- One to six hashes and a space. -/
def isHeading (trimmed : Str) : Bool :=
  let hashes := hashCount trimmed
  0 < hashes && hashes ≤ 6 && (trimmed.drop hashes).head? = some ' '

/-- `str::strip_suffix`. -/
def beforeSuffix (p l : Str) : Option Str :=
  if p.isSuffixOf l then some (l.take (l.length - p.length)) else none

/-- The title of a heading without its id. SOURCE: extract.rs:137-147 -/
def headingTitle (trimmed : Str) : Str :=
  let fullTitle := trim (trimStart (trimmed.drop (hashCount trimmed)))
  match headingAnchorId trimmed with
  | none => fullTitle
  | some id => ((beforeSuffix ('{' :: '#' :: id ++ ['}']) fullTitle).map trimEnd).getD fullTitle

/-- The headings of the lines from `line` on. SOURCE: extract.rs:119-149 -/
def headings : ℕ → Bool → List Str → List Heading
  | _, _, [] => []
  | line, inFence, raw :: rest =>
    let trimmed := trimStart (stripLineEnd raw)
    let next := line + raw.length
    if isFence trimmed then headings next (!inFence) rest
    else if inFence then headings next inFence rest
    else if isHeading trimmed then
      { anchorId := headingAnchorId trimmed, title := headingTitle trimmed,
        level := hashCount trimmed, line := line } :: headings next inFence rest
    else headings next inFence rest

/-! ## Chapters and sections -/

/-- SOURCE: extract.rs:225-240 -/
def slugify (tables : CharTables) (text : Str) : Str :=
  let pushed := text.foldl (fun (r : Str × Bool) c =>
    if tables.isAlphanumeric c then (r.1 ++ tables.toLowercase c, false)
    else if !r.2 && r.1 ≠ [] then (r.1 ++ ['-'], true)
    else r) ([], false)
  pushed.1.rdropWhile (· = '-')

/-- The chapter a heading with an id is. SOURCE: extract.rs:164-179 -/
def chapterOf (tables : CharTables) (h : Heading) : Option ChapterOutline :=
  match h.anchorId with
  | none => none
  | some id =>
    if isChapterId id then
      (chapterIdNumber id).map fun n =>
        { index := n, title := h.title, slug := slugify tables h.title, sections := [],
          anchorId := some id, line := h.line }
    else none

/-- The section a heading with an id is, with the number of its chapter.
SOURCE: extract.rs:180-194 -/
def sectionOf (h : Heading) : Option (ℕ × SectionOutline) :=
  match h.anchorId with
  | none => none
  | some id =>
    if isChapterId id then none
    else if isSectionId id then
      ((sectionNumbersOf id).filter fun r => 0 < r.1).map fun r =>
        (r.1, { index := r.2, title := h.title, anchorId := some id, line := h.line })
    else none

/-- The first chapter of a number takes its sections, in the order of their numbers.
SOURCE: extract.rs:196-201 -/
def assignSections : List (ℕ × SectionOutline) → List ChapterOutline → List ChapterOutline
  | _, [] => []
  | secs, ch :: rest =>
    let mine := (secs.filter fun e => e.1 = ch.index).map (·.2)
    { ch with sections := mine.insertionSort fun a b => a.index ≤ b.index } ::
      assignSections (secs.filter fun e => e.1 ≠ ch.index) rest

/-- SOURCE: extract.rs:156-204 -/
def anchoredOutline (tables : CharTables) (hs : List Heading) : List ChapterOutline :=
  (assignSections (hs.filterMap sectionOf) (hs.filterMap (chapterOf tables))).insertionSort
    fun a b => a.index ≤ b.index

/-- Counts are `u32`. SOURCE: extract.rs:206-219 -/
def plainStep (tables : CharTables) (chapters : List ChapterOutline) (h : Heading) :
    List ChapterOutline :=
  if h.level = 1 then
    chapters ++ [{ index := (chapters.length + 1) % u32Bound, title := h.title,
                   slug := slugify tables h.title, sections := [], anchorId := none, line := h.line }]
  else if h.level = 2 then
    match chapters.getLast? with
    | none => chapters
    | some ch =>
      chapters.dropLast ++ [{ ch with
        sections := ch.sections ++ [{ index := (ch.sections.length + 1) % u32Bound, title := h.title,
                                      anchorId := none, line := h.line }] }]
  else chapters

/-- SOURCE: extract.rs:116-221 -/
def parseOutline (tables : CharTables) (text : Str) : List ChapterOutline :=
  let hs := headings 0 false (splitInclusive text)
  if hs.any fun h => h.anchorId.isSome then anchoredOutline tables hs
  else hs.foldl (plainStep tables) []

/-! ## Anchors -/

def decimal (n : ℕ) : Str := Nat.toDigits 10 n

/-- SOURCE: extract.rs:349-354 -/
def chapterAnchorId (chapter : ChapterOutline) : Str :=
  match chapter.anchorId with
  | some id => id
  | none => ['c', 'h', '-'] ++ decimal chapter.index ++ '-' :: chapter.slug

/-- SOURCE: extract.rs:359-369 -/
def sectionAnchorId (tables : CharTables) (chapter : ChapterOutline) (sec : SectionOutline) : Str :=
  match sec.anchorId with
  | some id => id
  | none =>
    ['s', 'e', 'c', '-'] ++ decimal chapter.index ++ '-' :: decimal sec.index ++
      '-' :: slugify tables sec.title

end Mycelium.Model.Outline
