import Mycelium.Model.StoreTasks

/-!
# The deterministic add and update

What the queue does when the librarian agent cannot.

1. *The add.* The concept is written straight to a path made from the hints or the first
   line of its content. A path that holds another body gets a suffix, `-2`, `-3` and so on,
   until one is found that is not there or holds the same body. `Point` is where the add
   stands, `pointStep` its next storage step.
2. *The update.* The instruction is written behind the body of the concept, under a comment
   with the time (`addendum`); its points are those of `UpdatePoint`.

The put runs inside both with the steps of `Mycelium.Model.StoreTasks`. The hot set they
join at the end is in `Mycelium.Model.HotMemory`.

SOURCE: crates/mycelium-librarian/src/fallback.rs
-/

set_option autoImplicit false

namespace Mycelium.Model.Fallback

open Mycelium.Model.Text Mycelium.Model.Concepts
open Mycelium.Model.ConceptStore Mycelium.Model.StoreTasks

/-- What an add asks for. -/
structure AddArgs where
  content : String
  pathHint : Option String := none
  shelf : Option String := none
  conceptType : Option String := none

/-! ## Titles and slugs -/

/-- The first line that is not blank, capped. SOURCE: fallback.rs:215-222 -/
def deriveTitle (content : String) : String :=
  let lines := (splitInclusive content.toList).map stripLineEnd
  let first := (lines.find? fun l => !(trim l).isEmpty).getD "untitled".toList
  String.ofList (trim (first.take 80))

/-- Letters and digits in lower case, a dash for each run of other characters.
SOURCE: fallback.rs:225-239 -/
def slugify (s : String) : String :=
  let pushed := (s.toList.take 64).foldl (fun (r : List Char × Bool) c =>
    if isAsciiAlphanumeric c then (r.1 ++ [c.toLower], false)
    else if !r.2 then (r.1 ++ ['-'], true)
    else r) ([], true)
  String.ofList ((pushed.1.dropWhile (· = '-')).rdropWhile (· = '-'))

/-- A path hint keeps its segments. SOURCE: fallback.rs:205-213 -/
def pathSlug (p : String) : String :=
  let trimmed := (p.toList.dropWhile (· = '/')).rdropWhile (· = '/')
  let segments := (splitBy (· = '/') trimmed).map fun segment => slugify (String.ofList segment)
  join "/" (segments.filter (· ≠ ""))

/-- SOURCE: fallback.rs:190-203 -/
def derivePath (args : AddArgs) : String :=
  let slug := ((args.pathHint.map pathSlug).filter (· ≠ "")).getD
    (slugify (deriveTitle args.content))
  let shelfPart := (((args.shelf.map slugify).filter (· ≠ "")).map (· ++ "/")).getD ""
  "/" ++ shelfPart ++ slug ++ ".md"

/-- The type an add asks for. SOURCE: fallback.rs:27-30 -/
def typeOf (args : AddArgs) : String :=
  ((args.conceptType.map fun t => String.ofList (trim t.toList)).filter (· ≠ "")).getD "Note"

/-! ## Questions -/

/-- SOURCE: fallback.rs:248, tools.rs:208 -/
def maxSearchTerms : ℕ := 32

/-- The words of a question, as they are. SOURCE: fallback.rs:250-257, tools.rs:210-217 -/
def searchTerms (question : String) : List String :=
  ((splitWhitespace question.toList).take maxSearchTerms).map String.ofList

/-! ## Suffixes -/

/-- `str::trim_end_matches(".md")`, on the reversed text. -/
def trimMdReversed : List Char → List Char
  | 'd' :: 'm' :: '.' :: rest => trimMdReversed rest
  | l => l

/-- SOURCE: fallback.rs:43-45 -/
def suffixed (base : String) (suffix : ℕ) : String :=
  let stem := (trimMdReversed base.toList.reverse).reverse
  String.ofList stem ++ "-" ++ toString suffix ++ ".md"

/-! ## The add, step by step -/

inductive Point where
  | probing (path : String) (suffix : ℕ)
  | putting (path : String) (pc : Pc)
  | returned (r : Except StoreError String)

/-- The concept an add writes. SOURCE: fallback.rs:52-61 -/
def addedConcept (args : AddArgs) (path now : String) : Concept where
  frontmatter :=
    { conceptType := typeOf args, title := some (deriveTitle args.content), timestamp := some now }
  body := args.content
  sourcePath := path

/-- The store the drain opens for a row carries the row's source label.
SOURCE: queue_worker.rs:617-619 -/
def rowHandle (source : Option String) : Handle where
  provenance := source

/-- The put at the path the search ends with. -/
def putAt (cx : Codec) (source : Option String) (args : AddArgs) (clock : ℕ → String)
    (path : String) : Point :=
  .putting path ((Call.put (addedConcept args path (clock 0))).begin cx (rowHandle source)
    fun i => clock (i + 1))

/-- The next storage step of an add. SOURCE: fallback.rs:32-65 -/
def pointStep (cx : Codec) (source : Option String) (args : AddArgs) (s : Store) (ch : Choice) :
    Point → Store × Point
  | .probing path suffix =>
    match s.get cx path with
    | .ok existing =>
      -- the same content keeps the path
      if trim existing.body.toList = trim args.content.toList then
        (s, putAt cx source args ch.clock path)
      else (s, .probing (suffixed (derivePath args) suffix) ((suffix + 1) % u32Bound))
    | .error (.notFound _) => (s, putAt cx source args ch.clock path)
    | .error e => (s, .returned (.error e))
  | .putting path (.finished (.ok ())) => (s, .returned (.ok path))
  | .putting _ (.finished (.error e)) => (s, .returned (.error e))
  | .putting path pc =>
    let r := taskStep cx s ch pc
    (r.1, .putting path r.2)
  | .returned r => (s, .returned r)

structure AddState where
  store : Store
  point : Point

/-- An add of a row begins with the path its hints or its content give. -/
def AddState.begin (s : Store) (args : AddArgs) : AddState where
  store := s
  point := .probing (derivePath args) 2

/-! ## The update, step by step -/

/-- SOURCE: fallback.rs:260-269 -/
def canonical (p : String) : String :=
  let trimmed := ((trim p.toList).dropWhile (· = '/')).rdropWhile (· = '/')
  if trimmed = [] then "/untitled.md"
  else if ".md".toList.isSuffixOf trimmed then "/" ++ String.ofList trimmed
  else "/" ++ String.ofList trimmed ++ ".md"

/-- The concept an update is about: the hinted one, or the best of the hits of a search for
the words of the instruction. SOURCE: fallback.rs:77-88 -/
def updateTarget (pathHint : Option String) (hits : List String) : Except StoreError String :=
  match pathHint with
  | some p => .ok (canonical p)
  | none =>
    match hits with
    | path :: _ => .ok path
    | [] => .error (.notFound "no matching concept")

def updateMarker (stamp : String) : String := "<!-- mycelium2:update:" ++ stamp ++ " -->"

/-- The concept with the instruction behind its body. SOURCE: fallback.rs:94-103 -/
def addendum (instruction stamp : String) (c : Concept) : Concept :=
  { c with
    body := String.ofList (trimEnd c.body.toList) ++ "\n\n" ++ updateMarker stamp ++ "\n" ++
      instruction ++ "\n"
    frontmatter := { c.frontmatter with timestamp := some stamp } }

inductive UpdatePoint where
  | reading (path : String)
  | putting (path : String) (pc : Pc)
  | returned (r : Except StoreError String)

/-- The next storage step of an update. SOURCE: fallback.rs:90-107 -/
def updateStep (cx : Codec) (h : Handle) (instruction : String) (s : Store) (ch : Choice) :
    UpdatePoint → Store × UpdatePoint
  | .reading path =>
    match s.get cx path with
    | .ok c =>
      (s, .putting path ((Call.put (addendum instruction (ch.clock 0) c)).begin cx h
        fun i => ch.clock (i + 1)))
    | .error e => (s, .returned (.error e))
  | .putting path (.finished (.ok ())) => (s, .returned (.ok path))
  | .putting _ (.finished (.error e)) => (s, .returned (.error e))
  | .putting path pc =>
    let r := taskStep cx s ch pc
    (r.1, .putting path r.2)
  | .returned r => (s, .returned r)

structure UpdateState where
  store : Store
  point : UpdatePoint

/-- An update whose target has been looked up. -/
def UpdateState.begin (s : Store) (pathHint : Option String) (hits : List String) :
    UpdateState where
  store := s
  point :=
    match updateTarget pathHint hits with
    | .ok path => .reading path
    | .error e => .returned (.error e)

example : slugify "Rust: async & await!" = "rust-async-await" := by decide +kernel

example : derivePath { content := "8080", pathHint := some "/rust/Async Basics/" } =
    "/rust/async-basics.md" := by decide +kernel

end Mycelium.Model.Fallback
