import Mathlib.Data.Option.Basic
import Mycelium.Model.Text

/-!
# Concepts

An OKF concept is a markdown file with YAML frontmatter. The YAML library and the
timestamp parser are not part of the repository: `Codec` stands for them.

SOURCE: crates/mycelium-core/src/concept.rs
-/

set_option autoImplicit false

namespace Mycelium.Model.Concepts

open Mycelium.Model.Text

/-! ## The data -/

/-- Role of a file inside a skill bundle. -/
inductive SkillRole where
  | script
  | reference
  | example
  deriving DecidableEq, Repr

/-- One file of a skill bundle, its path relative to the skill directory. -/
structure SkillFile where
  path : String
  role : SkillRole := .reference
  md5 : Option String := none
  deriving DecidableEq, Repr

/-- The manifest carried by a `/<slug>/skill.md` hub. -/
structure SkillManifest where
  version : ℕ := 0
  files : List SkillFile := []
  deriving DecidableEq, Repr

/-- Lifecycle status of a concept. -/
inductive LifecycleStatus where
  | active
  | superseded
  | retired
  deriving DecidableEq, Repr

/-- Exact lowercase match only. SOURCE: concept.rs:95-102 -/
def LifecycleStatus.parse (s : String) : Option LifecycleStatus :=
  if s = "active" then some .active
  else if s = "superseded" then some .superseded
  else if s = "retired" then some .retired
  else none

/-- Frontmatter of a concept; `conceptType` is the field written `type`. -/
structure Frontmatter where
  conceptType : String := ""
  title : Option String := none
  description : Option String := none
  resource : Option String := none
  tags : List String := []
  timestamp : Option String := none
  book : Option String := none
  chapterIndex : Option ℕ := none
  skill : Option SkillManifest := none
  status : Option String := none
  supersededBy : Option String := none
  validTo : Option String := none
  source : Option String := none
  confirmedAt : Option String := none
  deriving DecidableEq, Repr

/-- A parsed concept: frontmatter, markdown body and canonical path. -/
structure Concept where
  frontmatter : Frontmatter
  body : String
  sourcePath : String
  deriving DecidableEq, Repr

inductive ConceptError where
  | missingFrontmatter
  | missingTypeField
  | yaml (message : String)
  | invalidLifecycleStatus (value : String)
  | invalidSupersededBy (value : String)
  | invalidValidTo (value : String)
  deriving DecidableEq, Repr

/-- What the concept code takes from outside the repository: `serde_yaml_ng::to_string`
and `from_str` on frontmatter, and whether `parse_from_rfc3339` accepts a text. -/
structure Codec where
  toYaml : Frontmatter → Except String String
  fromYaml : String → Except String Frontmatter
  isRfc3339 : String → Bool

/-! ## Validation, parsing and printing -/

/-- Shape validation of the lifecycle fields, run at write time.
SOURCE: concept.rs:153-171 -/
def Frontmatter.validated (cx : Codec) (fm : Frontmatter) : Except ConceptError Unit := do
  match fm.status with
  | some v => if (LifecycleStatus.parse v).isNone then throw (.invalidLifecycleStatus v)
  | none => pure ()
  match fm.supersededBy with
  | some v => if !(startsWith v "/" && endsWith v ".md") then throw (.invalidSupersededBy v)
  | none => pure ()
  match fm.validTo with
  | some v => if !cx.isRfc3339 v then throw (.invalidValidTo v)
  | none => pure ()

/-- The lines up to the closing delimiter and the text after it, none when no line
closes the block. SOURCE: concept.rs:257-268 -/
def splitAtDelimiter : List (List Char) → Option (List Char × List Char)
  | [] => none
  | line :: lines =>
    if trimEnd line = "---".toList then some ([], lines.flatten)
    else (splitAtDelimiter lines).map fun (yaml, body) => (line ++ yaml, body)

/-- Split the frontmatter block from the body. SOURCE: concept.rs:243-270 -/
def splitFrontmatter (contents : String) : Except ConceptError (String × String) :=
  let normalized := crlfToLf contents.toList
  -- a UTF-8 byte order mark is dropped
  let normalized :=
    match normalized with
    | c :: cs => if c = Char.ofNat 0xFEFF then cs else c :: cs
    | [] => []
  match normalized with
  | '-' :: '-' :: '-' :: '\n' :: rest =>
    match splitAtDelimiter (splitInclusive rest) with
    | some (yaml, body) => .ok (String.ofList yaml, String.ofList body)
    | none => .error .missingFrontmatter
  | _ => .error .missingFrontmatter

/-- Parse a concept from file contents at a canonical path. SOURCE: concept.rs:210-221 -/
def Concept.parse (cx : Codec) (sourcePath contents : String) : Except ConceptError Concept := do
  let (frontmatterRaw, body) ← splitFrontmatter contents
  let frontmatter ← (cx.fromYaml frontmatterRaw).mapError .yaml
  if (trim frontmatter.conceptType.toList).isEmpty then throw .missingTypeField
  return { frontmatter, body, sourcePath }

/-- `str::trim_start_matches("---\n")`. -/
def trimDelimiters : List Char → List Char
  | '-' :: '-' :: '-' :: '\n' :: rest => trimDelimiters rest
  | l => l

/-- Serialize to frontmatter and body. SOURCE: concept.rs:224-236 -/
def Concept.toMarkdown (cx : Codec) (c : Concept) : Except ConceptError String := do
  let yaml ← (cx.toYaml c.frontmatter).mapError .yaml
  let yaml := trimEnd (trimDelimiters yaml.toList)
  return "---\n" ++ String.ofList yaml ++ "\n---\n" ++ c.body

end Mycelium.Model.Concepts
