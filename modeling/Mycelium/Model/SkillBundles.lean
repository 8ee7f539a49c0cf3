import Mycelium.Lib.Dict
import Mycelium.Lib.Grouping
import Mycelium.Model.ConceptStore
import Mycelium.Model.FileRepo

/-!
# Skills of several files

An entry at `/<slug>/…` belongs to the skill `<slug>` where `/<slug>/skill.md` is registered;
every other entry is flat. The installable files of a skill are its hub, its companions and the
payloads that the manifest of the hub declares.

What a bundle reads is a structure: the concept store, the payload repository at its scope and
the md5 of bytes. It is not written to while a bundle is assembled.

SOURCE: crates/mycelium-store/src/skill_group.rs, crates/mycelium-store/src/skill_bundle.rs,
crates/mycelium-core/src/concept.rs
-/

set_option autoImplicit false

namespace Mycelium.Model.SkillBundles

open Mycelium.Model.Text Mycelium.Model.Concepts Mycelium.Model.ConceptStore
open Mycelium.Model.FileRepo (FileRepoError)
open Mycelium.Model.Sealing (Bytes)

/-! ## Grouping -/

/-- SOURCE: skill_group.rs:8 -/
def systemBasenames : List String := ["index.md", "log.md", "info.md"]

def isSystem (e : ConceptEntry) : Bool := basename e.path ∈ systemBasenames

/-- SOURCE: skill_group.rs:10-19 -/
structure SkillGroup where
  slug : String
  hub : ConceptEntry
  members : List ConceptEntry
  deriving DecidableEq, Repr

/-- SOURCE: skill_group.rs:21-27 -/
structure SkillListings where
  grouped : List SkillGroup
  flat : List ConceptEntry
  deriving DecidableEq, Repr

/-- The top-level directory of a path and the rest. SOURCE: skill_group.rs:46-51 -/
def splitSlug (path : String) : Option (String × String) :=
  let stripped := (stripPrefix path "/").getD path.toList
  if '/' ∈ stripped then
    some (String.ofList (stripped.takeWhile (· ≠ '/')),
      String.ofList (stripped.dropWhile (· ≠ '/')).tail)
  else none

/-- What the scan keeps of a directory. -/
structure Slot where
  hub : Option ConceptEntry := none
  members : List ConceptEntry := []

/-- SOURCE: skill_group.rs:53-57 -/
def Slot.add (slot : Slot) (rest : String) (entry : ConceptEntry) : Slot :=
  if rest = "skill.md" then { slot with hub := some entry }
  else { slot with members := slot.members ++ [entry] }

/-- One round of the scan. SOURCE: skill_group.rs:39-62 -/
def groupStep (acc : List ConceptEntry × Dict String Slot) (entry : ConceptEntry) :
    List ConceptEntry × Dict String Slot :=
  if isSystem entry then acc
  else
    match splitSlug entry.path with
    | some (slug, rest) => (acc.1, acc.2.upsert slug {} fun slot => slot.add rest entry)
    | none => (acc.1 ++ [entry], acc.2)

def byPath (entries : List ConceptEntry) : List ConceptEntry :=
  Grouping.sort ConceptEntry.path entries

/-- SOURCE: skill_group.rs:29-84 -/
def groupSkills (entries : List ConceptEntry) : SkillListings :=
  let (flat, dirs) := entries.foldl groupStep ([], ∅)
  let slots := (Grouping.sort id dirs.keys).filterMap fun slug =>
    (dirs.get? slug).map fun slot => (slug, slot)
  { grouped := slots.filterMap fun (slug, slot) => slot.hub.map fun hub =>
      { slug := slug, hub := hub, members := byPath slot.members }
    flat := byPath (flat ++ slots.flatMap fun (_, slot) =>
      if slot.hub.isNone then slot.members else []) }

/-! ## Manifests -/

/-- The errors of a manifest and of a concept. SOURCE: concept.rs:182-198 -/
inductive ManifestError where
  | invalidSkillPath (path : String)
  | concept (e : ConceptError)
  deriving DecidableEq, Repr

/-- SOURCE: skill_bundle.rs:16-29 -/
inductive SkillBundleError where
  | notBundle (slug : String)
  | traversal (e : ManifestError)
  | checksumMismatch (path : String)
  | store (e : StoreError)
  | io (e : FileRepoError)
  deriving DecidableEq, Repr

def okSkillPath (p : String) : Bool :=
  p ≠ "" && !startsWith p "/" && '\\' ∉ p.toList && Char.ofNat 0 ∉ p.toList &&
    (splitBy (· = '/') p.toList).all fun seg => seg ≠ "..".toList && seg ≠ ".".toList && seg ≠ []

/-- Every file path is checked. SOURCE: concept.rs:60-80 -/
def validated (m : SkillManifest) : Except ManifestError Unit :=
  m.files.forM fun f => if okSkillPath f.path then .ok () else .error (.invalidSkillPath f.path)

/-! ## Bundles -/

/-- SOURCE: skill_bundle.rs:31-37 -/
structure SkillBundleFile where
  relPath : String
  bytes : Bytes
  deriving DecidableEq, Repr

/-- What a bundle reads. -/
structure Shelf where
  codec : Codec
  store : Store
  payload : String → Except FileRepoError Bytes
  md5Hex : Bytes → String

/-- `String::into_bytes`. -/
def intoBytes (s : String) : Bytes := s.toUTF8.toList

/-- SOURCE: skill_bundle.rs:46-60 -/
def ensureSafeRel (rel : String) : Except SkillBundleError Unit :=
  (validated { files := [{ path := rel }] }).mapError .traversal

/-- The hub; a missing one is no bundle. SOURCE: skill_bundle.rs:79-87 -/
def readHub (shelf : Shelf) (slug : String) : Except SkillBundleError Concept :=
  match shelf.store.get shelf.codec ("/" ++ slug ++ "/skill.md") with
  | .ok hub => .ok hub
  | .error (.notFound _) => .error (.notBundle slug)
  | .error e => .error (.store e)

def markdownBytes (cx : Codec) (c : Concept) : Except SkillBundleError Bytes :=
  (c.toMarkdown cx).map intoBytes |>.mapError fun e => .traversal (.concept e)

/-- One companion. SOURCE: skill_bundle.rs:102-110 -/
def readCompanion (shelf : Shelf) (slug : String) (member : ConceptEntry) :
    Except SkillBundleError SkillBundleFile := do
  let rel := ((stripPrefix member.path ("/" ++ slug ++ "/")).map String.ofList).getD member.path
  ensureSafeRel rel
  let concept ← (shelf.store.get shelf.codec member.path).mapError .store
  let bytes ← markdownBytes shelf.codec concept
  return { relPath := rel, bytes := bytes }

/-- SOURCE: skill_bundle.rs:97-112 -/
def readCompanions (shelf : Shelf) (slug : String) :
    Except SkillBundleError (List SkillBundleFile) :=
  match (groupSkills shelf.store.list).grouped.find? fun g => g.slug = slug with
  | some group => group.members.mapM (readCompanion shelf slug)
  | none => .ok []

/-- One declared payload. SOURCE: skill_bundle.rs:122-135 -/
def readScript (shelf : Shelf) (slug : String) (f : SkillFile) :
    Except SkillBundleError SkillBundleFile := do
  ensureSafeRel f.path
  let bytes ← (shelf.payload ("/" ++ slug ++ "/" ++ f.path)).mapError .io
  if f.md5.any fun expected => expected ≠ shelf.md5Hex bytes then
    throw (.checksumMismatch f.path)
  return { relPath := f.path, bytes := bytes }

/-- The declared files that are no `.md` files. SOURCE: skill_bundle.rs:115-137 -/
def readScripts (shelf : Shelf) (slug : String) (man : SkillManifest) :
    Except SkillBundleError (List SkillBundleFile) :=
  (man.files.filter fun f => !endsWith f.path ".md").mapM (readScript shelf slug)

def byRelPath (files : List SkillBundleFile) : List SkillBundleFile :=
  Grouping.sort SkillBundleFile.relPath files

/-- The first producer of a path wins. SOURCE: skill_bundle.rs:147-155 -/
def emit : List String → List SkillBundleFile → List SkillBundleFile
  | _, [] => []
  | seen, f :: files =>
    if f.relPath ∈ seen then emit seen files else f :: emit (f.relPath :: seen) files

/-- SOURCE: skill_bundle.rs:62-156 -/
def bundleSkillFiles (shelf : Shelf) (slug : String) :
    Except SkillBundleError (List SkillBundleFile) := do
  let hub ← readHub shelf slug
  match hub.frontmatter.skill with
  | some man => (validated man).mapError .traversal
  | none => pure ()
  let companions ← readCompanions shelf slug
  let scripts ← match hub.frontmatter.skill with
    | some man => readScripts shelf slug man
    | none => pure []
  let bytes ← markdownBytes shelf.codec hub
  return { relPath := "SKILL.md", bytes := bytes } ::
    emit ["SKILL.md"] (byRelPath companions ++ byRelPath scripts)

end Mycelium.Model.SkillBundles
