import Mycelium.Model.Concepts
import Mycelium.Model.Outline

/-!
# The catalog of a book

The concepts the librarian writes for a book: one hub that lists the chapters, and one
concept for each chapter that lists its sections. Their links use the anchors of the
outline. The title and the description come from a language model or from the upload.

SOURCE: crates/mycelium-librarian/src/extract.rs
-/

set_option autoImplicit false

namespace Mycelium.Model.Catalog

open Mycelium.Model.Text Mycelium.Model.Concepts Mycelium.Model.Outline

/-- SOURCE: extract.rs:244-251 -/
structure BookCatalog where
  slug : String
  title : String
  description : String
  /-- One for each chapter of the outline. -/
  chapterSummaries : List String
  deriving DecidableEq, Repr

def hubPath (slug : String) : String := "/" ++ slug ++ "/book.md"

def chapterPath (slug anchor : String) : String := "/" ++ slug ++ "/" ++ anchor ++ ".md"

/-- The anchor of a chapter, as text. -/
def anchorText (chapter : ChapterOutline) : String := String.ofList (chapterAnchorId chapter)

/-- The hub's line of a chapter. -/
def hubLine (slug : String) (chapter : ChapterOutline) : String :=
  "- [" ++ String.ofList chapter.title ++ "](" ++ chapterPath slug (anchorText chapter) ++ ")\n"

/-- SOURCE: extract.rs:254-291 -/
def buildHubConcept (catalog : BookCatalog) (outline : List ChapterOutline) : Concept :=
  let about :=
    if catalog.description = "" then
      "Catalog for **" ++ catalog.title ++ "**. Full text lives in the shared library stacks.\n"
    else catalog.description ++ "\n"
  { frontmatter :=
      { conceptType := "Book"
        title := some catalog.title
        description := some ("Book catalog: " ++ catalog.title)
        resource := some ("book://" ++ catalog.slug) }
    body := "# About\n\n" ++ about ++ "\n# Chapters\n\n" ++
      join "" (outline.map (hubLine catalog.slug)) ++
      "\n# Related Concepts\n\nChapters link back to this hub.\n"
    sourcePath := hubPath catalog.slug }

/-- The line of a section in its chapter's concept. -/
def sectionLine (tables : CharTables) (slug : String) (chapter : ChapterOutline)
    (sec : SectionOutline) : String :=
  "- [" ++ String.ofList sec.title ++ "](book://" ++ slug ++ "#" ++
    String.ofList (sectionAnchorId tables chapter sec) ++ ")\n"

/-- `chapter_summaries.get(index - 1)`; an index 0 wraps to one that is not there. -/
def chapterSummary (catalog : BookCatalog) (chapter : ChapterOutline) : String :=
  if chapter.index = 0 then "" else catalog.chapterSummaries[chapter.index - 1]?.getD ""

/-- SOURCE: extract.rs:293-343 -/
def buildChapterConcept (tables : CharTables) (catalog : BookCatalog) (chapter : ChapterOutline) :
    Concept :=
  let summary := chapterSummary catalog chapter
  let uri := "book://" ++ catalog.slug ++ "#" ++ anchorText chapter
  let sections :=
    if chapter.sections = [] then ""
    else "# Sections\n\n" ++
      join "" (chapter.sections.map (sectionLine tables catalog.slug chapter)) ++ "\n"
  { frontmatter :=
      { conceptType := "Chapter"
        title := some (String.ofList chapter.title)
        description := some ("Chapter " ++ toString chapter.index ++ " of " ++ catalog.title)
        resource := some uri
        book := some (hubPath catalog.slug)
        chapterIndex := some chapter.index }
    body := "# " ++ String.ofList chapter.title ++ "\n\n" ++
      (if summary = "" then "" else "# Summary\n\n" ++ summary ++ "\n\n") ++ sections ++
      "# Full passage\n\nRead the full chapter via " ++ "`" ++ uri ++ "`.\n"
    sourcePath := chapterPath catalog.slug (anchorText chapter) }

/-- The concepts one ingest writes. SOURCE: ingest.rs:103-112 -/
def catalogConcepts (tables : CharTables) (catalog : BookCatalog)
    (outline : List ChapterOutline) : List Concept :=
  buildHubConcept catalog outline :: outline.map (buildChapterConcept tables catalog)

end Mycelium.Model.Catalog
