import Mycelium.Model.BookLibrary
import Mycelium.Model.Conversation
import Mycelium.Model.CrossScope
import Mycelium.Model.LinkGraph
import Mycelium.Model.Passages
import Mycelium.Model.SectionPatch

/-!
# The tools of the agent

What a tool call of the librarian agent reads and answers, and the loop that gives the answers
to the model. A `World` is what one call finds: the caller's bundle, the shelf of skills, the
library and its files. Between two calls it changes in any way; the caller's visible books are
fixed for a run.

Answers are kept as data, where the code makes JSON texts of them. Two parts of them are
ghosts: the scope a concept was found in and the book a passage was read from. The trace of a
run and the hot set are left out.

SOURCE: crates/mycelium-librarian/src/agent.rs
-/

set_option autoImplicit false

namespace Mycelium.Model.AgentTools

open Mycelium.Model.Text Mycelium.Model.Concepts Mycelium.Model.Search
open Mycelium.Model.ConceptStore Mycelium.Model.BookLibrary Mycelium.Model.CrossScope
open Mycelium.Model.LinkGraph Mycelium.Model.SectionPatch
open Mycelium.Model.Outline (Str isFence isNumber)
open Mycelium.Model.Passages (extractPassageCapped)
open Mycelium.Model.Conversation (ToolCall)

/-! ## Arguments -/

/-- `serde_json::Value` -/
inductive Json where
  | null
  | bool (value : Bool)
  | number (text : String)
  | string (text : String)
  | array (items : List Json)
  | object (fields : List (String × Json))

def Json.asStr : Json → Option String
  | .string text => some text
  | _ => none

def Json.asBool : Json → Option Bool
  | .bool value => some value
  | _ => none

def Json.asArray : Json → Option (List Json)
  | .array items => some items
  | _ => none

def Json.asObject : Json → Option (List (String × Json))
  | .object fields => some fields
  | _ => none

/-- The fields of an object; the keys are distinct. -/
abbrev Args : Type := List (String × Json)

def Args.get (args : Args) (key : String) : Option Json :=
  (args.find? fun field => field.1 = key).map Prod.snd

/-- A text, or none. -/
def Args.getStr (args : Args) (key : String) : Option String := (args.get key).bind Json.asStr

/-- A text, empty where there is none. -/
def Args.str (args : Args) (key : String) : String := (args.getStr key).getD ""

/-- SOURCE: agent.rs:906-910 -/
def includeInactiveArg (args : Args) : Bool :=
  ((args.get "include_inactive").bind Json.asBool).getD false

/-! ## Books -/

/-- `str::split_once`. -/
def splitOnce (p : Str) : Str → Option (Str × Str)
  | [] => if p = [] then some ([], []) else none
  | c :: cs =>
    if p.isPrefixOf (c :: cs) then some ([], (c :: cs).drop p.length)
    else (splitOnce p cs).map fun parts => (c :: parts.1, parts.2)

/-- The slug and the anchor of `book://<slug>#<anchor>`. SOURCE: agent.rs:27-48 -/
def parseBookUri (uri : String) : Option (String × String) :=
  (stripPrefix uri "book://").bind fun rest =>
    let parts := (splitOnce ['#'] rest).getD (rest, [])
    if parts.1 = [] ∨ parts.1 = ['.'] ∨ parts.1 = ['.', '.'] ∨ '/' ∈ parts.1 ∨ '\\' ∈ parts.1 ∨
        Char.ofNat 0 ∈ parts.1 then none
    else some (String.ofList parts.1, String.ofList parts.2)

/-- `ch-<n>-<slug>` or `ch-<n>-<m>-<slug>`. SOURCE: agent.rs:75-83 -/
def isChapterAnchor (anchor : Str) : Bool :=
  match splitBy (· == '-') anchor with
  | ch :: n :: third :: rest =>
    ch = ['c', 'h'] && isNumber n && (rest ≠ [] || !third.all isAsciiDigit)
  | _ => false

/-- The line of a heading that has the id of a chapter. SOURCE: agent.rs:66-87 -/
def anchorLine (t : Str) : Option Str :=
  match t with
  | '#' :: heading =>
    match splitOnce ['{', '#'] (trimStart heading) with
    | some (title, rest) =>
      match splitOnce ['}'] rest with
      | some (anchor, _) =>
        if isChapterAnchor anchor then
          some (['-', ' '] ++ anchor ++ [' ', '—', ' '] ++ trim title)
        else none
      | none => none
    | none => none
  | _ => none

/-- The lines of chapters, as long as there is room. SOURCE: agent.rs:54-91 -/
def anchorLines : ℕ → Bool → List Str → List Str
  | 0, _, _ => []
  | _, _, [] => []
  | room + 1, inFence, line :: rest =>
    let t := trimStart line
    if isFence t then anchorLines (room + 1) (!inFence) rest
    else if inFence then anchorLines (room + 1) inFence rest
    else
      match anchorLine t with
      | some found => found :: anchorLines room inFence rest
      | none => anchorLines (room + 1) inFence rest

/-- SOURCE: agent.rs:49-96 -/
def listChapterAnchors (text : String) : String :=
  let lines := anchorLines 120 false (textLines text.toList)
  if lines = [] then "(none found)" else join "\n" (lines.map String.ofList)

/-- SOURCE: library.rs:6 -/
def readPassageMaxChars : ℕ := 128 * 1024

/-! ## What a call finds -/

/-- The caller's own store: what a search finds of it and what its calls return. -/
structure Bundle where
  shelf : Shelf
  get : String → Except StoreError Concept
  list : Except StoreError (List ConceptEntry)
  put : Concept → Except StoreError Unit
  delete : String → Except StoreError Unit

/-- The catalog of the library and the stack texts are files of one repository. -/
structure World (K : Type) (cx : Codec) where
  composer : Composer K
  parseJson : String → Except String Json
  bundle : Bundle
  skills : Option Shelf
  files : Store
  library : Option Shelf
  readsStackText : Bool
  embeddings : Option EmbeddingsClient
  library_get : ∀ cs ∈ library, ∀ path, cs.get path = (files.get cx path).toOption

/-- SOURCE: agent.rs:542-552 -/
inductive AgentError where
  | store (e : StoreError)
  | llm
  | stepCapExceeded
  | badToolArgs (name reason : String)
  deriving DecidableEq, Repr

/-- SOURCE: agent.rs:513-527 -/
structure QueryHit (K : Type) where
  scope : Scope
  path : String
  title : String
  description : Option String
  snippet : String
  score : K
  timestamp : Option String
  confirmedAt : Option String
  status : Option String
  supersededBy : Option String

/-- The answer of a tool. -/
inductive Reply (K : Type) where
  | hits (hits : List (QueryHit K))
  | noHits (layout : String)
  | concept (found : Scope) (path markdown : String)
  | layout (layout : String)
  | lint (concepts links : ℕ) (orphans brokenLinks : List String)
  | passage (book resource passage : String)
  | passageError (resource error : String)
  | passageFailed (resource : String) (e : IngestError)
  | written (path : String)
  | patched (path : String)
  | deleted (path : String)
  | error (e : AgentError)

section Tools

variable {K : Type} [Field K] [LinearOrder K] {cx : Codec}

/-- The scopes of a caller. SOURCE: agent.rs:97-122 -/
def World.scopes (w : World K cx) (visible : Option (List String)) : AgentScopes where
  skills := w.skills
  library := w.library
  visibleSlugs := visible

/-! ## Searching and reading -/

/-- A hit with the lifecycle fields of its concept. SOURCE: agent.rs:491-510, 979-1010 -/
def World.queryHit (w : World K cx) (hit : ScopedHit K) : QueryHit K :=
  let fields : Option Frontmatter :=
    (match hit.1 with
      | .user => (w.bundle.get hit.2.conceptPath).toOption
      | .skills => w.skills.bind fun cs => cs.get hit.2.conceptPath
      | .library => w.library.bind fun cs => cs.get hit.2.conceptPath).map
        Concept.frontmatter
  { scope := hit.1
    path := hit.2.conceptPath
    title := hit.2.title
    description := fields.bind Frontmatter.description
    snippet := hit.2.snippet
    score := hit.2.score
    timestamp := fields.bind Frontmatter.timestamp
    confirmedAt := fields.bind Frontmatter.confirmedAt
    status := fields.bind Frontmatter.status
    supersededBy := fields.bind Frontmatter.supersededBy }

/-- SOURCE: agent.rs:1480-1494 -/
def formatTree (bundle : Bundle) : Except AgentError String := do
  let entries ← bundle.list.mapError .store
  let sorted := entries.insertionSort fun a b => a.path ≤ b.path
  return join "\n" ("/" :: sorted.map fun e =>
    "  " ++ e.path ++ "  [" ++ e.conceptType ++ "] " ++ e.title)

/-- SOURCE: agent.rs:941-963 -/
def queryOf (args : Args) : SearchQuery where
  terms := ((splitWhitespace (args.str "query").toList).take 32).map String.ofList
  statusFilter := if includeInactiveArg args then .all else .activeOnly

/-- The mode of a query is the default one. SOURCE: agent.rs:940-1031 -/
def searchKnowledge (w : World K cx) (visible : Option (List String)) (args : Args) :
    Except AgentError (Reply K) :=
  let allHits := crossScopeHits w.composer (some w.bundle.shelf) (w.scopes visible) .auto
    (queryOf args) 10 w.embeddings
  if allHits.isEmpty then (formatTree w.bundle).map .noHits
  else .ok (.hits (allHits.map w.queryHit))

/-- The concept at a path, of the bundle, the skills or the library. SOURCE: agent.rs:1037-1066 -/
def findConcept (w : World K cx) (visible : Option (List String)) (path : String) :
    Except AgentError (Scope × Concept) :=
  match w.bundle.get path with
  | .ok c => .ok (.user, c)
  | .error _ =>
    match w.skills.bind fun cs => cs.get path with
    | some c => .ok (.skills, c)
    | none =>
      if libraryPathVisible (w.scopes visible) path then
        match w.library.bind fun cs => cs.get path with
        | some c => .ok (.library, c)
        | none => .error (.store (.notFound path))
      else .error (.store (.notFound path))

/-- SOURCE: agent.rs:1032-1076 -/
def readConcept (w : World K cx) (visible : Option (List String)) (args : Args) :
    Except AgentError (Reply K) :=
  match findConcept w visible (args.str "path") with
  | .error e => .error e
  | .ok (found, concept) =>
    match concept.toMarkdown cx with
    | .error e => .error (.store (.parse e))
    | .ok markdown => .ok (.concept found concept.sourcePath markdown)

/-- SOURCE: agent.rs:1081-1110 -/
def lintKnowledge (w : World K cx) : Except AgentError (Reply K) := do
  let entries ← w.bundle.list.mapError .store
  let concepts := entries.filterMap fun e => (w.bundle.get e.path).toOption
  let graph := buildGraph concepts
  return .lint graph.nodes.size graph.edges.length graph.orphans
    (graph.brokenLinks.map fun b => b.source ++ " → " ++ b.target)

/-- What is said of a book whose text was read. SOURCE: agent.rs:1163-1206 -/
def passageOf (slug anchor text : String) : String :=
  if anchor = "" then
    "No anchor given. Chapter anchors in this book:\n" ++ listChapterAnchors text
  else
    match extractPassageCapped slug.toList anchor.toList text.toList readPassageMaxChars with
    | .ok p => String.ofList p.text
    | .error _ => "No passage for anchor \"" ++ anchor ++ "\" in book \"" ++ slug ++
        "\". Chapter anchors in this book:\n" ++ listChapterAnchors text

/-- SOURCE: agent.rs:1111-1215 -/
def readPassage (w : World K cx) (visible : Option (List String)) (args : Args) :
    Except AgentError (Reply K) :=
  let resource := String.ofList (trim (args.str "resource").toList)
  if resource = "" then .error (.badToolArgs "read_passage" "resource is required")
  else
    match parseBookUri resource with
    | none => .ok (.passageError resource
        "Not a book:// URI — expected book://<slug>#<anchor>, taken from a concept's `resource` field.")
    | some (slug, anchor) =>
      if !w.readsStackText then .ok (.passageError resource
        "No library configured on this instance; cannot read passages.")
      else if (visible.map fun slugs => decide (slug ∈ slugs)).getD true then
        match readStackText w.files slug with
        | .ok text => .ok (.passage slug resource (passageOf slug anchor text))
        | .error e => .ok (.passageFailed resource e)
      else .ok (.passageError resource "Book not found in library.")

/-! ## Writing -/

/-- The texts of an array. -/
def strings (value : Json) : List String := (value.asArray.getD []).filterMap Json.asStr

/-- The concept of a `write_concept` call. SOURCE: agent.rs:1223-1267 -/
def writtenConcept (args : Args) : Concept :=
  let fm : Args := ((args.get "frontmatter").bind Json.asObject).getD []
  let kind := String.ofList (trim (fm.str "type").toList)
  { frontmatter :=
      { conceptType := if kind = "" then "Note" else kind
        title := fm.getStr "title"
        description := fm.getStr "description"
        tags := ((fm.get "tags").map strings).getD [] }
    body := args.str "body"
    sourcePath := args.str "path" }

/-- One key of the frontmatter; `null` deletes. SOURCE: agent.rs:1290-1324 -/
def patchField (fm : Frontmatter) (field : String × Json) : Frontmatter :=
  if field.1 = "title" then { fm with title := field.2.asStr }
  else if field.1 = "description" then { fm with description := field.2.asStr }
  else if field.1 = "resource" then { fm with resource := field.2.asStr }
  else if field.1 = "status" then { fm with status := field.2.asStr }
  else if field.1 = "superseded_by" then { fm with supersededBy := field.2.asStr }
  else if field.1 = "valid_to" then { fm with validTo := field.2.asStr }
  else if field.1 = "tags" then { fm with tags := strings field.2 }
  else fm

/-- `body` before `replace_section` before `replace_body`. SOURCE: agent.rs:1326-1360 -/
def patchBody (body : String) (args : Args) : String :=
  match (args.getStr "body").filter (· ≠ "") with
  | some new => new
  | none =>
    match (args.get "replace_section").bind Json.asObject with
    | some sec => String.ofList
        (replaceSection body.toList (Args.str sec "heading").toList (Args.str sec "content").toList)
    | none => (args.getStr "replace_body").getD body

/-- The concept of a `patch_concept` call. -/
def patchedConcept (concept : Concept) (args : Args) : Concept :=
  let fields : Args := ((args.get "frontmatter").bind Json.asObject).getD []
  { concept with
    frontmatter := fields.foldl patchField concept.frontmatter
    body := patchBody concept.body args }

/-- The tools that write, with the path that was written. SOURCE: agent.rs:1216-1384 -/
def writeTool (bundle : Bundle) (name : String) (args : Args) :
    Except AgentError (Reply K × Option String) := do
  if name = "write_concept" then
    let concept := writtenConcept args
    (bundle.put concept).mapError .store
    return (.written concept.sourcePath, some concept.sourcePath)
  else if name = "patch_concept" then
    let concept ← (bundle.get (args.str "path")).mapError .store
    (bundle.put (patchedConcept concept args)).mapError .store
    return (.patched concept.sourcePath, some concept.sourcePath)
  else
    (bundle.delete (args.str "path")).mapError .store
    return (.deleted (args.str "path"), some (args.str "path"))

def isWriteTool (name : String) : Bool :=
  name = "write_concept" || name = "patch_concept" || name = "delete_concept"

/-! ## The loop -/

/-- SOURCE: agent.rs:912-1389 -/
def executeTool (w : World K cx) (visible : Option (List String)) (allowWrites : Bool)
    (call : ToolCall) : Except AgentError (Reply K × Option String) :=
  let name := call.functionName
  match w.parseJson call.functionArguments with
  | .error reason => .error (.badToolArgs name reason)
  | .ok (.object args) =>
    let unwritten (reply : Except AgentError (Reply K)) := reply.map fun r => (r, none)
    if name = "search_knowledge" then unwritten (searchKnowledge w visible args)
    else if name = "read_concept" then unwritten (readConcept w visible args)
    else if name = "list_directory" then unwritten ((formatTree w.bundle).map .layout)
    else if name = "lint_knowledge" then unwritten (lintKnowledge w)
    else if name = "read_passage" then unwritten (readPassage w visible args)
    else if isWriteTool name then
      if allowWrites then writeTool w.bundle name args
      else .error (.badToolArgs name "write tool in read-only mode")
    else .error (.badToolArgs name "unknown tool")
  | .ok _ => .error (.badToolArgs name "arguments must be a JSON object")

inductive Message where
  | user (text : String)
  | assistant (text : String)
  deriving DecidableEq, Repr

inductive Turn (K : Type) where
  | message (m : Message)
  | assistantToolCalls (calls : List ToolCall)
  | toolResult (callId : String) (result : Reply K)

structure Run (K : Type) where
  conversation : List (Turn K)
  filesChanged : List String

/-- What the model answers to a conversation, with what each of its calls will find. -/
inductive StepOutput (K : Type) (cx : Codec) where
  | text (answer : String)
  | toolCalls (calls : List (World K cx × ToolCall))

/-- A call whose result goes to the model, as does its error. SOURCE: agent.rs:858-893 -/
def callTool (visible : Option (List String)) (allowWrites : Bool) (run : Run K)
    (call : World K cx × ToolCall) : Run K :=
  match executeTool call.1 visible allowWrites call.2 with
  | .ok (reply, written) =>
    { conversation := run.conversation ++ [.toolResult call.2.id reply]
      filesChanged := run.filesChanged ++ written.toList }
  | .error e =>
    { run with conversation := run.conversation ++ [.toolResult call.2.id (.error e)] }

/-- The rounds of a run; where the outputs end the backend has failed.
SOURCE: agent.rs:707-790 (chat), 821-904 -/
def rounds (visible : Option (List String)) (allowWrites : Bool) :
    ℕ → Run K → List (StepOutput K cx) → Run K × Except AgentError String
  | 0, run, _ => (run, .error .stepCapExceeded)
  | _ + 1, run, [] => (run, .error .llm)
  | _ + 1, run, .text answer :: _ => (run, .ok answer)
  | n + 1, run, .toolCalls calls :: outputs =>
    let asked :=
      { run with
        conversation := run.conversation ++ [.assistantToolCalls (calls.map Prod.snd)] }
    rounds visible allowWrites n (calls.foldl (callTool visible allowWrites) asked) outputs

/-- A run over the messages of a chat or over a prompt. -/
def agentLoop (visible : Option (List String)) (allowWrites : Bool) (maxSteps : ℕ)
    (messages : List Message) (outputs : List (StepOutput K cx)) :
    Run K × Except AgentError String :=
  rounds visible allowWrites maxSteps ⟨messages.map .message, []⟩ outputs

end Tools

end Mycelium.Model.AgentTools
