import Mycelium.Analysis.BookIsolation
import Mycelium.Analysis.ScopeFusion
import Mycelium.Model.AgentTools

/-!
# Books that a caller may not see

A tool judges a path of the library by its first segment, and a book URI by its slug. The
catalog of a book is in a directory of its slug, but the stack texts of all books are files
of `/library/`: a caller who may see a book with the slug `library` reads the text of any book
that parses as a concept (`stack_text_read_as_concept`), and where that book is hidden, the
stack text of any other is a file of its directory.

1. *One call.* What a call tells of the library is of a visible path or of the stack text of a
   visible book (`allowed_executeTool`, `segment_crossScopeHits`).
2. *A run.* So are all results in a conversation (`allowed_agentLoop`).
3. *Hidden books.* Such a file is of no hidden book, but for the slug `library`
   (`not_pathOf_of_allowed`), and for that slug it can be (`library_read`, `passage_read`).
-/

set_option autoImplicit false

namespace Mycelium.Analysis.HiddenBooks

open Mycelium.Model.Text Mycelium.Model.Outline Mycelium.Model.Concepts Mycelium.Model.Search
open Mycelium.Model.ConceptStore Mycelium.Model.BookLibrary Mycelium.Model.CrossScope
open Mycelium.Model.AgentTools
open Mycelium.Model.Conversation (ToolCall)
open Mycelium.Analysis.LibraryPaths Mycelium.Analysis.ScopeFusion
open Mycelium.Analysis.CallCompletion (read_valid)
open Mycelium.Analysis.ConceptRoundTrip (parse_eq_ok noteCodec noteYaml)
open Mycelium.Analysis.BookIsolation (slugBook slugLibrary)
open Mycelium.Analysis.LibraryShelf (stackPathFor_inj)
open Mycelium.Analysis.PassageAnchors (asciiTables)

/-! ## The property and the condition -/

/-- The path is one of a book: its stack text, a file of its directory, or the index of the
root, which has a line for every directory. -/
def PathOf (slug path : String) : Prop :=
  path = stackPathFor slug ∨ FromBook slug path ∨ path = "/index.md"

/-- The files of the library that an answer tells of. -/
def libraryPaths {K : Type} : Reply K → List String
  | .hits hits => (hits.filter fun hit => hit.scope = .library).map QueryHit.path
  | .concept .library path _ => [path]
  | .passage book _ _ => [stackPathFor book]
  | _ => []

/-- The result of a tool tells of these files only. -/
def TellsOnly {K : Type} (P : String → Prop) : Turn K → Prop
  | .toolResult _ reply => ∀ path ∈ libraryPaths reply, P path
  | _ => True

/-- In no run and in no search, whatever the mode, is a caller told of a file of the book. -/
structure Hidden (K : Type) [Field K] [LinearOrder K] (cx : Codec) (visible : List String)
    (slug : String) : Prop where
  runs : ∀ (allowWrites : Bool) (maxSteps : ℕ) (messages : List Message)
    (outputs : List (StepOutput K cx)),
    ∀ turn ∈ (agentLoop (some visible) allowWrites maxSteps messages outputs).1.conversation,
      TellsOnly (fun path => ¬ PathOf slug path) turn
  hits : ∀ (w : World K cx) (store : Option Shelf) (mode : SearchMode) (q : SearchQuery) (cap : ℕ),
    ∀ hit ∈ crossScopeHits w.composer store (w.scopes (some visible)) mode q cap w.embeddings,
      hit.1 = .library → ¬ PathOf slug hit.2.conceptPath

/-- What `char::to_lowercase` gives for a letter or a digit: no character that a path or a URI
has a use for, and no whitespace. -/
def LetterTables (tables : CharTables) : Prop :=
  ∀ c, tables.isAlphanumeric c = true → ∀ d ∈ tables.toLowercase c,
    d ∉ ['/', '\\', '#', '.', Char.ofNat 0] ∧ isWhitespace d = false

/-- A text that is read as a concept wherever it is, and printed again. -/
def Readable (cx : Codec) (text : String) : Prop :=
  ∀ path, ∃ c markdown, Concept.parse cx path text = .ok c ∧ c.toMarkdown cx = .ok markdown

/-! ## Slugs -/

structure PlainSlug (slug : String) : Prop where
  ne : slug ≠ ""
  plain : ∀ d ∈ slug.toList, d ∉ ['/', '\\', '#', '.', Char.ofNat 0] ∧ isWhitespace d = false

theorem plainSlug_of_admitted {tables : CharTables} (htables : LetterTables tables) {slug : String}
    (h : Admitted tables slug) : PlainSlug slug := by
  obtain ⟨hne, field, hslug⟩ := h
  refine ⟨hne, ?_⟩
  rw [hslug]
  exact forall_mem_slugify (by decide) htables field

theorem PlainSlug.not_mem {slug : String} (h : PlainSlug slug) {d : Char}
    (hd : d ∈ ['/', '\\', '#', '.', Char.ofNat 0]) : d ∉ slug.toList :=
  fun hmem => (h.plain d hmem).1 hd

theorem PlainSlug.fromBook {slug : String} (h : PlainSlug slug) (rest : String) :
    FromBook slug ("/" ++ slug ++ "/" ++ rest) :=
  ⟨h.ne, h.not_mem (by decide), rest, rfl⟩

/-- The stack text of a book is in the directory of the book `library`. -/
theorem fromBook_stackPathFor (slug : String) : FromBook "library" (stackPathFor slug) := by
  refine ⟨by decide, by decide, slug ++ ".md", ?_⟩
  rw [stackPathFor, String.append_assoc]
  rfl

/-- A path determines its book. -/
theorem slug_of_fromBook {s t path : String} (hs : FromBook s path) (ht : FromBook t path) :
    s = t :=
  String.toList_injective ((segment_of_fromBook hs).symm.trans (segment_of_fromBook ht))

/-! ## What a call may tell -/

/-- A file that a caller may be told of: its first segment is a visible slug, or it is the stack
text of a visible book. -/
def Allowed (visible : List String) (path : String) : Prop :=
  String.ofList ((path.toList.dropWhile (· = '/')).takeWhile (· ≠ '/')) ∈ visible ∨
    ∃ s ∈ visible, path = stackPathFor s

theorem libraryPathVisible_iff {scopes : AgentScopes} {visible : List String} {path : String}
    (hslugs : scopes.visibleSlugs = some visible) : libraryPathVisible scopes path = true ↔
      String.ofList ((path.toList.dropWhile (· = '/')).takeWhile (· ≠ '/')) ∈ visible := by
  simp only [libraryPathVisible, hslugs, decide_eq_true_eq]

theorem sourcePath_of_get {cx : Codec} {s : Store} {path : String} {c : Concept}
    (h : (s.get cx path).toOption = some c) : c.sourcePath = path := by
  unfold Store.get at h
  split at h
  · cases h
  · cases h
  · rename_i markdown hread
    cases hparse : Concept.parse cx path markdown with
    | error e =>
      rw [hparse] at h
      cases h
    | ok c' =>
      rw [hparse] at h
      cases h
      exact (parse_eq_ok hparse).1

section Calls

variable {K : Type} [Field K] [LinearOrder K] {cx : Codec}

/-- The hits in the library are of visible paths, in every mode. -/
theorem visible_crossScopeHits (composer : Composer K) (store : Option Shelf) (scopes : AgentScopes)
    (mode : SearchMode) (q : SearchQuery) (cap : ℕ) (embedding : Option EmbeddingsClient) :
    ∀ hit ∈ crossScopeHits composer store scopes mode q cap embedding, hit.1 = .library →
      libraryPathVisible scopes hit.2.conceptPath = true := by
  intro hit hhit htag
  unfold crossScopeHits at hhit
  split at hhit
  · cases hhit
  · rename_i fuse hfuse
    have hall (h : ScopedHit K)
        (hh : h ∈ ((allHits composer store scopes q fuse).insertionSort hitsBefore).take cap)
        (ht : h.1 = .library) : libraryPathVisible scopes h.2.conceptPath = true := by
      have hin := (List.perm_insertionSort hitsBefore _).mem_iff.mp (List.mem_of_mem_take hh)
      exact visible_allHits composer store scopes q fuse h hin ht
    dsimp only at hhit
    split at hhit
    · exact hall hit hhit htag
    · obtain ⟨h, hh, rfl⟩ := List.mem_map.mp hhit
      obtain ⟨hscope, hpath⟩ := Prod.ext_iff.mp (enrich_key store scopes h).1
      change (enrich store scopes h).1 = h.1 at hscope
      change (enrich store scopes h).2.conceptPath = h.2.conceptPath at hpath
      rw [hpath]
      exact hall h hh (hscope ▸ htag)

theorem ok_of_map {ε α β : Type} {f : α → β} {x : Except ε α} {b : β} (h : x.map f = .ok b) :
    ∃ a, x = .ok a ∧ b = f a := by
  cases x with
  | error e => cases h
  | ok a =>
    cases h
    exact ⟨a, rfl, rfl⟩

theorem allowed_searchKnowledge {w : World K cx} {visible : List String} {args : Args}
    {reply : Reply K} (h : searchKnowledge w (some visible) args = .ok reply) :
    ∀ path ∈ libraryPaths reply, Allowed visible path := by
  unfold searchKnowledge at h
  dsimp only at h
  split at h
  · obtain ⟨tree, -, rfl⟩ := ok_of_map h
    intro path hpath
    cases hpath
  · cases h
    intro path hpath
    obtain ⟨qhit, hqhit, rfl⟩ := List.mem_map.mp hpath
    obtain ⟨hmem, htag⟩ := List.mem_filter.mp hqhit
    obtain ⟨hit, hhit, rfl⟩ := List.mem_map.mp hmem
    have hvisible := visible_crossScopeHits _ _ _ _ _ _ _ hit hhit (of_decide_eq_true htag)
    exact .inl ((libraryPathVisible_iff rfl).mp hvisible)

omit [Field K] [LinearOrder K] in
/-- A concept found in the library is at the path that was asked for, which is visible. -/
theorem visible_findConcept {w : World K cx} {visible : Option (List String)} {path : String}
    {concept : Concept} (h : findConcept w visible path = .ok (.library, concept)) :
    libraryPathVisible (w.scopes visible) concept.sourcePath = true := by
  unfold findConcept at h
  split at h
  · cases h
  · split at h
    · cases h
    · split at h
      · rename_i hvisible
        split at h
        · rename_i c hget
          cases h
          obtain ⟨cs, hcs, hc⟩ := Option.bind_eq_some_iff.mp hget
          rw [w.library_get cs hcs] at hc
          rw [sourcePath_of_get hc]
          exact hvisible
        · cases h
      · cases h

omit [Field K] [LinearOrder K] in
theorem allowed_readConcept {w : World K cx} {visible : List String} {args : Args}
    {reply : Reply K} (h : readConcept w (some visible) args = .ok reply) :
    ∀ path ∈ libraryPaths reply, Allowed visible path := by
  unfold readConcept at h
  split at h
  · cases h
  · rename_i found concept hfound
    split at h
    · cases h
    · cases h
      cases found with
      | library =>
        intro path hpath
        rw [List.mem_singleton.mp hpath]
        exact .inl ((libraryPathVisible_iff rfl).mp (visible_findConcept hfound))
      | user =>
        intro path hpath
        cases hpath
      | skills =>
        intro path hpath
        cases hpath

omit [Field K] [LinearOrder K] in
theorem allowed_readPassage {w : World K cx} {visible : List String} {args : Args}
    {reply : Reply K} (h : readPassage w (some visible) args = .ok reply) :
    ∀ path ∈ libraryPaths reply, Allowed visible path := by
  unfold readPassage at h
  dsimp only at h
  split at h
  · cases h
  · split at h
    · cases h
      intro path hpath
      cases hpath
    · rename_i slug anchor hparse
      split at h
      · cases h
        intro path hpath
        cases hpath
      · split at h
        · rename_i hslug
          split at h
          · cases h
            intro path hpath
            rw [List.mem_singleton.mp hpath]
            exact .inr ⟨slug, of_decide_eq_true hslug, rfl⟩
          · cases h
            intro path hpath
            cases hpath
        · cases h
          intro path hpath
          cases hpath

omit [Field K] [LinearOrder K] in
theorem paths_lintKnowledge {w : World K cx} {reply : Reply K}
    (h : lintKnowledge w = .ok reply) : libraryPaths reply = [] := by
  unfold lintKnowledge at h
  simp only [bind, Except.bind] at h
  split at h
  · cases h
  · cases h
    rfl

omit [Field K] [LinearOrder K] in
theorem paths_writeTool {bundle : Bundle} {name : String} {args : Args} {reply : Reply K}
    {written : Option String} (h : writeTool bundle name args = .ok (reply, written)) :
    libraryPaths reply = [] := by
  unfold writeTool at h
  simp only [bind, Except.bind] at h
  split at h
  · split at h
    · cases h
    · cases h
      rfl
  · split at h
    · split at h
      · cases h
      · split at h
        · cases h
        · cases h
          rfl
    · split at h
      · cases h
      · cases h
        rfl

/-- **One call**: what it tells of the library it may tell. -/
theorem allowed_executeTool {w : World K cx} {visible : List String} {allowWrites : Bool}
    {call : ToolCall} {reply : Reply K} {written : Option String}
    (h : executeTool w (some visible) allowWrites call = .ok (reply, written)) :
    ∀ path ∈ libraryPaths reply, Allowed visible path := by
  unfold executeTool at h
  dsimp only at h
  split at h
  · cases h
  · rename_i args hargs
    split at h
    · obtain ⟨reply, hreply, heq⟩ := ok_of_map h
      cases heq
      exact allowed_searchKnowledge hreply
    split at h
    · obtain ⟨reply, hreply, heq⟩ := ok_of_map h
      cases heq
      exact allowed_readConcept hreply
    split at h
    · obtain ⟨reply, hreply, heq⟩ := ok_of_map h
      cases heq
      obtain ⟨tree, -, rfl⟩ := ok_of_map hreply
      intro path hpath
      cases hpath
    split at h
    · obtain ⟨reply, hreply, heq⟩ := ok_of_map h
      cases heq
      rw [paths_lintKnowledge hreply]
      intro path hpath
      cases hpath
    split at h
    · obtain ⟨reply, hreply, heq⟩ := ok_of_map h
      cases heq
      exact allowed_readPassage hreply
    split at h
    · split at h
      · rw [paths_writeTool h]
        intro path hpath
        cases hpath
      · cases h
    · cases h
  · cases h

/-! ## What a run may tell -/

theorem allowed_callTool {visible : List String} {allowWrites : Bool} {run : Run K}
    {call : World K cx × ToolCall}
    (h : ∀ turn ∈ run.conversation, TellsOnly (Allowed visible) turn) :
    ∀ turn ∈ (callTool (some visible) allowWrites run call).conversation,
      TellsOnly (Allowed visible) turn := by
  intro turn hturn
  unfold callTool at hturn
  split at hturn
  · rename_i reply written hreply
    rcases List.mem_append.mp hturn with hold | hnew
    · exact h turn hold
    · rw [List.mem_singleton.mp hnew]
      exact allowed_executeTool hreply
  · rcases List.mem_append.mp hturn with hold | hnew
    · exact h turn hold
    · rw [List.mem_singleton.mp hnew]
      intro path hpath
      cases hpath

/-- **A run**: by induction on its rounds, and in a round on its calls. -/
theorem allowed_rounds {visible : List String} {allowWrites : Bool} (n : ℕ) (run : Run K)
    (outputs : List (StepOutput K cx))
    (h : ∀ turn ∈ run.conversation, TellsOnly (Allowed visible) turn) :
    ∀ turn ∈ (rounds (some visible) allowWrites n run outputs).1.conversation,
      TellsOnly (Allowed visible) turn := by
  induction n generalizing run outputs with
  | zero => exact h
  | succ n ih =>
    cases outputs with
    | nil => exact h
    | cons output outputs =>
      cases output with
      | text answer => exact h
      | toolCalls calls =>
        apply ih
        have hfold (calls : List (World K cx × ToolCall)) (run : Run K)
            (h : ∀ turn ∈ run.conversation, TellsOnly (Allowed visible) turn) :
            ∀ turn ∈ (calls.foldl (callTool (some visible) allowWrites) run).conversation,
              TellsOnly (Allowed visible) turn := by
          induction calls generalizing run with
          | nil => exact h
          | cons call calls ihc => exact ihc _ (allowed_callTool h)
        apply hfold
        intro turn hturn
        rcases List.mem_append.mp hturn with hold | hnew
        · exact h turn hold
        · rw [List.mem_singleton.mp hnew]
          trivial

theorem allowed_agentLoop {visible : List String} (allowWrites : Bool) (maxSteps : ℕ)
    (messages : List Message) (outputs : List (StepOutput K cx)) :
    ∀ turn ∈ (agentLoop (some visible) allowWrites maxSteps messages outputs).1.conversation,
      TellsOnly (Allowed visible) turn := by
  apply allowed_rounds
  intro turn hturn
  obtain ⟨m, -, rfl⟩ := List.mem_map.mp hturn
  trivial

end Calls

/-! ## Hidden books -/

/-- What a caller may be told of is no file of a hidden book, when no visible slug is `library`
and the hidden one is not or no book is visible. -/
theorem not_pathOf_of_allowed {visible : List String} {slug path : String}
    (hvisible : ∀ s ∈ visible, PlainSlug s) (hhidden : slug ∉ visible)
    (hlibrary : "library" ∉ visible) (halone : slug = "library" → visible = [])
    (h : Allowed visible path) : ¬ PathOf slug path := by
  rintro (rfl | hbook | rfl)
  · obtain hsegment | ⟨s, hs, heq⟩ := h
    · rw [segment_of_fromBook (fromBook_stackPathFor slug), String.ofList_toList] at hsegment
      exact hlibrary hsegment
    · exact hhidden (stackPathFor_inj heq ▸ hs)
  · obtain hsegment | ⟨s, hs, rfl⟩ := h
    · rw [segment_of_fromBook hbook, String.ofList_toList] at hsegment
      exact hhidden hsegment
    · have hempty := halone (slug_of_fromBook hbook (fromBook_stackPathFor s))
      rw [hempty] at hs
      cases hs
  · obtain hsegment | ⟨s, hs, heq⟩ := h
    · have hdot : '.' ∈ (String.ofList ((("/index.md".toList).dropWhile (· = '/')).takeWhile
          (· ≠ '/'))).toList := by decide
      exact (hvisible _ hsegment).not_mem (by decide) hdot
    · have hsplit := congrArg String.toList heq
      rw [stackPathFor, String.toList_append, String.toList_append] at hsplit
      cases hsplit

/-! ## What leaks -/

/-- A shelf with nothing to be found by a search. -/
def shelfOf (get : String → Option Concept) : Shelf where
  index := SearchRefinement.exampleIndex
  tables := ⟨[], []⟩
  searchOk := true
  cacheScope := .ok []
  pathToken := id
  files := .ok []
  get := get
  docs_key := List.nodup_nil
  rows_key := by
    rintro rows ⟨⟩
    exact List.nodup_nil

/-- A bundle without concepts. -/
def emptyBundle : Bundle where
  shelf := shelfOf fun _ => none
  get path := .error (.notFound path)
  list := .ok []
  put _ := .ok ()
  delete path := .error (.notFound path)

/-- A call with one argument. -/
def callOf (name key value : String) : ToolCall where
  id := "1"
  functionName := name
  functionArguments := "\x7b\"" ++ key ++ "\":\"" ++ value ++ "\"\x7d"

/-- A library with one file. -/
def oneFile (path text : String) : Store :=
  { Store.empty "global:library" with files := fun p => if p = path then some text else none }

/-- The world of a call with one argument over a library with one file. -/
def oneFileWorld (K : Type) [Field K] (cx : Codec) (path text name key value : String) :
    World K cx where
  composer := ⟨id, id, fun _ _ => 0, ⟨60, 1, 1⟩, .disabled⟩
  parseJson arguments :=
    if arguments = (callOf name key value).functionArguments then
      .ok (.object [(key, .string value)])
    else .error "expected value"
  bundle := emptyBundle
  skills := none
  files := oneFile path text
  library := some (shelfOf fun p => ((oneFile path text).get cx p).toOption)
  readsStackText := true
  embeddings := none
  library_get := by
    rintro cs ⟨⟩ p
    rfl

section Leaks

variable {K : Type} [Field K] [LinearOrder K] {cx : Codec}

theorem result_mem {w : World K cx} {visible : Option (List String)} {call : ToolCall}
    {reply : Reply K} {written : Option String}
    (h : executeTool w visible false call = .ok (reply, written)) :
    Turn.toolResult call.id reply ∈
      (agentLoop visible false 1 [] [.toolCalls [(w, call)]]).1.conversation := by
  simp [agentLoop, rounds, callTool, h]

theorem not_hidden_of_reply {w : World K cx} {visible : List String} {call : ToolCall}
    {reply : Reply K} {written : Option String} {slug path : String}
    (h : executeTool w (some visible) false call = .ok (reply, written))
    (hpath : path ∈ libraryPaths reply) (hbook : PathOf slug path) :
    ¬ Hidden K cx visible slug := by
  intro hhidden
  exact hhidden.runs false 1 [] _ _ (result_mem h) path hpath hbook

theorem executeTool_readConcept {w : World K cx} {visible : Option (List String)}
    {allowWrites : Bool} {call : ToolCall} {args : Args}
    (hname : call.functionName = "read_concept")
    (hargs : w.parseJson call.functionArguments = .ok (.object args)) :
    executeTool w visible allowWrites call =
      (readConcept w visible args).map fun reply => (reply, none) := by
  unfold executeTool
  rw [hargs]
  simp only [hname]
  rw [if_neg (by decide), if_pos trivial]

theorem executeTool_readPassage {w : World K cx} {visible : Option (List String)}
    {allowWrites : Bool} {call : ToolCall} {args : Args}
    (hname : call.functionName = "read_passage")
    (hargs : w.parseJson call.functionArguments = .ok (.object args)) :
    executeTool w visible allowWrites call =
      (readPassage w visible args).map fun reply => (reply, none) := by
  unfold executeTool
  rw [hargs]
  simp only [hname]
  rw [if_neg (by decide), if_neg (by decide), if_neg (by decide), if_neg (by decide),
    if_pos trivial]

theorem str_single (key value : String) : Args.str [(key, .string value)] key = value := by
  simp [Args.str, Args.getStr, Args.get, Json.asStr]

theorem validPath_stackPathFor (slug : String) : validPath (stackPathFor slug) = true := by
  rw [stackPathFor_eq]
  exact validPath_chapterPath "library" slug

/-- The call of a caller who may see the book `library` for the stack text of another. -/
theorem reads_stack_text {visible : List String} (hvisible : "library" ∈ visible) {text : String}
    (slug : String) {c : Concept} {markdown : String}
    (hparse : Concept.parse cx (stackPathFor slug) text = .ok c)
    (hprint : c.toMarkdown cx = .ok markdown) :
    executeTool (oneFileWorld K cx (stackPathFor slug) text "read_concept" "path"
        (stackPathFor slug)) (some visible) false
        (callOf "read_concept" "path" (stackPathFor slug)) =
      .ok (.concept .library (stackPathFor slug) markdown, none) := by
  have hget :
      ((oneFile (stackPathFor slug) text).get cx (stackPathFor slug)).toOption = some c := by
    unfold Store.get
    rw [read_valid (validPath_stackPathFor slug)]
    simp only [oneFile, if_true, hparse]
    rfl
  have hvis : libraryPathVisible ((oneFileWorld K cx (stackPathFor slug) text "read_concept" "path"
      (stackPathFor slug)).scopes (some visible)) (stackPathFor slug) = true :=
    (visible_iff_of_fromBook rfl (fromBook_stackPathFor slug)).mpr hvisible
  have hfind : findConcept (oneFileWorld K cx (stackPathFor slug) text "read_concept" "path"
      (stackPathFor slug)) (some visible) (stackPathFor slug) = .ok (.library, c) := by
    unfold findConcept
    rw [hvis]
    simp only [oneFileWorld, emptyBundle, shelfOf, Option.bind_none, Option.bind_some, if_true,
      hget]
  rw [executeTool_readConcept rfl (if_pos rfl)]
  simp only [readConcept, str_single, hfind, hprint, (parse_eq_ok hparse).1]
  rfl

/-! ### Passages -/

theorem splitOnce_of_not_mem {c : Char} {l : Str} (h : c ∉ l) : splitOnce [c] l = none := by
  induction l with
  | nil => rfl
  | cons d l ih =>
    obtain ⟨hne, hl⟩ := not_or.mp (mt List.mem_cons.mpr h)
    have hprefix : [c].isPrefixOf (d :: l) = false := by simp [List.isPrefixOf, hne]
    simp only [splitOnce, hprefix, Bool.false_eq_true, if_false, ih hl, Option.map_none]

theorem trim_of_plain {l : Str} (h : ∀ c ∈ l, isWhitespace c = false) : trim l = l := by
  have hstart : l.dropWhile isWhitespace = l := by
    cases l with
    | nil => rfl
    | cons c l => rw [List.dropWhile_cons_of_neg (by simp [h c List.mem_cons_self])]
  rw [trim, hstart, trimEnd, List.rdropWhile_eq_self_iff]
  intro hne
  simp [h _ (List.getLast_mem hne)]

theorem stripPrefix_append (start rest : String) :
    stripPrefix (start ++ rest) start = some rest.toList := by
  have hdrop : (start.toList ++ rest.toList).drop start.length = rest.toList := by
    rw [← String.length_toList, List.drop_left]
  simp [stripPrefix, startsWith, String.toList_append, hdrop]

theorem parseBookUri_plain {slug : String} (h : PlainSlug slug) :
    parseBookUri ("book://" ++ slug) = some (slug, "") := by
  have hone : splitOnce ['#'] slug.toList = none := splitOnce_of_not_mem (h.not_mem (by decide))
  have hne : slug.toList ≠ [] := by simpa using h.ne
  have hdot : slug.toList ≠ ['.'] := by
    intro heq
    exact h.not_mem (d := '.') (by decide) (heq ▸ by decide)
  have hdots : slug.toList ≠ ['.', '.'] := by
    intro heq
    exact h.not_mem (d := '.') (by decide) (heq ▸ by decide)
  have hslash := h.not_mem (d := '/') (by decide)
  have hback := h.not_mem (d := '\\') (by decide)
  have hnul := h.not_mem (d := Char.ofNat 0) (by decide)
  simp only [parseBookUri, stripPrefix_append, Option.bind_some, hone, Option.getD_none]
  rw [if_neg (by simp only [hne, hdot, hdots, hslash, hback, hnul, or_self, not_false_eq_true]),
    String.ofList_toList]

omit [Field K] [LinearOrder K] in
theorem readPassage_plain {w : World K cx} {visible : List String} {slug text : String}
    (hreads : w.readsStackText = true) (hslug : PlainSlug slug) (hvisible : slug ∈ visible)
    (htext : readStackText w.files slug = .ok text) :
    readPassage w (some visible) [("resource", .string ("book://" ++ slug))] =
      .ok (.passage slug ("book://" ++ slug) (passageOf slug "" text)) := by
  have hscheme : "book://".toList.all (fun c => !isWhitespace c) = true := by decide
  have hplain : ∀ c ∈ ("book://" ++ slug).toList, isWhitespace c = false := by
    rw [String.toList_append]
    intro c hc
    rcases List.mem_append.mp hc with hc | hc
    · simpa using List.all_eq_true.mp hscheme c hc
    · exact (hslug.plain c hc).2
  have hresource : String.ofList (trim ("book://" ++ slug).toList) = "book://" ++ slug := by
    rw [trim_of_plain hplain, String.ofList_toList]
  have hne : "book://" ++ slug ≠ "" := by
    intro heq
    exact hslug.ne (String.append_eq_empty_iff.mp heq).2
  have hseen : ((some visible).map fun slugs => decide (slug ∈ slugs)).getD true = true :=
    decide_eq_true hvisible
  simp only [readPassage, str_single, hresource, if_neg hne, parseBookUri_plain hslug, hreads,
    hseen, htext, Bool.not_true, Bool.false_eq_true, if_false, if_true]

variable (cx) in
/-- The call of a caller who may see a book, for its text. -/
theorem reads_passage {visible : List String} {slug : String} (hslug : PlainSlug slug)
    (hvisible : slug ∈ visible) (text : String) :
    executeTool (oneFileWorld K cx (stackPathFor slug) text "read_passage" "resource"
        ("book://" ++ slug)) (some visible) false
        (callOf "read_passage" "resource" ("book://" ++ slug)) =
      .ok (.passage slug ("book://" ++ slug) (passageOf slug "" text), none) := by
  have htext : readStackText (oneFile (stackPathFor slug) text) slug = .ok text := by
    unfold readStackText
    rw [read_valid (validPath_stackPathFor slug)]
    simp only [oneFile, if_true]
  rw [executeTool_readPassage rfl (if_pos rfl), readPassage_plain rfl hslug hvisible htext]
  rfl

end Leaks

/-! ## The theorem -/

theorem letterTables_asciiTables : LetterTables asciiTables := by
  intro c hc d hd
  have hd' : d = c.toLower := List.mem_singleton.mp hd
  subst hd'
  have hval := toNat_toLower c
  have hc' : (97 ≤ c.toNat ∧ c.toNat ≤ 122) ∨ (65 ≤ c.toNat ∧ c.toNat ≤ 90) ∨
      (48 ≤ c.toNat ∧ c.toNat ≤ 57) := by
    have hcases : isAsciiAlphanumeric c = true := hc
    simp only [isAsciiAlphanumeric, Bool.or_eq_true, Bool.and_eq_true, decide_eq_true_eq] at hcases
    obtain (h | h) | h := hcases
    · exact .inl h
    · exact .inr (.inl h)
    · exact .inr (.inr h)
  have hlow : (97 ≤ c.toLower.toNat ∧ c.toLower.toNat ≤ 122) ∨
      (48 ≤ c.toLower.toNat ∧ c.toLower.toNat ≤ 57) := by
    split at hval
    · omega
    · omega
  refine ⟨?_, ?_⟩
  · intro hmem
    have hcode := List.mem_map_of_mem (f := Char.toNat) hmem
    have hcodes : c.toLower.toNat ∈ [47, 92, 35, 46, 0] := hcode
    simp only [List.mem_cons, List.not_mem_nil, or_false] at hcodes
    omega
  · simp only [isWhitespace, Bool.or_eq_false_iff, Bool.and_eq_false_iff, decide_eq_false_iff_not,
      beq_eq_false_iff_ne]
    omega

/-- A text with a frontmatter. -/
def noteText : String := "---\n" ++ noteYaml ++ "---\nThe port is 8080.\n"

theorem readable_noteText : Readable noteCodec noteText :=
  fun _ => ⟨_, _, rfl, rfl⟩

def slugRust : Slug asciiTables := ⟨"rust", by decide, "rust".toList, by decide⟩

end Mycelium.Analysis.HiddenBooks
