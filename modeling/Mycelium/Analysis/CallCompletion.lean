import Mycelium.Lib.Completion
import Mycelium.Analysis.ConceptRoundTrip
import Mycelium.Model.StoreTasks

/-!
# Calls on the concept store that run alone

What a call leaves behind when nothing runs between its steps. `Ends` says that the call at
a point gets to its result and that the result meets a postcondition; the rules below are
one for each stretch of a call, from its end to its begin: the regeneration of the
indexes (`ends_regenList`), the write of one concept of a batch (`ends_next`) and of all of
them (`ends_batch`), the removal of one (`ends_deleteRead`).
-/

set_option autoImplicit false

namespace Mycelium.Analysis.CallCompletion

open Mycelium.Model.Text Mycelium.Model.Concepts Mycelium.Model.Revisions
open Mycelium.Model.ConceptStore Mycelium.Model.StoreTasks
open Mycelium.Analysis.ConceptRoundTrip
open Completion

/-- The clock gives RFC 3339 texts. -/
def Clocked (cx : Codec) (ch : Choice) : Prop := ∀ i, cx.isRfc3339 (ch.clock i) = true

def next (cx : Codec) (r : Store × Pc) (ch : Choice) : Store × Pc := taskStep cx r.1 ch r.2

def resultOf (r : Store × Pc) : Option (Except StoreError Unit) :=
  match r.2 with
  | .finished x => some x
  | _ => none

/-- The call at this point gets to a result that meets the postcondition, whatever good
choices its steps find. -/
def EndsFor (good : Choice → Prop) (cx : Codec) (post : Store → Except StoreError Unit → Prop)
    (s : Store) (pc : Pc) : Prop :=
  Completes (next cx) resultOf good (fun r x => post r.1 x) (s, pc)

/-- The same where all that is asked of the choices is the clock. -/
abbrev Ends (cx : Codec) (post : Store → Except StoreError Unit → Prop) (s : Store) (pc : Pc) :
    Prop :=
  EndsFor (Clocked cx) cx post s pc

variable {good : Choice → Prop} {cx : Codec} {post : Store → Except StoreError Unit → Prop}

theorem next_of_result {r : Store × Pc} (ch : Choice) {x : Except StoreError Unit}
    (h : resultOf r = some x) : next cx r ch = r := by
  obtain ⟨s, pc⟩ := r
  cases pc with
  | finished y => rfl
  | _ => cases h

theorem ends_finished {s : Store} {x : Except StoreError Unit} (h : post s x) :
    EndsFor good cx post s (.finished x) := .done rfl h

/-- INTERNAL: a call that is not finished takes a step. -/
theorem ends_step {s : Store} {pc : Pc} (hpc : resultOf (s, pc) = none)
    (h : ∀ ch, good ch → EndsFor good cx post (taskStep cx s ch pc).1 (taskStep cx s ch pc).2) :
    EndsFor good cx post s pc := .step hpc h

/-! ## Valid paths -/

/-- INTERNAL: the index of a directory is at a valid path when the concepts in it are. -/
theorem validPath_index {e : ConceptEntry} (h : validPath e.path = true) :
    validPath (dirOf e ++ "/index.md") = true := by
  obtain ⟨rest, hpath⟩ := validPath_iff.mp h
  rw [validPath_iff]
  have hslash : '/' ∈ e.path.toList := by
    rw [hpath]
    exact List.mem_cons_self
  have hdir : (dirOf e).toList <+: '/' :: rest := by
    unfold dirOf dirname
    rw [if_pos hslash, ← hpath]
    simp only [Option.getD_some, String.toList_ofList]
    exact (List.dropLast_prefix _).trans (List.rdropWhile_prefix _ _)
  rw [String.toList_append]
  cases hd : (dirOf e).toList with
  | nil => exact ⟨_, rfl⟩
  | cons c cs =>
    rw [hd] at hdir
    obtain ⟨tail, htail⟩ := hdir
    obtain ⟨rfl, -⟩ := List.cons.inj htail
    exact ⟨_, rfl⟩

theorem validPath_indexFiles {entries : List ConceptEntry}
    (h : ∀ e ∈ entries, validPath e.path = true) {f : String × String}
    (hf : f ∈ indexFiles entries) : validPath f.1 = true := by
  obtain ⟨dir, hdir, rfl⟩ := List.mem_map.mp hf
  rcases mem_indexDirs.mp hdir with rfl | ⟨e, he, rfl⟩
  · show validPath ("" ++ "/index.md") = true
    decide
  · exact validPath_index (h e he)

/-! ## Storage steps -/

theorem read_valid {s : Store} {path : String} (h : validPath path = true) :
    s.read path = .ok (s.files path) := by
  simp only [Store.read, h, if_true]

/-- What a get reads where the markdown of a stamped concept is. -/
theorem get_of_file (hcx : Faithful cx) {s : Store} {c : Concept} {markdown : String}
    (hpath : validPath c.sourcePath = true) (hstamped : Stamped cx c.frontmatter)
    (hmarkdown : c.toMarkdown cx = .ok markdown) (hfile : s.files c.sourcePath = some markdown) :
    s.get cx c.sourcePath =
      if (trim c.frontmatter.conceptType.toList).isEmpty then .error (.parse .missingTypeField)
      else .ok (readBack c) := by
  unfold Store.get
  rw [read_valid hpath, hfile]
  simp only [parse_toMarkdown hcx hstamped hmarkdown]
  split <;> rfl

/-- The store with one more file written. -/
def written (s : Store) (path content : String) : Store :=
  { s with files := fun q => if q = path then some content else s.files q }

theorem write_valid {s : Store} {path : String} (h : validPath path = true) (content : String) :
    s.write path content = .ok (written s path content) := by
  simp only [Store.write, h, if_true, written]

/-- The store with some files written one after the other. -/
def writtenAll (s : Store) : List (String × String) → Store
  | [] => s
  | f :: rest => writtenAll (written s f.1 f.2) rest

/-- The store when a call returns: the removed concept's vector row and the cached
snapshot are gone. -/
def returned (s : Store) (deleted : Option String) : Store :=
  match deleted with
  | some path => (s.removeVector path).invalidateVectors
  | none => s.invalidateVectors

/-- What a regeneration does to the store. -/
def regenerated (s : Store) (deleted : Option String) : Store :=
  returned (writtenAll s (indexFiles s.list)) deleted

/-- INTERNAL: writing the indexes touches files only, and those of the indexes. -/
theorem writtenAll_fields (s : Store) (fs : List (String × String)) :
    (writtenAll s fs).registry = s.registry ∧ (writtenAll s fs).index = s.index ∧
      (writtenAll s fs).revisions = s.revisions := by
  induction fs generalizing s with
  | nil => exact ⟨rfl, rfl, rfl⟩
  | cons f rest ih => exact ih (written s f.1 f.2)

theorem files_writtenAll (s : Store) (fs : List (String × String)) (q : String) :
    (writtenAll s fs).files q = s.files q ∨
      ∃ content, (q, content) ∈ fs ∧ (writtenAll s fs).files q = some content := by
  induction fs generalizing s with
  | nil => exact .inl rfl
  | cons f rest ih =>
    rcases ih (written s f.1 f.2) with hsame | ⟨content, hmem, hfile⟩
    · by_cases hq : q = f.1
      · right
        refine ⟨f.2, ?_, ?_⟩
        · rw [hq]
          exact List.mem_cons_self
        · show (writtenAll (written s f.1 f.2) rest).files q = some f.2
          rw [hsame]
          simp [written, hq]
      · left
        show (writtenAll (written s f.1 f.2) rest).files q = s.files q
        rw [hsame]
        simp [written, hq]
    · exact .inr ⟨content, List.mem_cons_of_mem f hmem, hfile⟩

theorem regenerated_fields (s : Store) (deleted : Option String) :
    (regenerated s deleted).registry = s.registry ∧ (regenerated s deleted).index = s.index ∧
      (regenerated s deleted).revisions = s.revisions := by
  have h := writtenAll_fields s (indexFiles s.list)
  cases deleted <;> exact h

/-- A regeneration writes indexes. -/
theorem files_regenerated (s : Store) (deleted : Option String) (q : String) :
    (regenerated s deleted).files q = s.files q ∨
      ∃ content, (q, content) ∈ indexFiles s.list ∧
        (regenerated s deleted).files q = some content := by
  have h := files_writtenAll s (indexFiles s.list) q
  cases deleted <;> exact h

/-- INTERNAL: the same text for a path wherever it is written. -/
theorem files_writtenAll_of_mem {s : Store} {fs : List (String × String)} {q : String}
    (h : q ∈ fs.map Prod.fst) : ∃ content, (q, content) ∈ fs ∧
      (writtenAll s fs).files q = some content := by
  induction fs generalizing s with
  | nil => cases h
  | cons f rest ih =>
    rcases files_writtenAll (written s f.1 f.2) rest q with hsame | ⟨content, hmem, hfile⟩
    · by_cases hrest : q ∈ rest.map Prod.fst
      · obtain ⟨content, hmem, hfile⟩ := ih (s := written s f.1 f.2) hrest
        exact ⟨content, List.mem_cons_of_mem f hmem, hfile⟩
      · have hq : q = f.1 := (List.mem_cons.mp h).resolve_right hrest
        refine ⟨f.2, ?_, ?_⟩
        · rw [hq]
          exact List.mem_cons_self
        · show (writtenAll (written s f.1 f.2) rest).files q = some f.2
          rw [hsame]
          simp [written, hq]
    · exact ⟨content, List.mem_cons_of_mem f hmem, hfile⟩

/-- The index of a directory after a regeneration. -/
theorem files_regenerated_index (s : Store) (deleted : Option String) (dir : String) :
    (regenerated s deleted).files (dir ++ "/index.md") =
      if dir ∈ indexDirs s.list then some (indexText s.list dir)
      else s.files (dir ++ "/index.md") := by
  have hfiles : (regenerated s deleted).files = (writtenAll s (indexFiles s.list)).files := by
    cases deleted <;> rfl
  have hmem {content : String} (h : (dir ++ "/index.md", content) ∈ indexFiles s.list) :
      dir ∈ indexDirs s.list ∧ content = indexText s.list dir := by
    obtain ⟨dir', hdir', heq⟩ := List.mem_map.mp h
    obtain ⟨hpath, htext⟩ := Prod.mk.inj heq
    have hsame : dir' = dir := by
      have hlist := congrArg String.toList hpath
      rw [String.toList_append, String.toList_append] at hlist
      exact String.toList_injective (List.append_cancel_right hlist)
    rw [← hsame]
    exact ⟨hdir', htext.symm⟩
  rw [hfiles]
  split
  · rename_i hdir
    have hpath : dir ++ "/index.md" ∈ (indexFiles s.list).map Prod.fst :=
      List.mem_map.mpr ⟨_, List.mem_map_of_mem hdir, rfl⟩
    obtain ⟨content, hwritten, hfile⟩ := files_writtenAll_of_mem hpath
    rw [hfile, (hmem hwritten).2]
  · rename_i hdir
    rcases files_writtenAll s (indexFiles s.list) (dir ++ "/index.md") with hsame | ⟨_, hwritten, -⟩
    · exact hsame
    · exact absurd (hmem hwritten).1 hdir

theorem files_regenerated_of_ordinary (s : Store) (deleted : Option String) {q : String}
    (hq : isReserved q = false) : (regenerated s deleted).files q = s.files q := by
  rcases files_regenerated s deleted q with hsame | ⟨content, hmem, -⟩
  · exact hsame
  · have hreserved := isReserved_of_mem_indexFiles hmem
    rw [hq] at hreserved
    cases hreserved

/-! ## The end of a call -/

theorem ends_invalidate {s : Store} (h : post s.invalidateVectors (.ok ())) :
    EndsFor good cx post s .invalidate :=
  ends_step rfl fun _ _ => ends_finished h

theorem ends_regenWrite {s : Store} {pending : List (String × String)} {deleted : Option String}
    (hvalid : ∀ f ∈ pending, validPath f.1 = true)
    (h : post (returned (writtenAll s pending) deleted) (.ok ())) :
    EndsFor good cx post s (.regenWrite pending deleted) := by
  induction pending generalizing s with
  | nil =>
    apply ends_step rfl
    intro ch _
    cases deleted with
    | none => exact ends_invalidate h
    | some path => exact ends_step rfl fun _ _ => ends_invalidate h
  | cons f rest ih =>
    obtain ⟨path, content⟩ := f
    apply ends_step rfl
    intro ch _
    have hpath : validPath path = true := hvalid (path, content) List.mem_cons_self
    simp only [taskStep, write_valid hpath]
    exact ih (fun g hg => hvalid g (List.mem_cons_of_mem _ hg)) h

theorem ends_regenList {s : Store} {deleted : Option String}
    (hvalid : ∀ e ∈ s.registry, validPath e.path = true)
    (h : post (regenerated s deleted) (.ok ())) : EndsFor good cx post s (.regenList deleted) := by
  apply ends_step rfl
  intro ch _
  apply ends_regenWrite
  · intro f hf
    exact validPath_indexFiles (fun e he => hvalid e (mem_list.mp he)) hf
  · exact h

/-! ## One concept of a batch -/

/-- What the write of one concept does to the store: its file, its registry row and its
document are the new ones, and a row of its chain at most is added or falls out. -/
structure Put (s : Store) (c : Concept) (markdown : String) (s' : Store) : Prop where
  files : s'.files = fun q => if q = c.sourcePath then some markdown else s.files q
  registry : ∃ now, s'.registry = (s.register c now).registry
  index : s'.index = fun q => if q = c.sourcePath then some c else s.index q
  chains : ∀ q, q ≠ c.sourcePath →
    s'.revisions.filter (fun r => r.path = q) = s.revisions.filter fun r => r.path = q

theorem register_registry {s s' : Store} (h : s'.registry = s.registry) (c : Concept)
    (now : String) : (s'.register c now).registry = (s.register c now).registry := by
  unfold Store.register Store.registered
  rw [h]
  simp only
  split <;> rfl

/-- INTERNAL: the chains of other paths, through a prune. -/
theorem chain_recordOnce_of_ne (log : Log) (d : Draft) (retention : ℕ) (now : String)
    {q : String} (hq : q ≠ d.path) :
    (recordOnce log d retention now).filter (fun r => r.path = q) =
      log.filter fun r => r.path = q := by
  have hrow : (log ++ [d.row log now]).filter (fun r => r.path = q) =
      log.filter fun r => r.path = q := by
    rw [List.filter_append]
    have hne : (d.row log now).path ≠ q := fun h => hq h.symm
    simp [hne]
  unfold recordOnce pruneChain
  simp only
  split
  · rw [List.filter_filter, ← hrow]
    apply List.filter_congr
    intro r _
    by_cases hr : r.path = q
    · have hne : ¬ r.path = d.path := fun h => hq (hr.symm.trans h)
      simp [hr, hq]
    · simp [hr]
  · exact hrow

/-- The store with a concept's file, row, document and embedding job. -/
def stored (s : Store) (c : Concept) (markdown now : String) : Store :=
  (((written s c.sourcePath markdown).register c now).addIndex c).enqueueVector c.sourcePath

/-- The store after the write of one concept, with the record made at one moment and the row
written at another. -/
def wrote (s : Store) (c : Concept) (markdown : String) (d : Draft) (record register : Choice) :
    Store :=
  stored (s.record d record.retention (record.clock 0)) c markdown (register.clock 0)

theorem stored_fields (s : Store) (c : Concept) (markdown now : String) :
    (stored s c markdown now).files = (written s c.sourcePath markdown).files ∧
      (stored s c markdown now).registry = (s.register c now).registry ∧
      (stored s c markdown now).index = (s.addIndex c).index ∧
      (stored s c markdown now).revisions = s.revisions := by
  obtain ⟨-, hrevisions, hfiles, hindex⟩ := register_fields (written s c.sourcePath markdown) c now
  obtain ⟨-, hv, hr, hf, hi⟩ := enqueueVector_fields
    (((written s c.sourcePath markdown).register c now).addIndex c) c.sourcePath
  have hsame : (written s c.sourcePath markdown).registry = s.registry := rfl
  refine ⟨hf.trans hfiles, hr.trans (register_registry hsame c now), hi.trans ?_,
    hv.trans hrevisions⟩
  show (fun q => if q = c.sourcePath then some c else
    ((written s c.sourcePath markdown).register c now).index q) = _
  rw [hindex]
  rfl

theorem revisions_wrote (s : Store) (c : Concept) (markdown : String) (d : Draft)
    (record register : Choice) : (wrote s c markdown d record register).revisions =
      recordOnce s.revisions d record.retention (record.clock 0) :=
  (stored_fields _ c markdown _).2.2.2

theorem put_wrote (s : Store) {c : Concept} (markdown : String) {d : Draft}
    (hd : d.path = c.sourcePath) (record register : Choice) :
    Put s c markdown (wrote s c markdown d record register) := by
  obtain ⟨hfiles, hregistry, hindex, hrevisions⟩ :=
    stored_fields (s.record d record.retention (record.clock 0)) c markdown (register.clock 0)
  have hsame : (s.record d record.retention (record.clock 0)).registry = s.registry := rfl
  refine ⟨hfiles, ⟨register.clock 0, hregistry.trans (register_registry hsame c _)⟩, hindex, ?_⟩
  intro q hq
  show (stored _ c markdown _).revisions.filter _ = _
  rw [hrevisions]
  apply chain_recordOnce_of_ne
  rw [hd]
  exact hq

/-- INTERNAL: from the write of the file to the next concept. -/
theorem ends_writeFile {s : Store} {c : Concept} {markdown : String} {pre : Option String}
    {todo : List Concept} {job : Job} (hpath : validPath c.sourcePath = true)
    (h : ∀ ch, good ch → EndsFor good cx post (stored s c markdown (ch.clock 0)) (.next todo job)) :
    EndsFor good cx post s (.writeFile c markdown pre todo job) := by
  apply ends_step rfl
  intro _ _
  simp only [taskStep, write_valid hpath]
  apply ends_step rfl
  intro ch hch
  apply ends_step rfl
  intro _ _
  apply ends_step rfl
  intro _ _
  exact h ch hch

/-- INTERNAL: and from the record of its revision. -/
theorem ends_record {s : Store} {c : Concept} {markdown payload : String} {op : RevisionOp}
    {pre : Option String} {todo : List Concept} {job : Job} {d : Draft}
    (hpath : validPath c.sourcePath = true) (hdraft : putDraft c op payload job = .ok d)
    (h : ∀ ch ch', good ch → good ch' →
      EndsFor good cx post (wrote s c markdown d ch ch') (.next todo job)) :
    EndsFor good cx post s (.record c markdown op payload pre todo job) := by
  apply ends_step rfl
  intro ch hch
  simp only [taskStep, hdraft]
  apply ends_writeFile hpath
  intro ch' hch'
  exact h ch ch' hch hch'

/-- What the write of a concept records: the operation, and the text from before it or, for a
concept that is new, its own. SOURCE: concept_store.rs:303-356 -/
def recordOf (s : Store) (c : Concept) (markdown : String) (job : Job) : RevisionOp × String :=
  match job.tag with
  | some .create => (.create, markdown)
  | some tag =>
    match s.files c.sourcePath with
    | some pre => (tag, pre)
    | none => (tag, if tag = .restore then "" else markdown)
  | none =>
    match s.registered c.sourcePath, s.files c.sourcePath with
    | true, some pre => (.update, pre)
    | _, _ => (.create, markdown)

/-- INTERNAL: from the loop to the record of the revision. -/
theorem ends_toRecord {s : Store} {c : Concept} {markdown : String} {todo : List Concept}
    {job : Job} (hpath : validPath c.sourcePath = true) (hqueue : isQueuePath c.sourcePath = false)
    (hmarkdown : c.toMarkdown cx = .ok markdown)
    (h : ∀ pre, EndsFor good cx post s (.record c markdown (recordOf s c markdown job).1
      (recordOf s c markdown job).2 pre todo job)) :
    EndsFor good cx post s (.next (c :: todo) job) := by
  unfold recordOf at h
  apply ends_step rfl
  intro _ _
  simp only [taskStep, hmarkdown, hqueue, Bool.false_eq_true, if_false]
  cases htag : job.tag with
  | none =>
    simp only [htag] at h
    apply ends_step rfl
    intro _ _
    simp only [taskStep]
    split
    · rename_i hregistered
      simp only [hregistered] at h
      apply ends_step rfl
      intro _ _
      simp only [taskStep, read_valid hpath]
      cases hfile : s.files c.sourcePath with
      | some pre =>
        simp only [hfile] at h
        simp only [htag, Option.getD_none]
        exact h (some pre)
      | none =>
        simp only [hfile] at h
        simp only [htag]
        exact h none
    · rename_i hnew
      simp only [eq_false_of_ne_true hnew] at h
      exact h none
  | some tag =>
    simp only [htag] at h
    -- every tag but that of a create reads what was there
    have hreadPre (hne : tag ≠ .create) :
        EndsFor good cx post s (.readPre c markdown todo job) := by
      apply ends_step rfl
      intro _ _
      simp only [taskStep, read_valid hpath]
      cases hfile : s.files c.sourcePath with
      | some pre =>
        simp only [hfile] at h
        simp only [htag, Option.getD_some]
        cases tag with
        | create => exact absurd rfl hne
        | _ => exact h (some pre)
      | none =>
        simp only [hfile] at h
        simp only [htag]
        cases tag with
        | create => exact absurd rfl hne
        | _ => exact h none
    cases tag with
    | create => exact h none
    | _ => exact hreadPre (by simp)

/-- The newest row of a path's chain has this payload. -/
def Newest (s : Store) (path payload : String) : Prop :=
  Model.Revisions.get s.revisions path (latestNo s.revisions path) = .ok payload

theorem newest_of_recordOnce {s s' : Store} {d : Draft} {retention : ℕ} {now : String}
    (h : s'.revisions = recordOnce s.revisions d retention now) : Newest s' d.path d.payload := by
  unfold Newest
  rw [h, latestNo_recordOnce]
  exact get_recordOnce _ _ _ _

/-- INTERNAL: the draft of a put, when its operation has a summary. -/
theorem exists_putDraft (c : Concept) {op : RevisionOp} (payload : String) {job : Job}
    (h : job.summary.isSome = true ∨ op ≠ .restore) :
    ∃ d, putDraft c op payload job = .ok d ∧ d.path = c.sourcePath ∧ d.payload = payload := by
  cases hdraft : putDraft c op payload job with
  | ok d => exact ⟨d, rfl, putDraft_eq_ok hdraft⟩
  | error e =>
    simp only [putDraft] at hdraft
    cases hsummary : job.summary with
    | some text =>
      rw [hsummary] at hdraft
      cases hdraft
    | none =>
      rw [hsummary] at h hdraft
      cases op with
      | restore => simp at h
      | _ => cases hdraft

/-- The write of one concept of a batch, from the loop to the loop. -/
theorem ends_wrote {s : Store} {c : Concept} {markdown : String} {todo : List Concept} {job : Job}
    {d : Draft} (hpath : validPath c.sourcePath = true) (hqueue : isQueuePath c.sourcePath = false)
    (hmarkdown : c.toMarkdown cx = .ok markdown)
    (hdraft : putDraft c (recordOf s c markdown job).1 (recordOf s c markdown job).2 job = .ok d)
    (h : ∀ ch ch', good ch → good ch' →
      EndsFor good cx post (wrote s c markdown d ch ch') (.next todo job)) :
    EndsFor good cx post s (.next (c :: todo) job) := by
  apply ends_toRecord hpath hqueue hmarkdown
  intro pre
  exact ends_record hpath hdraft h

/-- INTERNAL: the operation of a write is that of a restore for a restore only. -/
theorem recordOf_restore {s : Store} {c : Concept} {markdown : String} {job : Job}
    (h : job.summary.isSome = true ∨ job.tag ≠ some .restore) :
    job.summary.isSome = true ∨ (recordOf s c markdown job).1 ≠ .restore := by
  refine h.imp_right ?_
  intro htag
  unfold recordOf
  split
  · simp
  · rename_i tag _ hsome
    have hne : tag ≠ .restore := fun heq => htag (by rw [hsome, heq])
    split
    · exact hne
    · exact hne
  · split <;> simp

/-- INTERNAL: the payload of a restore is what was there. -/
theorem recordOf_of_restore {s : Store} {c : Concept} {markdown : String} {job : Job}
    (htag : job.tag = some .restore) :
    (recordOf s c markdown job).2 = (s.files c.sourcePath).getD "" := by
  unfold recordOf
  rw [htag]
  dsimp only
  cases s.files c.sourcePath <;> rfl

/-- The write of one concept, by what it does to the store. -/
theorem ends_next {s : Store} {c : Concept} {markdown : String} {todo : List Concept} {job : Job}
    (hpath : validPath c.sourcePath = true) (hqueue : isQueuePath c.sourcePath = false)
    (hmarkdown : c.toMarkdown cx = .ok markdown)
    (hjob : job.summary.isSome = true ∨ job.tag ≠ some .restore)
    (h : ∀ s', Put s c markdown s' →
      (job.tag = some .restore → Newest s' c.sourcePath ((s.files c.sourcePath).getD "")) →
      EndsFor good cx post s' (.next todo job)) :
    EndsFor good cx post s (.next (c :: todo) job) := by
  obtain ⟨d, hdraft, hdpath, hdpayload⟩ := exists_putDraft c (recordOf s c markdown job).2
    (recordOf_restore hjob)
  apply ends_wrote hpath hqueue hmarkdown hdraft
  intro ch ch' _ _
  apply h _ (put_wrote s markdown hdpath ch ch')
  intro htag
  have hnewest := newest_of_recordOnce (revisions_wrote s c markdown d ch ch')
  rw [hdpath, hdpayload, recordOf_of_restore htag] at hnewest
  exact hnewest

/-! ## A batch -/

theorem registered_of_put {s s' : Store} {c : Concept} {markdown : String}
    (h : Put s c markdown s') (q : String) :
    s'.registered q = (s.registered q || q = c.sourcePath) := by
  obtain ⟨now, hregistry⟩ := h.registry
  rw [← registered_register s c now q]
  unfold Store.registered
  rw [hregistry]

/-- INTERNAL: the paths of the registry after an upsert. -/
theorem paths_register (s : Store) (c : Concept) (now : String) :
    (s.register c now).registry.map ConceptEntry.path =
      if s.registered c.sourcePath then s.registry.map ConceptEntry.path
      else s.registry.map ConceptEntry.path ++ [c.sourcePath] := by
  unfold Store.register
  simp only
  split
  · rw [List.map_map]
    apply List.map_congr_left
    intro e _
    by_cases he : e.path = c.sourcePath
    · simp [he]
    · simp [he]
  · rw [List.map_append]
    rfl

/-- An upsert lists no path twice. -/
theorem nodup_register {s : Store} (hs : (s.registry.map ConceptEntry.path).Nodup) (c : Concept)
    (now : String) : ((s.register c now).registry.map ConceptEntry.path).Nodup := by
  rw [paths_register]
  split
  · exact hs
  · rename_i hnew
    apply List.nodup_append.mpr
    refine ⟨hs, List.nodup_singleton _, ?_⟩
    intro q hq q' hq' heq
    obtain ⟨e, he, hpath⟩ := List.mem_map.mp hq
    apply hnew
    rw [registered_iff]
    exact ⟨e, he, by rw [hpath, heq, List.mem_singleton.mp hq']⟩

theorem nodup_of_put {s s' : Store} {c : Concept} {markdown : String} (h : Put s c markdown s')
    (hs : (s.registry.map ConceptEntry.path).Nodup) :
    (s'.registry.map ConceptEntry.path).Nodup := by
  obtain ⟨now, hregistry⟩ := h.registry
  rw [hregistry]
  exact nodup_register hs c now

/-- What the writes of a batch do, when its paths differ: the files of its concepts are the
new ones, and their paths are registered next to the others. -/
structure PutAll (cx : Codec) (s : Store) (cs : List Concept) (s' : Store) : Prop where
  written : ∀ c ∈ cs, ∃ markdown, c.toMarkdown cx = .ok markdown ∧
    s'.files c.sourcePath = some markdown
  files : ∀ q, (∀ c ∈ cs, c.sourcePath ≠ q) → s'.files q = s.files q
  registered : ∀ q, s'.registered q = true ↔
    s.registered q = true ∨ ∃ c ∈ cs, c.sourcePath = q
  distinct : (s.registry.map ConceptEntry.path).Nodup → (s'.registry.map ConceptEntry.path).Nodup

/-- INTERNAL: one concept, then the rest. -/
theorem putAll_cons {s s₁ s₂ : Store} {c : Concept} {cs : List Concept} {markdown : String}
    (hmarkdown : c.toMarkdown cx = .ok markdown) (hput : Put s c markdown s₁)
    (hrest : PutAll cx s₁ cs s₂) (hnew : ∀ d ∈ cs, d.sourcePath ≠ c.sourcePath) :
    PutAll cx s (c :: cs) s₂ := by
  refine ⟨?_, ?_, ?_, fun hs => hrest.distinct (nodup_of_put hput hs)⟩
  · intro d hd
    rcases List.mem_cons.mp hd with rfl | hd
    · refine ⟨markdown, hmarkdown, ?_⟩
      rw [hrest.files d.sourcePath hnew, hput.files]
      exact if_pos rfl
    · exact hrest.written d hd
  · intro q hq
    have hne : q ≠ c.sourcePath := fun h => hq c List.mem_cons_self h.symm
    rw [hrest.files q fun d hd => hq d (List.mem_cons_of_mem c hd), hput.files]
    exact if_neg hne
  · intro q
    rw [hrest.registered q, registered_of_put hput q, Bool.or_eq_true, decide_eq_true_eq, or_assoc]
    apply or_congr_right
    constructor
    · rintro (rfl | ⟨d, hd, hdq⟩)
      · exact ⟨c, List.mem_cons_self, rfl⟩
      · exact ⟨d, List.mem_cons_of_mem c hd, hdq⟩
    · rintro ⟨d, hd, hdq⟩
      rcases List.mem_cons.mp hd with rfl | hd
      · exact .inl hdq.symm
      · exact .inr ⟨d, hd, hdq⟩

/-- The loop of a batch. -/
theorem ends_batch {s : Store} {cs : List Concept} {job : Job}
    (hcs : ∀ c ∈ cs, validPath c.sourcePath = true ∧ isQueuePath c.sourcePath = false ∧
      ∃ markdown, c.toMarkdown cx = .ok markdown)
    (hpaths : (cs.map Concept.sourcePath).Nodup)
    (hjob : job.summary.isSome = true ∨ job.tag ≠ some .restore)
    (h : ∀ s', PutAll cx s cs s' → EndsFor good cx post s' (.next [] job)) :
    EndsFor good cx post s (.next cs job) := by
  induction cs generalizing s with
  | nil => exact h s ⟨by simp, fun _ _ => rfl, by simp, id⟩
  | cons c cs ih =>
    obtain ⟨hpath, hqueue, markdown, hmarkdown⟩ := hcs c List.mem_cons_self
    rw [List.map_cons, List.nodup_cons] at hpaths
    have hnew : ∀ d ∈ cs, d.sourcePath ≠ c.sourcePath := by
      intro d hd heq
      exact hpaths.1 (heq ▸ List.mem_map_of_mem hd)
    apply ends_next hpath hqueue hmarkdown hjob
    intro s' hput _
    apply ih (fun d hd => hcs d (List.mem_cons_of_mem c hd)) hpaths.2
    intro s'' hrest
    exact h s'' (putAll_cons hmarkdown hput hrest hnew)

/-! ## One delete -/

/-- What the removal of one concept does, before the regeneration. -/
structure Removed (s : Store) (path : String) (s' : Store) : Prop where
  files : s'.files = fun q => if q = path then none else s.files q
  registry : s'.registry = (s.unregister path).registry
  index : s'.index = fun q => if q = path then none else s.index q
  chains : ∀ q, q ≠ path →
    s'.revisions.filter (fun r => r.path = q) = s.revisions.filter fun r => r.path = q

/-- A delete of a concept that is not there. -/
theorem ends_deleteRead_missing {s : Store} {path : String} {h : Handle}
    (hpath : validPath path = true) (hfile : s.files path = none)
    (hpost : post s (.error (.notFound path))) : EndsFor good cx post s (.deleteRead path h) := by
  apply ends_step rfl
  intro _ _
  simp only [taskStep, read_valid hpath, hfile]
  exact ends_finished hpost

/-- The removal of one concept that is there. -/
theorem ends_deleteRead {s : Store} {path pre : String} {h : Handle}
    (hpath : validPath path = true) (hqueue : isQueuePath path = false)
    (hfile : s.files path = some pre) (hvalid : ∀ e ∈ s.registry, validPath e.path = true)
    (hpost : ∀ s', Removed s path s' → post (regenerated s' (some path)) (.ok ())) :
    EndsFor good cx post s (.deleteRead path h) := by
  apply ends_step rfl
  intro _ _
  simp only [taskStep, read_valid hpath, hfile, hqueue, Bool.false_eq_true, if_false]
  apply ends_step rfl
  intro ch _
  -- the entry, the document and the file go, in this order
  apply ends_step rfl
  intro _ _
  apply ends_step rfl
  intro _ _
  apply ends_step rfl
  intro _ _
  simp only [taskStep]
  apply ends_regenList
  · intro e he
    exact hvalid e (List.mem_of_mem_filter he)
  · apply hpost
    refine ⟨rfl, rfl, rfl, ?_⟩
    intro q hq
    exact chain_recordOnce_of_ne s.revisions (deleteDraft path pre h) ch.retention (ch.clock 0) hq

/-! ## Calls that may fail

The rules for a postcondition that holds of the errors too: what makes a step fail needs no
hypothesis. -/

theorem ends_regenList_or_fails (herr : ∀ s e, post s (.error e)) {s : Store}
    {deleted : Option String} (h : post (regenerated s deleted) (.ok ())) :
    EndsFor good cx post s (.regenList deleted) := by
  have hwrite (pending : List (String × String)) (s : Store)
      (h : post (returned (writtenAll s pending) deleted) (.ok ())) :
      EndsFor good cx post s (.regenWrite pending deleted) := by
    induction pending generalizing s with
    | nil => exact ends_regenWrite (by simp) h
    | cons f rest ih =>
      apply ends_step rfl
      intro _ _
      by_cases hpath : validPath f.1 = true
      · simp only [taskStep, write_valid hpath]
        exact ih (written s f.1 f.2) h
      · simp only [taskStep, Store.write, hpath, Bool.false_eq_true, if_false]
        exact ends_finished (herr _ _)
  apply ends_step rfl
  intro _ _
  exact hwrite _ s h

/-- What is there before a call, apart from its history. -/
structure Unchanged (s t : Store) : Prop where
  files : t.files = s.files
  registry : t.registry = s.registry
  index : t.index = s.index

theorem Unchanged.refl (s : Store) : Unchanged s s := ⟨rfl, rfl, rfl⟩

/-- INTERNAL: the draft of a restore without a summary. -/
theorem summary_of_putDraft {s : Store} {c : Concept} {markdown : String} {job : Job} {d : Draft}
    (h : putDraft c (recordOf s c markdown job).1 (recordOf s c markdown job).2 job = .ok d) :
    job.summary.isSome = true ∨ job.tag ≠ some .restore := by
  cases hsummary : job.summary with
  | some text => exact .inl rfl
  | none =>
    right
    intro htag
    have hop : (recordOf s c markdown job).1 = .restore := by
      unfold recordOf
      rw [htag]
      dsimp only
      cases s.files c.sourcePath <;> rfl
    simp only [putDraft, hop, hsummary] at h
    cases h

/-- The write of one concept, which may fail and then leaves what was there. -/
theorem ends_wrote_or_fails {s : Store} {c : Concept} {todo : List Concept} {job : Job}
    (herr : ∀ t e, Unchanged s t → post t (.error e)) (hqueue : isQueuePath c.sourcePath = false)
    (h : ∀ markdown d ch ch', validPath c.sourcePath = true → c.toMarkdown cx = .ok markdown →
      putDraft c (recordOf s c markdown job).1 (recordOf s c markdown job).2 job = .ok d →
      good ch → good ch' → EndsFor good cx post (wrote s c markdown d ch ch') (.next todo job)) :
    EndsFor good cx post s (.next (c :: todo) job) := by
  cases hmarkdown : c.toMarkdown cx with
  | error e =>
    apply ends_step rfl
    intro _ _
    simp only [taskStep, hmarkdown]
    exact ends_finished (herr _ _ (.refl s))
  | ok markdown =>
    by_cases hpath : validPath c.sourcePath = true
    · apply ends_toRecord hpath hqueue hmarkdown
      intro pre
      cases hdraft : putDraft c (recordOf s c markdown job).1 (recordOf s c markdown job).2 job with
      | error e =>
        apply ends_step rfl
        intro _ _
        simp only [taskStep, hdraft]
        exact ends_finished (herr _ _ (.refl s))
      | ok d =>
        apply ends_record hpath hdraft
        intro ch ch' hch hch'
        exact h markdown d ch ch' hpath hmarkdown hdraft hch hch'
    · -- the path is refused by the read before the record or by the write after it
      have hrecord {op : RevisionOp} {payload : String} {pre : Option String} :
          EndsFor good cx post s (.record c markdown op payload pre todo job) := by
        apply ends_step rfl
        intro _ _
        simp only [taskStep]
        split
        · exact ends_finished (herr _ _ (.refl s))
        · apply ends_step rfl
          intro _ _
          simp only [taskStep, Store.write, hpath, Bool.false_eq_true, if_false]
          exact ends_finished (herr _ _ ⟨rfl, rfl, rfl⟩)
      have hreadPre : EndsFor good cx post s (.readPre c markdown todo job) := by
        apply ends_step rfl
        intro _ _
        simp only [taskStep, Store.read, hpath, Bool.false_eq_true, if_false]
        exact ends_finished (herr _ _ (.refl s))
      apply ends_step rfl
      intro _ _
      simp only [taskStep, hmarkdown, hqueue, Bool.false_eq_true, if_false]
      split
      · apply ends_step rfl
        intro _ _
        simp only [taskStep]
        split
        · exact hreadPre
        · exact hrecord
      · exact hrecord
      · exact hreadPre

/-- The same, by what the write does to the store. -/
theorem ends_next_or_fails {s : Store} {c : Concept} {todo : List Concept} {job : Job}
    (herr : ∀ t e, Unchanged s t → post t (.error e)) (hqueue : isQueuePath c.sourcePath = false)
    (h : ∀ s' markdown, validPath c.sourcePath = true → c.toMarkdown cx = .ok markdown →
      (job.summary.isSome = true ∨ job.tag ≠ some .restore) → Put s c markdown s' →
      EndsFor good cx post s' (.next todo job)) :
    EndsFor good cx post s (.next (c :: todo) job) := by
  apply ends_wrote_or_fails herr hqueue
  intro markdown d ch ch' hpath hmarkdown hdraft _ _
  exact h _ markdown hpath hmarkdown (summary_of_putDraft hdraft)
    (put_wrote s markdown (putDraft_eq_ok hdraft).1 ch ch')

end Mycelium.Analysis.CallCompletion
