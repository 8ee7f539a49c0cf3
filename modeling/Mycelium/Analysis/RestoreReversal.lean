import Mycelium.Lib.StepSystem
import Mycelium.Analysis.CallCompletion

/-!
# Restore, and restore again

A restore puts the concept of an old snapshot back through the normal write path, and what
it overwrites is the newest revision of the path, so that restoring that one undoes it.

1. *Stored files.* In every reachable store the file of an ordinary path is the markdown of
   a stamped and validated concept, and registered paths are valid (`stored_exec`).
2. *One restore.* From such a store a restore that runs alone either fails and leaves the
   store as it was, or does what `Restored` says; it succeeds exactly when the snapshot is
   there, parses and is valid (`ends_restore`).
3. *There and back.* `restore_reversible`. The indexes of the directories are generated
   again by every write, so they are paths of their own that a restore changes
   (`restore_rewrites_index`).
-/

set_option autoImplicit false

namespace Mycelium.Analysis.RestoreReversal

open Mycelium.Model.Text Mycelium.Model.Concepts Mycelium.Model.Revisions
open Mycelium.Model.ConceptStore Mycelium.Model.StoreTasks
open Mycelium.Analysis.ConceptRoundTrip Mycelium.Analysis.CallCompletion
open StepSystem Completion

/-! ## Stamped concepts -/

/-- The concept is as a put writes it. -/
structure Checked (cx : Codec) (c : Concept) : Prop where
  stamped : Stamped cx c.frontmatter
  valid : c.frontmatter.validated cx = .ok ()

/-- The concept that a put writes for another. -/
def stampedConcept (h : Handle) (now : String) (c : Concept) : Concept :=
  let source :=
    match h.provenance with
    | some src => if src = "" then c.frontmatter.source else some src
    | none => c.frontmatter.source
  { c with frontmatter := { c.frontmatter with confirmedAt := some now, source } }

theorem stamp_eq (cx : Codec) (h : Handle) (now : String) (c : Concept) :
    stamp cx h now c =
      if isReserved c.sourcePath then .error (.reserved c.sourcePath)
      else ((c.frontmatter.validated cx).mapError .parse).map fun _ => stampedConcept h now c := by
  have hvalidated (confirmedAt source : Option String) :
      { c.frontmatter with confirmedAt, source }.validated cx = c.frontmatter.validated cx := rfl
  unfold stamp stampedConcept
  by_cases hreserved : isReserved c.sourcePath = true
  · rw [if_pos hreserved, if_pos hreserved]
    cases h.provenance <;> rfl
  · rw [if_neg hreserved, if_neg hreserved]
    cases h.provenance with
    | none =>
      simp only [bind, Except.bind, pure, Except.pure, hvalidated]
      cases c.frontmatter.validated cx <;> rfl
    | some src =>
      simp only [bind, Except.bind, pure, Except.pure, hvalidated]
      cases c.frontmatter.validated cx <;> rfl

theorem checked_of_stamp {cx : Codec} {h : Handle} {now : String} {c c' : Concept}
    (hnow : cx.isRfc3339 now = true) (hs : stamp cx h now c = .ok c') : Checked cx c' := by
  rw [stamp_eq] at hs
  split at hs
  · cases hs
  · cases hvalid : c.frontmatter.validated cx with
    | error e =>
      rw [hvalid] at hs
      cases hs
    | ok u =>
      rw [hvalid] at hs
      cases hs
      exact ⟨⟨now, rfl, hnow⟩, hvalid⟩

theorem checked_of_stampAll {cx : Codec} {h : Handle} {clock : ℕ → String}
    (hclock : ∀ i, cx.isRfc3339 (clock i) = true) {i : ℕ} {cs cs' : List Concept}
    (hs : stampAll cx h clock i cs = .ok cs') : ∀ c ∈ cs', Checked cx c := by
  intro c hc
  obtain ⟨_, -, j, hstamp⟩ := stamp_of_mem_stampAll hs hc
  exact checked_of_stamp (hclock j) hstamp

/-! ## Stored files -/

/-- The file is the markdown of a checked concept of this path. -/
def WrittenAs (cx : Codec) (path markdown : String) : Prop :=
  ∃ c, c.sourcePath = path ∧ Checked cx c ∧ c.toMarkdown cx = .ok markdown

structure StoreOk (cx : Codec) (s : Store) : Prop where
  files : ∀ path markdown, isReserved path = false → s.files path = some markdown →
    WrittenAs cx path markdown
  entries : ∀ e ∈ s.registry, validPath e.path = true

def BatchOk (cx : Codec) (cs : List Concept) : Prop := ∀ c ∈ cs, Checked cx c

/-- What a call knows at its point. -/
def PcOk (cx : Codec) : Pc → Prop
  | .next todo _ => BatchOk cx todo
  | .lookup c markdown todo _ | .readPre c markdown todo _ | .record c markdown _ _ _ todo _
  | .writeFile c markdown _ todo _ => WrittenAs cx c.sourcePath markdown ∧ BatchOk cx todo
  | .register c todo _ => validPath c.sourcePath = true ∧ BatchOk cx todo
  | .addIndex _ todo _ | .enqueueVector _ todo _ => BatchOk cx todo
  | .regenWrite pending _ => ∀ f ∈ pending, isReserved f.1 = true
  | _ => True

structure Inv (cx : Codec) (s : State) : Prop where
  store : StoreOk cx s.store
  pcs : ∀ i, PcOk cx (s.tasks i)

/-- The clock of every call and step gives RFC 3339 texts. -/
def ActionClocked (cx : Codec) : Action → Prop
  | .start _ _ _ ch | .step _ ch => Clocked cx ch
  | _ => True

theorem pcOk_putBatchWithRevision (cx : Codec) (cs : List Concept) (job : Job)
    {clock : ℕ → String} (hclock : ∀ i, cx.isRfc3339 (clock i) = true) :
    PcOk cx (putBatchWithRevision cx cs job clock) := by
  apply putBatchWithRevision_cases
  · intro r
    trivial
  · intro stamped hst
    exact checked_of_stampAll hclock hst

theorem pcOk_begin (cx : Codec) (h : Handle) {clock : ℕ → String}
    (hclock : ∀ i, cx.isRfc3339 (clock i) = true) (call : Call) :
    PcOk cx (call.begin cx h clock) := by
  apply begin_cases
  · intro r
    trivial
  · intro cs
    exact pcOk_putBatchWithRevision cx cs _ hclock
  · intro path no
    trivial
  · intro path
    trivial
  · intro path _
    trivial

/-! ## Storage steps and stored files -/

section Steps

variable {cx : Codec}

/-- INTERNAL: a step that touches neither the files nor the registry. -/
theorem storeOk_frame {s s' : Store} (h : StoreOk cx s) (hf : s'.files = s.files)
    (hr : s'.registry = s.registry) : StoreOk cx s' := by
  refine ⟨?_, ?_⟩
  · rw [hf]
    exact h.files
  · rw [hr]
    exact h.entries

/-- INTERNAL: what is written is checked, or has a reserved name. -/
theorem storeOk_write {s s' : Store} {path content : String} (h : StoreOk cx s)
    (hw : s.write path content = .ok s')
    (hcontent : isReserved path = false → WrittenAs cx path content) : StoreOk cx s' := by
  rw [write_eq_ok hw]
  refine ⟨?_, h.entries⟩
  intro q markdown hq hfile
  by_cases hp : q = path
  · subst hp
    simp only [if_true, Option.some.injEq] at hfile
    rw [← hfile]
    exact hcontent hq
  · simp only [hp, if_false] at hfile
    exact h.files q markdown hq hfile

theorem storeOk_register {s : Store} (h : StoreOk cx s) {c : Concept} (now : String)
    (hc : validPath c.sourcePath = true) : StoreOk cx (s.register c now) := by
  obtain ⟨-, -, hfiles, -⟩ := register_fields s c now
  refine ⟨?_, ?_⟩
  · rw [hfiles]
    exact h.files
  · intro e he
    rcases path_of_mem_register he with hpath | ⟨e', he', hpath⟩
    · rw [hpath]
      exact hc
    · rw [← hpath]
      exact h.entries e' he'

theorem storeOk_unregister {s : Store} (h : StoreOk cx s) (path : String) :
    StoreOk cx (s.unregister path) :=
  ⟨h.files, fun e he => h.entries e (List.mem_of_mem_filter he)⟩

theorem storeOk_deleteFile {s : Store} (h : StoreOk cx s) (path : String) :
    StoreOk cx (s.deleteFile path) := by
  refine ⟨?_, h.entries⟩
  intro q markdown hq hfile
  simp only [Store.deleteFile] at hfile
  split at hfile
  · cases hfile
  · exact h.files q markdown hq hfile

/-- INTERNAL: one step of a call, point by point. -/
theorem ok_taskStep {s : Store} (h : StoreOk cx s) {ch : Choice} (hch : Clocked cx ch) {pc : Pc}
    (hpc : PcOk cx pc) :
    StoreOk cx (taskStep cx s ch pc).1 ∧ PcOk cx (taskStep cx s ch pc).2 := by
  cases pc with
  | idle => exact ⟨h, trivial⟩
  | restoreGet path no hd =>
    simp only [taskStep]
    split
    · exact ⟨h, trivial⟩
    · split
      · exact ⟨h, trivial⟩
      · refine ⟨h, ?_⟩
        dsimp only
        apply pcOk_putBatchWithRevision
        exact hch
  | next todo job =>
    cases todo with
    | nil => exact ⟨h, trivial⟩
    | cons c todo =>
      have hrest : BatchOk cx todo := fun d hd => hpc d (List.mem_cons_of_mem c hd)
      simp only [taskStep]
      split
      · exact ⟨h, trivial⟩
      · rename_i markdown hmarkdown
        have hwritten : WrittenAs cx c.sourcePath markdown :=
          ⟨c, rfl, hpc c List.mem_cons_self, hmarkdown⟩
        split
        · exact ⟨h, hwritten, hrest⟩
        · split <;> exact ⟨h, hwritten, hrest⟩
  | lookup c markdown todo job =>
    simp only [taskStep]
    split <;> exact ⟨h, hpc⟩
  | readPre c markdown todo job =>
    simp only [taskStep]
    split
    · exact ⟨h, trivial⟩
    · exact ⟨h, hpc⟩
    · split <;> exact ⟨h, hpc⟩
  | record c markdown op payload pre todo job =>
    simp only [taskStep]
    split
    · exact ⟨h, trivial⟩
    · exact ⟨storeOk_frame h rfl rfl, hpc⟩
  | writeFile c markdown pre todo job =>
    simp only [taskStep]
    split
    · exact ⟨h, trivial⟩
    · rename_i s' hw
      exact ⟨storeOk_write h hw fun _ => hpc.1, validPath_of_write hw, hpc.2⟩
  | register c todo job => exact ⟨storeOk_register h _ hpc.1, hpc.2⟩
  | addIndex c todo job => exact ⟨storeOk_frame h rfl rfl, hpc⟩
  | enqueueVector c todo job =>
    obtain ⟨-, -, hr, hf, -⟩ := enqueueVector_fields s c.sourcePath
    exact ⟨storeOk_frame h hf hr, hpc⟩
  | regenList deleted => exact ⟨h, fun f hf => isReserved_of_mem_indexFiles hf⟩
  | regenWrite pending deleted =>
    cases pending with
    | nil => cases deleted <;> exact ⟨h, trivial⟩
    | cons f rest =>
      obtain ⟨path, content⟩ := f
      have hreserved : isReserved path = true := hpc (path, content) List.mem_cons_self
      simp only [taskStep]
      split
      · exact ⟨h, trivial⟩
      · rename_i s' hw
        refine ⟨storeOk_write h hw ?_, fun g hg => hpc g (List.mem_cons_of_mem _ hg)⟩
        intro hno
        rw [hreserved] at hno
        cases hno
  | removeVector path => exact ⟨storeOk_frame h rfl rfl, trivial⟩
  | invalidate => exact ⟨storeOk_frame h rfl rfl, trivial⟩
  | deleteRead path hd =>
    simp only [taskStep]
    split
    · exact ⟨h, trivial⟩
    · exact ⟨h, trivial⟩
    · split <;> exact ⟨h, trivial⟩
  | deleteRecord path pre hd => exact ⟨storeOk_frame h rfl rfl, trivial⟩
  | deleteEntry path pre => exact ⟨storeOk_unregister h path, trivial⟩
  | deleteIndex path pre => exact ⟨storeOk_frame h rfl rfl, trivial⟩
  | deleteFile path pre => exact ⟨storeOk_deleteFile h path, trivial⟩
  | reindexRead path =>
    simp only [taskStep]
    split
    · exact ⟨h, trivial⟩
    · exact ⟨h, trivial⟩
    · split <;> exact ⟨h, trivial⟩
  | reindexAdd c => exact ⟨storeOk_frame h rfl rfl, trivial⟩
  | finished r => exact ⟨h, trivial⟩

end Steps

theorem inv_step {cx : Codec} {s s' : State} {a : Action} (h : Inv cx s)
    (ha : ActionClocked cx a) (hs : step cx s a = some s') : Inv cx s' := by
  have hset {i : ℕ} {store : Store} {pc : Pc} (hstore : StoreOk cx store) (hpc : PcOk cx pc) :
      Inv cx ({ s with store := store }.setTask i pc) := by
    refine ⟨hstore, ?_⟩
    intro j
    simp only [State.setTask]
    split
    · exact hpc
    · exact h.pcs j
  cases a with
  | start i hd call ch =>
    have hgo : some (s.setTask i (call.begin cx hd ch.clock)) = some s' := by
      simp only [step] at hs
      split at hs
      · exact hs
      · exact hs
      · cases hs
    cases hgo
    exact hset h.store (pcOk_begin cx hd ha call)
  | step i ch =>
    cases hs
    obtain ⟨hstore, hpc⟩ := ok_taskStep h.store ha (h.pcs i)
    exact hset hstore hpc
  | abort i =>
    cases hs
    exact hset h.store trivial
  | crash =>
    cases hs
    exact ⟨storeOk_frame h.store rfl rfl, fun _ => trivial⟩

theorem inv_init (cx : Codec) (scopeId : String) : Inv cx (State.init scopeId) := by
  refine ⟨⟨?_, ?_⟩, fun _ => trivial⟩
  · intro path markdown _ hfile
    cases hfile
  · intro e he
    cases he

/-- INTERNAL: the invariant along a run whose clocks are right. -/
theorem inv_exec {cx : Codec} {s t : State} {as : List Action} (h : Inv cx s)
    (hclock : ∀ a ∈ as, ActionClocked cx a) (hrun : exec (step cx) s as = some t) :
    Inv cx t := by
  induction as generalizing s with
  | nil =>
    cases hrun
    exact h
  | cons a as ih =>
    obtain ⟨s', hs, hrest⟩ := exec_cons_eq_some.mp hrun
    exact ih (inv_step h (hclock a List.mem_cons_self) hs)
      (fun b hb => hclock b (List.mem_cons_of_mem a hb)) hrest

/-! ## One restore -/

/-- The snapshot with this number is the markdown of this concept. -/
def Snapshot (cx : Codec) (s : Store) (path : String) (no : ℕ) (c : Concept) : Prop :=
  ∃ markdown, Model.Revisions.get s.revisions path no = .ok markdown ∧
    Concept.parse cx path markdown = .ok c

/-- What a restore needs: a snapshot that parses and is valid, at a path a concept can have. -/
def Restorable (cx : Codec) (s : Store) (path : String) (no : ℕ) : Prop :=
  isReserved path = false ∧ validPath path = true ∧
    ∃ c, Snapshot cx s path no c ∧ c.frontmatter.validated cx = .ok ()

/-- The concept again, but for the stamps and the line endings. -/
def SameButStamps (c c' : Concept) : Prop :=
  ∃ confirmedAt source, c' = { c with
    body := normalized c.body
    frontmatter := { c.frontmatter with confirmedAt, source } }

/-- What a restore leaves behind. -/
structure Restored (cx : Codec) (s : Store) (path : String) (c : Concept) (t : Store) : Prop where
  reads : ∃ c', t.get cx path = .ok c' ∧ SameButStamps c c'
  newest : ∀ bytes, s.files path = some bytes → Newest t path bytes
  entries : ∀ q, q ≠ path →
    t.registry.filter (fun e => e.path = q) = s.registry.filter fun e => e.path = q
  index : ∀ q, q ≠ path → t.index q = s.index q
  chains : ∀ q, q ≠ path →
    t.revisions.filter (fun r => r.path = q) = s.revisions.filter fun r => r.path = q
  files : ∀ q, q ≠ path → t.files q = s.files q ∨
    ∃ content, (q, content) ∈ indexFiles t.list ∧ t.files q = some content

/-- INTERNAL: the upsert changes the rows of its own path only. -/
theorem entries_register {s : Store} {c : Concept} (now : String) {q : String}
    (hq : q ≠ c.sourcePath) :
    (s.register c now).registry.filter (fun e => e.path = q) =
      s.registry.filter fun e => e.path = q := by
  have hne : c.sourcePath ≠ q := fun h => hq h.symm
  unfold Store.register
  simp only
  split
  · induction s.registry with
    | nil => rfl
    | cons e rest ih =>
      rw [List.map_cons, List.filter_cons, List.filter_cons, ih]
      by_cases he : e.path = c.sourcePath
      · simp [he, hne]
      · simp [he]
  · simp [hne]

/-- INTERNAL: what is left when the put of the snapshot's concept has returned. -/
theorem restored_of_put {cx : Codec} (hcx : Faithful cx) {s s' : Store} {h : Handle}
    {now path markdown : String} {c : Concept} (hreserved : isReserved path = false)
    (hpath : validPath path = true) (hc : c.sourcePath = path)
    (htype : (trim c.frontmatter.conceptType.toList).isEmpty = false)
    (hstamped : Stamped cx (stampedConcept h now c).frontmatter)
    (hmarkdown : (stampedConcept h now c).toMarkdown cx = .ok markdown)
    (hput : Put s (stampedConcept h now c) markdown s')
    (hnewest : Newest s' path ((s.files path).getD "")) :
    Restored cx s path c (regenerated s' none) := by
  have hc' : (stampedConcept h now c).sourcePath = path := hc
  obtain ⟨hregistry, hindex, hrevisions⟩ := regenerated_fields s' none
  obtain ⟨when', hentries⟩ := hput.registry
  have hlist : (regenerated s' none).list = s'.list := by
    unfold Store.list
    rw [hregistry]
  have hfile : (regenerated s' none).files path = some markdown := by
    rw [files_regenerated_of_ordinary s' none hreserved, hput.files]
    simp [hc']
  refine ⟨?_, ?_, ?_, ?_, ?_, ?_⟩
  · refine ⟨readBack (stampedConcept h now c), ?_, ⟨_, _, rfl⟩⟩
    have hget := get_of_file hcx (by rw [hc']; exact hpath) hstamped hmarkdown (by rw [hc', hfile])
    have htype' : (trim (stampedConcept h now c).frontmatter.conceptType.toList).isEmpty = false :=
      htype
    rw [hc', htype'] at hget
    exact hget
  · intro bytes hbytes
    rw [hbytes] at hnewest
    unfold Newest at hnewest ⊢
    rw [hrevisions]
    exact hnewest
  · intro q hq
    rw [← hc'] at hq
    rw [hregistry, hentries]
    exact entries_register when' hq
  · intro q hq
    rw [← hc'] at hq
    rw [hindex, hput.index]
    simp only [hq, if_false]
  · intro q hq
    rw [← hc'] at hq
    rw [hrevisions]
    exact hput.chains q hq
  · intro q hq
    rw [← hc'] at hq
    rw [hlist]
    rcases files_regenerated s' none q with hsame | hindexed
    · left
      rw [hsame, hput.files]
      simp only [hq, if_false]
    · exact .inr hindexed

theorem stampAll_singleton (cx : Codec) (h : Handle) (clock : ℕ → String) (c : Concept) :
    stampAll cx h clock 0 [c] = (stamp cx h (clock 0) c).map fun c' => [c'] := by
  simp only [stampAll, bind, Except.bind, pure, Except.pure]
  cases stamp cx h (clock 0) c <;> rfl

/-- How a restore that runs alone ends. -/
def RestoreEnds (cx : Codec) (s : Store) (path : String) (no : ℕ) (t : Store)
    (r : Except StoreError Unit) : Prop :=
  (r = .ok () ∧ Restorable cx s path no ∧ ∃ c, Snapshot cx s path no c ∧ Restored cx s path c t) ∨
    ((∃ e, r = .error e) ∧ ¬ Restorable cx s path no ∧ t = s)

/-- INTERNAL: the put of the snapshot's concept, when it may be put. -/
theorem ends_restorePut {cx : Codec} (hcx : Faithful cx) {s : Store} (hstore : StoreOk cx s)
    {path : String} {no : ℕ} {c : Concept} {h : Handle} {now : String} {job : Job}
    (hqueue : isQueuePath path = false) (hreserved : isReserved path = false)
    (hpath : validPath path = true) (hsnapshot : Snapshot cx s path no c)
    (hvalid : c.frontmatter.validated cx = .ok ()) (hnow : cx.isRfc3339 now = true)
    (htag : job.tag = some .restore) (hsummary : job.summary.isSome = true) :
    Ends cx (RestoreEnds cx s path no) s (.next [stampedConcept h now c] job) := by
  obtain ⟨snapshot, hget, hparse⟩ := hsnapshot
  obtain ⟨hc, htype⟩ := parse_eq_ok hparse
  have hc' : (stampedConcept h now c).sourcePath = path := hc
  have hstamped : Stamped cx (stampedConcept h now c).frontmatter := ⟨now, rfl, hnow⟩
  obtain ⟨markdown, hmarkdown⟩ := exists_toMarkdown hcx hstamped
  apply ends_next (by rw [hc']; exact hpath) (by rw [hc']; exact hqueue) hmarkdown (.inl hsummary)
  intro s' hput hnewest
  rw [hc'] at hnewest
  apply ends_step rfl
  intro _ _
  simp only [taskStep]
  apply ends_regenList
  · intro e he
    obtain ⟨now', hregistry⟩ := hput.registry
    rw [hregistry] at he
    rcases path_of_mem_register he with hp | ⟨e', he', hp⟩
    · rw [hp, hc']
      exact hpath
    · rw [← hp]
      exact hstore.entries e' he'
  · left
    refine ⟨rfl, ⟨hreserved, hpath, c, ⟨snapshot, hget, hparse⟩, hvalid⟩, c,
      ⟨snapshot, hget, hparse⟩, ?_⟩
    exact restored_of_put hcx hreserved hpath hc htype hstamped hmarkdown hput (hnewest htag)

/-- **One restore.** It restores what can be restored, or fails and changes nothing. -/
theorem ends_restore {cx : Codec} (hcx : Faithful cx) {s : Store} (hstore : StoreOk cx s)
    {path : String} (no : ℕ) (h : Handle) (ch : Choice) (hqueue : isQueuePath path = false) :
    Ends cx (RestoreEnds cx s path no) s ((Call.restore path no).begin cx h ch.clock) := by
  have hfail {e : StoreError} (hnot : ¬ Restorable cx s path no) :
      Ends cx (RestoreEnds cx s path no) s (.finished (.error e)) :=
    ends_finished (.inr ⟨⟨e, rfl⟩, hnot, rfl⟩)
  simp only [Call.begin, hqueue, Bool.false_eq_true, if_false]
  apply ends_step rfl
  intro ch' hch'
  simp only [taskStep]
  split
  · rename_i e hget
    apply hfail
    rintro ⟨-, -, c, ⟨markdown, hget', -⟩, -⟩
    rw [hget] at hget'
    cases hget'
  · rename_i markdown hget
    split
    · rename_i e hparse
      apply hfail
      rintro ⟨-, -, c, ⟨markdown', hget', hparse'⟩, -⟩
      rw [hget] at hget'
      cases hget'
      rw [hparse] at hparse'
      cases hparse'
    · rename_i c hparse
      obtain ⟨hc, -⟩ := parse_eq_ok hparse
      have hsame {d : Concept} (hd : Snapshot cx s path no d) : d = c := by
        obtain ⟨markdown', hget', hparse'⟩ := hd
        rw [hget] at hget'
        cases hget'
        rw [hparse] at hparse'
        cases hparse'
        rfl
      simp only [putBatchWithRevision, stampAll_singleton, stamp_eq, hc]
      by_cases hreserved : isReserved path = true
      · simp only [hreserved, if_true, Except.map]
        apply hfail
        rintro ⟨hno, -⟩
        rw [hreserved] at hno
        cases hno
      · simp only [hreserved, Bool.false_eq_true, if_false]
        cases hvalid : c.frontmatter.validated cx with
        | error e =>
          apply hfail
          rintro ⟨-, -, d, hd, hvalid'⟩
          rw [hsame hd, hvalid] at hvalid'
          cases hvalid'
        | ok u =>
          simp only [Except.mapError, Except.map]
          by_cases hpath : validPath path = true
          · exact ends_restorePut hcx hstore hqueue (by simpa using hreserved) hpath
              ⟨markdown, hget, hparse⟩ hvalid (hch' 0) rfl rfl
          · -- the path is refused by the first read, before the record
            have hc' : (stampedConcept h (ch'.clock 0) c).sourcePath = path := hc
            have hstamped : Stamped cx (stampedConcept h (ch'.clock 0) c).frontmatter :=
              ⟨_, rfl, hch' 0⟩
            obtain ⟨file, hfile⟩ := exists_toMarkdown hcx hstamped
            apply ends_step rfl
            intro _ _
            simp only [taskStep, hfile, hc', hqueue, Bool.false_eq_true, if_false]
            apply ends_step rfl
            intro _ _
            simp only [taskStep, Store.read, hc', hpath, Bool.false_eq_true, if_false]
            apply hfail
            rintro ⟨-, hyes, -⟩
            exact hpath hyes

/-! ## There and back -/

/-- A call and its steps, with nothing in between. -/
def callRun (i : ℕ) (h : Handle) (call : Call) (ch : Choice) (chs : List Choice) : List Action :=
  .start i h call ch :: chs.map (.step i)

/-- INTERNAL: the steps of one task are the steps of its call. -/
theorem exec_steps (cx : Codec) (s : State) (i : ℕ) (chs : List Choice) :
    ∃ t, exec (step cx) s (chs.map (.step i)) = some t ∧
      (t.store, t.tasks i) = chs.foldl (next cx) (s.store, s.tasks i) := by
  induction chs generalizing s with
  | nil => exact ⟨s, rfl, rfl⟩
  | cons ch chs ih =>
    obtain ⟨t, hrun, ht⟩ := ih
      ({ s with store := (taskStep cx s.store ch (s.tasks i)).1 }.setTask i
        (taskStep cx s.store ch (s.tasks i)).2)
    refine ⟨t, ?_, ?_⟩
    · rw [List.map_cons, exec_cons_eq_some]
      exact ⟨_, rfl, hrun⟩
    · rw [ht, List.foldl_cons]
      simp only [State.setTask, if_true, next]

/-- INTERNAL: a run of one call, from the start of the call. -/
theorem exec_callRun (cx : Codec) {s : State} {i : ℕ} (h : Handle) (call : Call) (ch : Choice)
    (hfree : s.tasks i = .idle ∨ ∃ r, s.tasks i = .finished r) (chs : List Choice) :
    ∃ t, exec (step cx) s (callRun i h call ch chs) = some t ∧
      (t.store, t.tasks i) = chs.foldl (next cx) (s.store, call.begin cx h ch.clock) := by
  have hstart : step cx s (.start i h call ch) = some (s.setTask i (call.begin cx h ch.clock)) := by
    rcases hfree with hidle | ⟨r, hdone⟩
    · simp only [step, hidle]
    · simp only [step, hdone]
  obtain ⟨t, hrun, ht⟩ := exec_steps cx (s.setTask i (call.begin cx h ch.clock)) i chs
  refine ⟨t, ?_, ?_⟩
  · rw [callRun, exec_cons_eq_some]
    exact ⟨_, hstart, hrun⟩
  · rw [ht]
    simp only [State.setTask, if_true]

/-- INTERNAL: a call that starts has its task free. -/
theorem free_of_callRun {cx : Codec} {s t : State} {i : ℕ} {h : Handle} {call : Call} {ch : Choice}
    {chs : List Choice} (hrun : exec (step cx) s (callRun i h call ch chs) = some t) :
    s.tasks i = .idle ∨ ∃ r, s.tasks i = .finished r := by
  obtain ⟨s', hs, -⟩ := exec_cons_eq_some.mp hrun
  simp only [step] at hs
  split at hs
  · rename_i hidle
    exact .inl hidle
  · rename_i r hdone
    exact .inr ⟨r, hdone⟩
  · cases hs

/-- INTERNAL: a call that has returned ends as its steps do. -/
theorem post_of_callRun {cx : Codec} {s t : State} {i : ℕ} {h : Handle} {call : Call} {ch : Choice}
    {chs : List Choice} {r : Except StoreError Unit} {good : Choice → Prop}
    {post : Store → Except StoreError Unit → Prop}
    (hends : EndsFor good cx post s.store (call.begin cx h ch.clock)) (hgood : ∀ c ∈ chs, good c)
    (hrun : exec (step cx) s (callRun i h call ch chs) = some t)
    (hend : t.tasks i = .finished r) : post t.store r := by
  obtain ⟨t', hrun', ht'⟩ := exec_callRun cx h call ch (free_of_callRun hrun) chs
  rw [hrun] at hrun'
  cases hrun'
  have hresult : resultOf (chs.foldl (next cx) (s.store, call.begin cx h ch.clock)) = some r := by
    rw [← ht']
    simp only [resultOf, hend]
  have hpost := hends.post_of_run (fun _ c _ hr => next_of_result c hr) hgood hresult
  rw [← ht'] at hpost
  exact hpost

/-- INTERNAL: a stored concept that reads well is valid. -/
theorem valid_of_get {cx : Codec} (hcx : Faithful cx) {s : Store} (hstore : StoreOk cx s)
    {path : String} (hreserved : isReserved path = false) {c : Concept}
    (hget : s.get cx path = .ok c) :
    validPath path = true ∧ c.frontmatter.validated cx = .ok () ∧
      ∃ bytes, s.files path = some bytes ∧ Concept.parse cx path bytes = .ok c := by
  unfold Store.get at hget
  by_cases hpath : validPath path = true
  · rw [read_valid hpath] at hget
    cases hfile : s.files path with
    | none =>
      rw [hfile] at hget
      cases hget
    | some bytes =>
      rw [hfile] at hget
      obtain ⟨c₀, hc₀, hchecked, hmarkdown⟩ := hstore.files path bytes hreserved hfile
      have hparse := parse_toMarkdown hcx hchecked.stamped hmarkdown
      rw [hc₀] at hparse
      split at hparse
      · simp only [hparse] at hget
        cases hget
      · simp only [hparse] at hget
        cases hget
        exact ⟨hpath, hchecked.valid, bytes, rfl, hparse⟩
  · simp only [Store.read, hpath, Bool.false_eq_true, if_false] at hget
    cases hget

/-- Snapshots that cannot be restored: there is none, it is empty, it does not parse or its
concept is not valid. -/
def BadSnapshot (cx : Codec) (s : Store) (path : String) (no : ℕ) : Prop :=
  (∃ e, Model.Revisions.get s.revisions path no = .error e) ∨
    Model.Revisions.get s.revisions path no = .ok "" ∨
    (∃ markdown e, Model.Revisions.get s.revisions path no = .ok markdown ∧
      Concept.parse cx path markdown = .error e) ∨
    ∃ c e, Snapshot cx s path no c ∧ c.frontmatter.validated cx = .error e

theorem not_restorable_of_badSnapshot {cx : Codec} {s : Store} {path : String} {no : ℕ}
    (h : BadSnapshot cx s path no) : ¬ Restorable cx s path no := by
  rintro ⟨-, -, c, ⟨markdown, hget, hparse⟩, hvalid⟩
  rcases h with ⟨e, hget'⟩ | hget' | ⟨markdown', e, hget', hparse'⟩ |
    ⟨c', e, ⟨markdown', hget', hparse'⟩, hvalid'⟩
  · rw [hget] at hget'
    cases hget'
  · rw [hget] at hget'
    cases hget'
    cases hparse
  · rw [hget] at hget'
    cases hget'
    rw [hparse] at hparse'
    cases hparse'
  · rw [hget] at hget'
    cases hget'
    rw [hparse] at hparse'
    cases hparse'
    rw [hvalid] at hvalid'
    cases hvalid'

/-- INTERNAL: the row that a restore recorded restores what was there before. -/
theorem restores_prior {cx : Codec} (hcx : Faithful cx) {s t : State}
    (hs : StoreOk cx s.store) (ht : StoreOk cx t.store) {path : String} {c prior : Concept}
    (hqueue : isQueuePath path = false) (hreserved : isReserved path = false)
    (hrestored : Restored cx s.store path c t.store) (hprior : s.store.get cx path = .ok prior)
    {i : ℕ} (hfree : ∃ r, t.tasks i = .finished r) (h : Handle) (ch : Choice)
    (choices : ℕ → Choice) (hchoices : ∀ k, Clocked cx (choices k)) :
    ∃ k u, exec (step cx) t (callRun i h (.restore path (latestNo t.store.revisions path)) ch
        ((List.range k).map choices)) = some u ∧ u.tasks i = .finished (.ok ()) ∧
      ∃ again, u.store.get cx path = .ok again ∧ SameButStamps prior again := by
  obtain ⟨hpath, hvalid, bytes, hbytes, hparse⟩ := valid_of_get hcx hs hreserved hprior
  have hsnapshot : Snapshot cx t.store path (latestNo t.store.revisions path) prior :=
    ⟨bytes, hrestored.newest bytes hbytes, hparse⟩
  have hends := ends_restore hcx ht (latestNo t.store.revisions path) h ch hqueue
  obtain ⟨k, r, hresult, hpost⟩ := hends.exists_result choices hchoices
  obtain ⟨u, hrun, hu⟩ := exec_callRun cx h (.restore path (latestNo t.store.revisions path)) ch
    (Or.inr hfree) ((List.range k).map choices)
  rw [← hu] at hresult hpost
  rcases hpost with ⟨rfl, -, c', hc', hrestored'⟩ | ⟨-, hnot, -⟩
  · refine ⟨k, u, hrun, ?_, ?_⟩
    · simp only [resultOf] at hresult
      split at hresult
      · rename_i x hpc
        cases hresult
        exact hpc
      · cases hresult
    · have hsame : c' = prior := by
        obtain ⟨markdown, hget, hparse'⟩ := hc'
        obtain ⟨markdown', hget', hparse''⟩ := hsnapshot
        rw [hget] at hget'
        cases hget'
        rw [hparse'] at hparse''
        cases hparse''
        rfl
      rw [← hsame]
      exact hrestored'.reads
  · exact absurd ⟨hreserved, hpath, prior, hsnapshot, hvalid⟩ hnot

/-- **Restore is reversible.** From every reachable state, a restore that returned without an
error has put the concept of the snapshot back, but for the stamps and the line endings; the
newest revision holds the bytes it found, and restoring that one gives the concept that was
there again; of other paths only the generated indexes are rewritten. A snapshot that is
missing, empty, unparseable or invalid leaves the store as it was.
SOURCE: concept_store.rs:434-454 -/
theorem restore_reversible {cx : Codec} (hcx : Faithful cx) (scopeId : String) {as : List Action}
    {s t : State} (hrun : exec (step cx) (State.init scopeId) as = some s)
    (hclock : ∀ a ∈ as, ActionClocked cx a) {path : String} {no i : ℕ} {h : Handle} {ch : Choice}
    {chs : List Choice} {r : Except StoreError Unit} (hqueue : isQueuePath path = false)
    (hch : Clocked cx ch) (hchs : ∀ c ∈ chs, Clocked cx c)
    (hcall : exec (step cx) s (callRun i h (.restore path no) ch chs) = some t)
    (hend : t.tasks i = .finished r) :
    (r = .ok () → ∃ c, Snapshot cx s.store path no c ∧ Restored cx s.store path c t.store ∧
      ∀ prior, s.store.get cx path = .ok prior → ∀ (h' : Handle) (ch' : Choice)
        (choices : ℕ → Choice), (∀ k, Clocked cx (choices k)) →
        ∃ k u, exec (step cx) t (callRun i h' (.restore path (latestNo t.store.revisions path))
            ch' ((List.range k).map choices)) = some u ∧ u.tasks i = .finished (.ok ()) ∧
          ∃ again, u.store.get cx path = .ok again ∧ SameButStamps prior again) ∧
      (BadSnapshot cx s.store path no → (∃ e, r = .error e) ∧ t.store = s.store) := by
  have hs := inv_exec (inv_init cx scopeId) hclock hrun
  have hcallClock : ∀ a ∈ callRun i h (.restore path no) ch chs, ActionClocked cx a := by
    intro a ha
    rcases List.mem_cons.mp ha with rfl | ha
    · exact hch
    · obtain ⟨c, hc, rfl⟩ := List.mem_map.mp ha
      exact hchs c hc
  have ht := inv_exec hs hcallClock hcall
  have hends := post_of_callRun (ends_restore hcx hs.store no h ch hqueue) hchs hcall hend
  refine ⟨?_, ?_⟩
  · intro hok
    rcases hends with ⟨-, hrestorable, c, hsnapshot, hrestored⟩ | ⟨⟨e, he⟩, -, -⟩
    · refine ⟨c, hsnapshot, hrestored, ?_⟩
      intro prior hprior h' ch' choices hchoices
      exact restores_prior hcx hs.store ht.store hqueue hrestorable.1 hrestored hprior
        ⟨r, hend⟩ h' ch' choices hchoices
    · rw [hok] at he
      cases he
  · intro hbad
    rcases hends with ⟨-, hrestorable, -⟩ | ⟨herror, -, hsame⟩
    · exact absurd hrestorable (not_restorable_of_badSnapshot hbad)
    · exact ⟨herror, hsame⟩

/-! ## Two histories -/

def noteChoice : Choice := { clock := fun _ => noteTime }

/-- A note at `/port.md`. -/
def note (body : String) : Concept where
  frontmatter := { conceptType := "note" }
  body := body
  sourcePath := "/port.md"

/-- A call that runs to its end. -/
def wholeCall (call : Call) : List Action :=
  callRun 0 {} call noteChoice (List.replicate 14 noteChoice)

theorem noteChoice_clocked : Clocked noteCodec noteChoice := by
  intro _
  show decide (noteTime = noteTime) = true
  decide

/-- INTERNAL: the steps of a whole call have a clock. -/
theorem replicate_clocked : ∀ ch ∈ List.replicate 14 noteChoice, Clocked noteCodec ch := by
  intro ch hch
  rw [List.eq_of_mem_replicate hch]
  exact noteChoice_clocked

theorem wholeCall_clocked (call : Call) : ∀ a ∈ wholeCall call, ActionClocked noteCodec a := by
  intro a ha
  rcases List.mem_cons.mp ha with rfl | ha
  · exact noteChoice_clocked
  · obtain ⟨c, hc, rfl⟩ := List.mem_map.mp ha
    exact replicate_clocked c hc

/-- Has the first task returned without an error? -/
def succeeded (s : State) : Bool :=
  match s.tasks 0 with
  | .finished (.ok ()) => true
  | _ => false

theorem task_of_succeeded {s : State} (h : succeeded s = true) :
    s.tasks 0 = .finished (.ok ()) := by
  unfold succeeded at h
  split at h
  · assumption
  · cases h

/-- INTERNAL: a history and the restore after it, from one evaluation. -/
theorem exec_history {as bs : List Action}
    (h : ((exec (step noteCodec) (State.init "user:1") (as ++ bs)).map succeeded) = some true) :
    ∃ s t, exec (step noteCodec) (State.init "user:1") as = some s ∧
      exec (step noteCodec) s bs = some t ∧ t.tasks 0 = .finished (.ok ()) := by
  obtain ⟨t, hrun, hend⟩ := Option.map_eq_some_iff.mp h
  rw [exec_append, Option.bind_eq_some_iff] at hrun
  obtain ⟨s, hs, ht⟩ := hrun
  exact ⟨s, t, hs, ht, task_of_succeeded hend⟩

set_option maxRecDepth 4000 in
/-- A note is written twice and its first version restored. -/
theorem restore_reversible_editing :
    ∃ s t c, exec (step noteCodec) (State.init "user:1")
        (wholeCall (.put (note "8080")) ++ wholeCall (.put (note "8081"))) = some s ∧
      exec (step noteCodec) s (wholeCall (.restore "/port.md" 2)) = some t ∧
      Snapshot noteCodec s.store "/port.md" 2 c ∧
      Restored noteCodec s.store "/port.md" c t.store := by
  obtain ⟨s, t, hs, ht, hend⟩ := exec_history
    (show ((exec (step noteCodec) (State.init "user:1")
      ((wholeCall (.put (note "8080")) ++ wholeCall (.put (note "8081"))) ++
        wholeCall (.restore "/port.md" 2))).map succeeded) = some true by decide)
  have hclock : ∀ a ∈ wholeCall (.put (note "8080")) ++ wholeCall (.put (note "8081")),
      ActionClocked noteCodec a := by
    intro a ha
    rcases List.mem_append.mp ha with ha | ha
    · exact wholeCall_clocked _ a ha
    · exact wholeCall_clocked _ a ha
  obtain ⟨c, hsnapshot, hrestored, -⟩ := (restore_reversible faithful_noteCodec "user:1" hs hclock
    (by decide) noteChoice_clocked replicate_clocked ht hend).1 rfl
  exact ⟨s, t, c, hs, ht, hsnapshot, hrestored⟩

set_option maxRecDepth 4000 in
/-- Undeleting a note lists it in the index of its directory again, another path. -/
theorem restore_rewrites_index :
    ∃ s t, exec (step noteCodec) (State.init "user:1")
        (wholeCall (.put (note "8080")) ++ wholeCall (.delete "/port.md")) = some s ∧
      exec (step noteCodec) s (wholeCall (.restore "/port.md" 1)) = some t ∧
      t.tasks 0 = .finished (.ok ()) ∧ t.store.files "/index.md" ≠ s.store.files "/index.md" := by
  obtain ⟨s, hs, hbefore⟩ := Option.map_eq_some_iff.mp
    (show ((exec (step noteCodec) (State.init "user:1")
      (wholeCall (.put (note "8080")) ++ wholeCall (.delete "/port.md"))).map
        fun s => s.store.files "/index.md") = some (some "# Knowledge Base\n\n") by decide)
  obtain ⟨t, ht, hafter⟩ := Option.map_eq_some_iff.mp
    (show ((exec (step noteCodec) (State.init "user:1")
      ((wholeCall (.put (note "8080")) ++ wholeCall (.delete "/port.md")) ++
        wholeCall (.restore "/port.md" 1))).map
        fun t => (succeeded t, t.store.files "/index.md")) =
      some (true, some "# Knowledge Base\n\n* [/port.md](port.md) [note]\n") by decide)
  obtain ⟨hend, hfile⟩ := Prod.mk.inj hafter
  rw [exec_append, hs, Option.bind_some] at ht
  refine ⟨s, t, hs, ht, task_of_succeeded hend, ?_⟩
  rw [hbefore, hfile]
  decide

end Mycelium.Analysis.RestoreReversal
