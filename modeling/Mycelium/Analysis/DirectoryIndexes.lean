import Mycelium.Analysis.IndexListing
import Mycelium.Analysis.OrdinaryPaths
import Mycelium.Analysis.RestoreReversal

/-!
# The indexes of a scope's directories

Every call that returns without an error writes the indexes of the directories that hold a
concept, and of the root. An index that is not written any more stays as it was.

1. *One call* does nothing, lets the registry grow, or takes one concept out of it, and then
   regenerates (`Effect`, `ends_begin`).
2. *The invariant.* Each stored index belongs to a directory that holds a concept, or to the
   root, and has the text of now (`Indexed`). A call keeps it when it takes the last concept of
   no directory (`indexed_of_effect`).
3. *A sequence of calls* leaves indexes that mirror the registry (`indexes_mirror`).
-/

set_option autoImplicit false

namespace Mycelium.Analysis.DirectoryIndexes

open StepSystem
open Mycelium.Model.Text Mycelium.Model.Concepts
open Mycelium.Model.ConceptStore Mycelium.Model.StoreTasks
open Mycelium.Analysis.ConceptRoundTrip Mycelium.Analysis.CallCompletion
open Mycelium.Analysis.OrdinaryPaths Mycelium.Analysis.IndexListing
open Mycelium.Analysis.RestoreReversal

variable {cx : Codec} {s s' t : Store}

/-! ## One call -/

structure Tidy (s : Store) : Prop extends Ordinary s where
  plain : ∀ e ∈ s.registry, PlainPath e.path

/-- The registry has grown; the files of reserved names are as they were. -/
structure Grown (s s' : Store) : Prop where
  tidy : Tidy s'
  keeps : ∀ q, s.registered q = true → s'.registered q = true
  files : ∀ q, isReserved q = true → s'.files q = s.files q

theorem tidy_put (hs : Tidy s) {c : Concept} {markdown : String} (hput : Put s c markdown s')
    (hvalid : validPath c.sourcePath = true) (haccepts : Accepts c.sourcePath)
    (hplain : PlainPath c.sourcePath) : Tidy s' := by
  obtain ⟨now, hregistry⟩ := hput.registry
  refine ⟨(ordinary_register hs.toOrdinary now hvalid haccepts).of_registry hregistry, ?_⟩
  intro e he
  rw [hregistry] at he
  rcases path_of_mem_register he with hpath | ⟨d, hd, hpath⟩
  · rw [hpath]
    exact hplain
  · rw [← hpath]
    exact hs.plain d hd

theorem grown_put (h : Grown s s') {c : Concept} {markdown : String} (hput : Put s' c markdown t)
    (hvalid : validPath c.sourcePath = true) (haccepts : Accepts c.sourcePath)
    (hplain : PlainPath c.sourcePath) : Grown s t where
  tidy := tidy_put h.tidy hput hvalid haccepts hplain
  keeps q hq := by rw [registered_of_put hput q, h.keeps q hq, Bool.true_or]
  files q hq := by
    have hne : q ≠ c.sourcePath := by
      rintro rfl
      rw [haccepts.2] at hq
      cases hq
    rw [hput.files, ← h.files q hq]
    exact if_neg hne

/-- What a call that runs alone does. -/
inductive Effect (s : Store) : Call → Store → Prop
  | nothing {call : Call} {t : Store} (h : Unchanged s t) : Effect s call t
  | document {call : Call} {t : Store} (hf : t.files = s.files) (hr : t.registry = s.registry) :
      Effect s call t
  | grown {call : Call} {s' : Store} (h : Grown s s') : Effect s call (regenerated s' none)
  | removed {path : String} {s' : Store} (h : Removed s path s') :
      Effect s (.delete path) (regenerated s' (some path))

/-- What is asked of a concept that is written. -/
structure Writable (cx : Codec) (c : Concept) : Prop where
  accepted : Accepts c.sourcePath
  plain : PlainPath c.sourcePath
  printed : ∃ markdown, c.toMarkdown cx = .ok markdown

/-- INTERNAL: the rest of a batch, whose paths are valid. -/
theorem ends_grown {call : Call} {todo : List Concept} {job : Job} (h : Grown s s')
    (htodo : ∀ c ∈ todo, Writable cx c ∧ validPath c.sourcePath = true)
    (hjob : job.summary.isSome = true ∨ job.tag ≠ some .restore) :
    Ends cx (fun t _ => Effect s call t) s' (.next todo job) := by
  induction todo generalizing s' with
  | nil =>
    apply ends_step rfl
    intro _ _
    exact ends_regenList h.tidy.valid (.grown h)
  | cons c todo ih =>
    obtain ⟨hc, hvalid⟩ := htodo c List.mem_cons_self
    obtain ⟨markdown, hmarkdown⟩ := hc.printed
    apply ends_next hvalid hc.accepted.1 hmarkdown hjob
    intro t hput _
    exact ih (grown_put h hput hvalid hc.accepted hc.plain)
      fun d hd => htodo d (List.mem_cons_of_mem c hd)

/-- The loop of a batch. When its first concept fails nothing is written yet. -/
theorem ends_batch_effect (hs : Tidy s) {call : Call} {c : Concept} {todo : List Concept} {job : Job}
    (hc : Writable cx c) (htodo : ∀ d ∈ todo, Writable cx d ∧ validPath d.sourcePath = true) :
    Ends cx (fun t _ => Effect s call t) s (.next (c :: todo) job) := by
  apply ends_next_or_fails (fun t e h => .nothing h) hc.accepted.1
  intro s' markdown hvalid hmarkdown hjob hput
  exact ends_grown (grown_put ⟨hs, fun _ => id, fun _ _ => rfl⟩ hput hvalid hc.accepted hc.plain)
    htodo hjob

/-- INTERNAL: a batch from its stamping on; only the paths after the first one could fail in
the middle. -/
theorem ends_stamped (hcx : Faithful cx) (hs : Tidy s) {call : Call} {cs : List Concept} {job : Job}
    {clock : ℕ → String} (hclock : ∀ i, cx.isRfc3339 (clock i) = true)
    (hcs : ∀ c ∈ cs, isQueuePath c.sourcePath = false ∧ PlainPath c.sourcePath)
    (hvalid : ∀ q ∈ (cs.map Concept.sourcePath).tail, validPath q = true) :
    Ends cx (fun t _ => Effect s call t) s (putBatchWithRevision cx cs job clock) := by
  cases cs with
  | nil => exact ends_finished (.nothing (.refl s))
  | cons c cs =>
    simp only [putBatchWithRevision]
    cases hst : stampAll cx job.handle clock 0 (c :: cs) with
    | error e => exact ends_finished (.nothing (.refl s))
    | ok stamped =>
      have hpaths := paths_stampAll hst
      have hwritable : ∀ d ∈ stamped, Writable cx d := by
        intro d hd
        obtain ⟨d', hd', j, hstamp⟩ := stamp_of_mem_stampAll hst hd
        obtain ⟨hpath, hreserved⟩ := stamp_eq_ok hstamp
        obtain ⟨hqueue, hplain⟩ := hcs d' hd'
        rw [← hpath] at hqueue hplain
        exact ⟨⟨hqueue, hreserved⟩, hplain,
          exists_toMarkdown hcx (checked_of_stamp (hclock j) hstamp).stamped⟩
      cases stamped with
      | nil => cases hpaths
      | cons d rest =>
        apply ends_batch_effect hs (hwritable d List.mem_cons_self)
        intro d' hd'
        refine ⟨hwritable d' (List.mem_cons_of_mem d hd'), ?_⟩
        apply hvalid
        rw [← hpaths]
        exact List.mem_map_of_mem hd'

/-- The calls of the sequence: their paths have no directory with an empty name, and those of
a batch, which could fail in the middle, are absolute. -/
def Formed : Call → Prop
  | .put c => PlainPath c.sourcePath
  | .putBatch cs => ∀ c ∈ cs, validPath c.sourcePath = true ∧ PlainPath c.sourcePath
  | .restore path _ => PlainPath path
  | .delete _ | .reindex _ => True
  | .putBatchInternal _ | .deleteInternal _ => False

/-- **One call.** -/
theorem ends_begin (hcx : Faithful cx) (hs : Tidy s) (h : Handle) {call : Call}
    (hcall : Formed call) {ch : Choice} (hch : Clocked cx ch) :
    Ends cx (fun t _ => Effect s call t) s (call.begin cx h ch.clock) := by
  have hnothing {e : StoreError} :
      Ends cx (fun t _ => Effect s call t) s (.finished (.error e)) :=
    ends_finished (.nothing (.refl s))
  cases call with
  | put c =>
    simp only [Call.begin]
    split
    · exact hnothing
    · rename_i hqueue
      apply ends_stamped hcx hs hch
      · intro d hd
        rw [List.mem_singleton.mp hd]
        exact ⟨eq_false_of_ne_true hqueue, hcall⟩
      · intro q hq
        cases hq
  | putBatch cs =>
    simp only [Call.begin]
    split
    · exact hnothing
    · rename_i hfind
      apply ends_stamped hcx hs hch
      · intro c hc
        exact ⟨eq_false_of_ne_true (List.find?_eq_none.mp hfind c hc), (hcall c hc).2⟩
      · intro q hq
        obtain ⟨c, hc, rfl⟩ := List.mem_map.mp (List.mem_of_mem_tail hq)
        exact (hcall c hc).1
  | restore path no =>
    simp only [Call.begin]
    split
    · exact hnothing
    · rename_i hqueue
      apply ends_step rfl
      intro ch' hch'
      simp only [taskStep]
      split
      · exact hnothing
      · split
        · exact hnothing
        · rename_i c hparse
          obtain ⟨hpath, -⟩ := parse_eq_ok hparse
          dsimp only
          apply ends_stamped hcx hs hch'
          · intro d hd
            rw [List.mem_singleton.mp hd, hpath]
            exact ⟨eq_false_of_ne_true hqueue, hcall⟩
          · intro q hq
            cases hq
  | delete path =>
    simp only [Call.begin]
    split
    · exact hnothing
    · rename_i hqueue
      by_cases hvalid : validPath path = true
      · cases hfile : s.files path with
        | none => exact ends_deleteRead_missing hvalid hfile (.nothing (.refl s))
        | some pre =>
          apply ends_deleteRead hvalid (eq_false_of_ne_true hqueue) hfile hs.valid
          intro s' hremoved
          exact .removed hremoved
      · apply ends_step rfl
        intro _ _
        simp only [taskStep, Store.read, hvalid, Bool.false_eq_true, if_false]
        exact hnothing
  | reindex path =>
    simp only [Call.begin]
    split
    · exact hnothing
    · apply ends_step rfl
      intro _ _
      simp only [taskStep]
      split
      · exact hnothing
      · exact hnothing
      · split
        · exact hnothing
        · exact ends_step rfl fun _ _ => ends_finished (.document rfl rfl)
  | putBatchInternal cs => exact hcall.elim
  | deleteInternal path => exact hcall.elim

/-! ## The invariant -/

/-- A stored index belongs to the root or to a directory that holds a concept, and it has the
text of now. -/
structure Indexed (s : Store) : Prop where
  tidy : Tidy s
  stored : ∀ dir content, s.files (dir ++ "/index.md") = some content →
    dir ∈ indexDirs s.list ∧ content = indexText s.list dir

/-- The call takes the last concept of no directory but the root. -/
def Keeps (s : Store) : Call → Prop
  | .delete path => ∀ e ∈ s.registry, e.path = path →
      dirOf e = "" ∨ ∃ d ∈ s.registry, d.path ≠ path ∧ dirOf d = dirOf e
  | _ => True

/-- INTERNAL: the directories of the listing. -/
theorem mem_indexDirs_list {dir : String} :
    dir ∈ indexDirs s.list ↔ dir = "" ∨ ∃ e ∈ s.registry, dirOf e = dir := by
  rw [mem_indexDirs]
  simp only [mem_list]

/-- INTERNAL: a regeneration, when every stored index is of a directory that is there still. -/
theorem indexed_regenerated (htidy : Tidy s') (deleted : Option String)
    (h : ∀ dir content, s'.files (dir ++ "/index.md") = some content → dir ∈ indexDirs s'.list) :
    Indexed (regenerated s' deleted) := by
  have hregistry := (regenerated_fields s' deleted).1
  have hlist : (regenerated s' deleted).list = s'.list := by
    unfold Store.list
    rw [hregistry]
  refine ⟨⟨htidy.toOrdinary.of_registry hregistry, ?_⟩, ?_⟩
  · rw [hregistry]
    exact htidy.plain
  · intro dir content hfile
    rw [files_regenerated_index] at hfile
    rw [hlist]
    split at hfile
    · rename_i hdir
      exact ⟨hdir, (Option.some.inj hfile).symm⟩
    · rename_i hdir
      exact absurd (h dir content hfile) hdir

/-- **One call keeps the invariant.** -/
theorem indexed_of_effect (hs : Indexed s) {call : Call} (hkeeps : Keeps s call)
    (h : Effect s call t) : Indexed t := by
  have hsame (hf : t.files = s.files) (hr : t.registry = s.registry) : Indexed t := by
    refine ⟨⟨hs.tidy.toOrdinary.of_registry hr, ?_⟩, ?_⟩
    · rw [hr]
      exact hs.tidy.plain
    · unfold Store.list
      rw [hf, hr]
      exact hs.stored
  cases h with
  | nothing h => exact hsame h.files h.registry
  | document hf hr => exact hsame hf hr
  | grown hgrown =>
    apply indexed_regenerated hgrown.tidy
    intro dir content hfile
    rw [hgrown.files _ (isReserved_index dir)] at hfile
    have hdir := (hs.stored dir content hfile).1
    rw [mem_indexDirs_list] at hdir ⊢
    apply hdir.imp_right
    rintro ⟨e, he, rfl⟩
    obtain ⟨d, hd, hpath⟩ := registered_iff.mp
      (hgrown.keeps e.path (registered_iff.mpr ⟨e, he, rfl⟩))
    refine ⟨d, hd, ?_⟩
    unfold dirOf
    rw [hpath]
  | @removed path s' hremoved =>
    apply indexed_regenerated
    · refine ⟨(ordinary_unregister hs.tidy.toOrdinary path).of_registry hremoved.registry, ?_⟩
      intro e he
      rw [hremoved.registry] at he
      exact hs.tidy.plain e (List.mem_of_mem_filter he)
    · intro dir content hfile
      have hmem (e : ConceptEntry) (he : e ∈ s.registry) (hne : e.path ≠ path) : e ∈ s'.registry := by
        rw [hremoved.registry]
        exact List.mem_filter.mpr ⟨he, decide_eq_true hne⟩
      rw [hremoved.files] at hfile
      dsimp only at hfile
      split at hfile
      · cases hfile
      · have hdir := (hs.stored dir content hfile).1
        rw [mem_indexDirs_list] at hdir ⊢
        rcases hdir with hroot | ⟨e, he, rfl⟩
        · exact .inl hroot
        · by_cases hpath : e.path = path
          · apply (hkeeps e he hpath).imp_right
            rintro ⟨d, hd, hne, hsub⟩
            exact ⟨d, hmem d hd hne, hsub⟩
          · exact .inr ⟨e, hmem e he hpath, rfl⟩

/-! ## Sequences of calls -/

/-- Calls that have returned, one after the other, each with the condition on the store that it
found. -/
inductive Sequence (cx : Codec) (ok : Store → Call → Prop) (s₀ : State) : State → Prop
  | start : Sequence cx ok s₀ s₀
  | call {s t : State} {i : ℕ} {h : Handle} {call : Call} {ch : Choice} {chs : List Choice}
      {r : Except StoreError Unit} (hbefore : Sequence cx ok s₀ s) (hok : ok s.store call)
      (hch : Clocked cx ch) (hchs : ∀ c ∈ chs, Clocked cx c)
      (hrun : exec (step cx) s (callRun i h call ch chs) = some t)
      (hend : t.tasks i = .finished r) : Sequence cx ok s₀ t

theorem indexed_init (scopeId : String) : Indexed (State.init scopeId).store where
  tidy := ⟨ordinary_empty scopeId, by simp [State.init, Store.empty]⟩
  stored dir content h := by cases h

/-- **The indexes mirror the registry** after every sequence of calls of which none takes the
last concept of a directory. SOURCE: concept_store.rs:466-548, 612-665 -/
theorem indexes_mirror (hcx : Faithful cx) (scopeId : String) {x : State}
    (hrun : Sequence cx (fun s call => Formed call ∧ Keeps s call) (State.init scopeId) x)
    (dir content : String) (hfile : x.store.files (dir ++ "/index.md") = some content) :
    Mirrors x.store.registry dir content := by
  have hindexed : Indexed x.store := by
    clear hfile
    induction hrun with
    | start => exact indexed_init scopeId
    | @call s t i h call ch chs r hbefore hok hch hchs hrun hend ih =>
      have heffect : Effect s.store call t.store :=
        post_of_callRun (ends_begin hcx ih.tidy h hok.1 hch) hchs hrun hend
      exact indexed_of_effect ih hok.2 heffect
  rw [(hindexed.stored dir content hfile).2]
  exact lists_indexText hindexed.tidy.distinct hindexed.tidy.valid hindexed.tidy.plain dir

/-! ## Two notes in a directory -/

def noteAt (path : String) : Concept := { note "8080" with sourcePath := path }

theorem formed_noteAt {path : String} (h : PlainPath path) : Formed (.put (noteAt path)) := h

theorem sequence_wholeCall {ok : Store → Call → Prop} {s₀ s t : State} {call : Call}
    (hbefore : Sequence noteCodec ok s₀ s) (hok : ok s.store call)
    (hrun : exec (step noteCodec) s (wholeCall call) = some t) (hend : succeeded t = true) :
    Sequence noteCodec ok s₀ t :=
  .call hbefore hok noteChoice_clocked replicate_clocked hrun (task_of_succeeded hend)

/-- The paths that are listed when a call has succeeded. -/
def listed (s : State) : Option (List String) :=
  if succeeded s then some (s.store.registry.map ConceptEntry.path) else none

theorem listed_eq_some {s : State} {paths : List String} (h : listed s = some paths) :
    succeeded s = true ∧ s.store.registry.map ConceptEntry.path = paths := by
  unfold listed at h
  split at h
  · rename_i hend
    exact ⟨hend, Option.some.inj h⟩
  · cases h

set_option maxRecDepth 8000 in
/-- One of two notes is deleted. -/
theorem indexes_mirror_twoNotes : ∃ x : State,
    x.store.files "/a/index.md" = some "# a\n\n* [/a/y.md](y.md) [note]\n" ∧
      Mirrors x.store.registry "/a" "# a\n\n* [/a/y.md](y.md) [note]\n" := by
  obtain ⟨x, hx, hfile⟩ := Option.map_eq_some_iff.mp
    (show ((exec (step noteCodec) (State.init "user:1") (wholeCall (.put (noteAt "/a/x.md")) ++
      (wholeCall (.put (noteAt "/a/y.md")) ++ wholeCall (.delete "/a/x.md")))).map
        fun s => (listed s, s.store.files "/a/index.md")) =
          some (some ["/a/y.md"], some "# a\n\n* [/a/y.md](y.md) [note]\n") by decide +kernel)
  obtain ⟨s, hs, hfirst⟩ := Option.map_eq_some_iff.mp
    (show ((exec (step noteCodec) (State.init "user:1")
      (wholeCall (.put (noteAt "/a/x.md")))).map listed) = some (some ["/a/x.md"]) by decide +kernel)
  obtain ⟨t, ht, hsecond⟩ := Option.map_eq_some_iff.mp
    (show ((exec (step noteCodec) (State.init "user:1") (wholeCall (.put (noteAt "/a/x.md")) ++
      wholeCall (.put (noteAt "/a/y.md")))).map listed) = some (some ["/a/x.md", "/a/y.md"]) by
        decide +kernel)
  obtain ⟨hlisted, hindex⟩ := Prod.mk.inj hfile
  rw [exec_append, hs, Option.bind_some] at ht
  rw [exec_append, hs, Option.bind_some, exec_append, ht, Option.bind_some] at hx
  have hseq₁ : Sequence noteCodec (fun s call => Formed call ∧ Keeps s call)
      (State.init "user:1") s :=
    sequence_wholeCall .start ⟨formed_noteAt (by decide), trivial⟩ hs (listed_eq_some hfirst).1
  have hseq₂ := sequence_wholeCall hseq₁ ⟨formed_noteAt (by decide), trivial⟩ ht
    (listed_eq_some hsecond).1
  have hkeeps : Keeps t.store (.delete "/a/x.md") := by
    obtain ⟨d, hd, hpath⟩ := List.mem_map.mp
      (show "/a/y.md" ∈ t.store.registry.map ConceptEntry.path by
        rw [(listed_eq_some hsecond).2]
        decide)
    intro e _ he
    right
    refine ⟨d, hd, ?_, ?_⟩
    · rw [hpath]
      decide
    · unfold dirOf
      rw [hpath, he]
      decide
  have hdelete : Formed (.delete "/a/x.md") := trivial
  have hseq₃ := sequence_wholeCall hseq₂ ⟨hdelete, hkeeps⟩ hx (listed_eq_some hlisted).1
  exact ⟨x, hindex, indexes_mirror faithful_noteCodec "user:1" hseq₃ "/a" _ hindex⟩

/-- INTERNAL: an index of an empty registry. -/
theorem eq_of_mirrors_nil {dir content : String} (h : Mirrors [] dir content) :
    content = renderIndex dir [] [] := by
  obtain ⟨bullets, subdirs, rfl, hlists⟩ := h
  have hbullets : bullets = [] := by
    apply List.eq_nil_iff_forall_not_mem.mpr
    intro e he
    cases ((hlists.concepts e).mp he).1
  have hsubdirs : subdirs = [] := by
    apply List.eq_nil_iff_forall_not_mem.mpr
    intro y hy
    obtain ⟨-, e, he, -⟩ := (hlists.children y.sub).mp (List.mem_map_of_mem hy)
    cases he
  rw [hbullets, hsubdirs]

set_option maxRecDepth 8000 in
/-- The only note of a directory is deleted. -/
theorem last_note_listed :
    ¬ ∀ (cx : Codec) (scopeId : String) (x : State) (dir content : String), Faithful cx →
      Sequence cx (fun _ call => Formed call) (State.init scopeId) x →
      x.store.files (dir ++ "/index.md") = some content → Mirrors x.store.registry dir content := by
  intro hall
  obtain ⟨x, hx, hend⟩ := Option.map_eq_some_iff.mp
    (show ((exec (step noteCodec) (State.init "user:1") (wholeCall (.put (noteAt "/a/x.md")) ++
      wholeCall (.delete "/a/x.md"))).map fun s => (listed s, s.store.files "/a/index.md")) =
        some (some [], some "# a\n\n* [/a/x.md](x.md) [note]\n") by decide +kernel)
  obtain ⟨s, hs, hfirst⟩ := Option.map_eq_some_iff.mp
    (show ((exec (step noteCodec) (State.init "user:1")
      (wholeCall (.put (noteAt "/a/x.md")))).map listed) = some (some ["/a/x.md"]) by decide +kernel)
  obtain ⟨hlisted, hindex⟩ := Prod.mk.inj hend
  rw [exec_append, hs, Option.bind_some] at hx
  have hseq₁ : Sequence noteCodec (fun _ call => Formed call) (State.init "user:1") s :=
    sequence_wholeCall .start (formed_noteAt (by decide)) hs (listed_eq_some hfirst).1
  have hseq₂ := sequence_wholeCall hseq₁ (show Formed (.delete "/a/x.md") from trivial) hx
    (listed_eq_some hlisted).1
  have hmirrors := hall noteCodec "user:1" x "/a" _ faithful_noteCodec hseq₂ hindex
  have hempty : x.store.registry = [] := List.map_eq_nil_iff.mp (listed_eq_some hlisted).2
  rw [hempty] at hmirrors
  have htext := eq_of_mirrors_nil hmirrors
  revert htext
  decide

end Mycelium.Analysis.DirectoryIndexes
