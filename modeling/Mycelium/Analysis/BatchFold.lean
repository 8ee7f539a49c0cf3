import Mycelium.Analysis.RestoreReversal

/-!
# A batch of puts and the puts one by one

`put_batch` stamps and checks all its concepts before it writes the first, and regenerates the
indexes once, after the last. Calling `put` for each concept checks, writes and regenerates one
after the other.

1. *The same but for the time.* `Alike` compares two stores up to the readings of the clock: in
   the stamps, the registry rows, the revision rows.
2. *One write* takes stores that agree to stores that agree (`matched_wrote`): what it records
   depends on what is there.
3. *The loop against the puts.* While a batch is in its loop its indexes are those from before,
   and those of the puts are of now (`Behind`, `behind_wrote`). The regeneration at the end
   makes up for it (`alike_regenerated`).
4. *The calls.* A batch with a concept that a put refuses changes nothing, and any other does
   what the puts do (`batch_fold`).
-/

set_option autoImplicit false

namespace Mycelium.Analysis.BatchFold

open StepSystem
open Mycelium.Model.Text Mycelium.Model.Concepts Mycelium.Model.Revisions
open Mycelium.Model.ConceptStore Mycelium.Model.StoreTasks
open Mycelium.Analysis.ConceptRoundTrip Mycelium.Analysis.CallCompletion
open Mycelium.Analysis.RestoreReversal
open Completion

variable {cx : Codec} {s b b' t t' : Store}

/-! ## The same but for the time -/

/-- The concept without its stamp. -/
def unstamped (c : Concept) : Concept :=
  { c with frontmatter := { c.frontmatter with confirmedAt := none } }

/-- One text, or two markdowns of one concept with two stamps. -/
def SameText (cx : Codec) (x y : String) : Prop :=
  x = y ∨ ∃ c c', unstamped c = unstamped c' ∧ c.toMarkdown cx = .ok x ∧ c'.toMarkdown cx = .ok y

structure SameRow (cx : Codec) (r r' : Revision) : Prop where
  path : r.path = r'.path
  revisionNo : r.revisionNo = r'.revisionNo
  op : r.op = r'.op
  source : r.source = r'.source
  summary : r.summary = r'.summary
  payload : SameText cx r.payload r'.payload

def undated (e : ConceptEntry) : ConceptEntry := { e with updatedAt := "" }

/-- The stores agree but for the time and the files of reserved names. -/
structure Matched (cx : Codec) (b t : Store) : Prop where
  files : ∀ q, isReserved q = false → Option.Rel (SameText cx) (b.files q) (t.files q)
  registry : b.registry.map undated = t.registry.map undated
  index : ∀ q, (b.index q).map unstamped = (t.index q).map unstamped
  revisions : List.Forall₂ (SameRow cx) b.revisions t.revisions

/-- The stores agree but for the time; their indexes are the same. -/
structure Alike (cx : Codec) (b t : Store) : Prop extends Matched cx b t where
  indexes : ∀ q, isReserved q = true → b.files q = t.files q

theorem SameText.refl (x : String) : SameText cx x x := .inl rfl

theorem SameRow.refl (r : Revision) : SameRow cx r r := ⟨rfl, rfl, rfl, rfl, rfl, .refl _⟩

theorem Matched.refl (s : Store) : Matched cx s s where
  files q _ := by
    cases s.files q with
    | none => exact .none
    | some text => exact .some (.refl text)
  registry := rfl
  index _ := rfl
  revisions := by
    rw [List.forall₂_same]
    exact fun r _ => .refl r

theorem registered_eq (h : Matched cx b t) (q : String) : b.registered q = t.registered q := by
  have hany (s : Store) :
      s.registered q = (s.registry.map undated).any fun e => e.path = q := by
    rw [List.any_map]
    rfl
  rw [hany, hany, h.registry]

/-! ### Listings -/

theorem list_eq (h : Matched cx b t) : b.list.map undated = t.list.map undated := by
  have hsort (s : Store) : s.list.map undated =
      (s.registry.map undated).insertionSort fun a b => a.path ≤ b.path := by
    apply List.map_insertionSort
    intro e _ e' _
    exact Iff.rfl
  rw [hsort, hsort, h.registry]

theorem indexDirs_undated (es : List ConceptEntry) :
    indexDirs (es.map undated) = indexDirs es := by
  unfold indexDirs
  rw [List.map_map]
  rfl

/-- INTERNAL: no line of an index has a time. -/
theorem indexText_undated (es : List ConceptEntry) (dir : String) :
    indexText (es.map undated) dir = indexText es dir := by
  have hsub : subdirLine (es.map undated) dir = subdirLine es dir := by
    funext sub
    unfold subdirLine
    simp only [List.filter_map, List.map_map, List.length_map]
    rfl
  unfold indexText
  simp only [indexDirs_undated, hsub, List.filter_map, List.map_map]
  rfl

theorem indexDirs_eq (h : Matched cx b t) : indexDirs b.list = indexDirs t.list := by
  rw [← indexDirs_undated, list_eq h, indexDirs_undated]

theorem indexText_eq (h : Matched cx b t) (dir : String) :
    indexText b.list dir = indexText t.list dir := by
  rw [← indexText_undated, list_eq h, indexText_undated]

/-! ## One write -/

theorem revisionNos_eq {log log' : Log} (h : List.Forall₂ (SameRow cx) log log') :
    log.map Revision.revisionNo = log'.map Revision.revisionNo := by
  induction h with
  | nil => rfl
  | cons hr _ ih => rw [List.map_cons, List.map_cons, hr.revisionNo, ih]

theorem latestNo_eq {log log' : Log} (h : List.Forall₂ (SameRow cx) log log') (path : String) :
    latestNo log path = latestNo log' path := by
  have hrows : List.Forall₂ (SameRow cx) (log.filter fun r => r.path = path)
      (log'.filter fun r => r.path = path) := by
    apply List.rel_filter _ h
    intro r r' hr
    simp only [hr.path]
  unfold latestNo
  rw [revisionNos_eq hrows]

/-- Two drafts of one row. -/
structure SameDraft (cx : Codec) (d d' : Draft) : Prop where
  path : d.path = d'.path
  op : d.op = d'.op
  source : d.source = d'.source
  summary : d.summary = d'.summary
  payload : SameText cx d.payload d'.payload

/-- A record numbers the rows of a chain and prunes it without a look at the texts. -/
theorem recordOnce_congr {log log' : Log} (h : List.Forall₂ (SameRow cx) log log') {d d' : Draft}
    (hd : SameDraft cx d d') (retention : ℕ) (now now' : String) :
    List.Forall₂ (SameRow cx) (recordOnce log d retention now)
      (recordOnce log' d' retention now') := by
  have hlatest : latestNo log d.path = latestNo log' d'.path := by
    rw [hd.path]
    exact latestNo_eq h d'.path
  have hrow : SameRow cx (d.row log now) (d'.row log' now') :=
    ⟨hd.path, congrArg (· + 1) hlatest, hd.op, hd.source, hd.summary, hd.payload⟩
  have hlogs : List.Forall₂ (SameRow cx) (log ++ [d.row log now]) (log' ++ [d'.row log' now']) :=
    List.rel_append h (.cons hrow .nil)
  unfold recordOnce pruneChain
  simp only [← hrow.revisionNo]
  split
  · apply List.rel_filter _ hlogs
    intro r r' hr
    simp only [hr.path, hr.revisionNo, hd.path]
  · exact hlogs

/-- INTERNAL: the stamp is neither in the path nor in the registry row. -/
theorem fields_eq {c c' : Concept} (h : unstamped c = unstamped c') :
    c.sourcePath = c'.sourcePath ∧ c.frontmatter.title = c'.frontmatter.title ∧
      c.frontmatter.conceptType = c'.frontmatter.conceptType ∧
      c.frontmatter.source = c'.frontmatter.source := by
  have hpath := congrArg Concept.sourcePath h
  have htitle := congrArg (fun x => x.frontmatter.title) h
  have htype := congrArg (fun x => x.frontmatter.conceptType) h
  have hsource := congrArg (fun x => x.frontmatter.source) h
  exact ⟨hpath, htitle, htype, hsource⟩

/-- What a write records depends on what is there, but for the time in the texts. -/
theorem recordOf_congr (h : Matched cx b t) {c c' : Concept} (hc : unstamped c = unstamped c')
    (hplain : isReserved c.sourcePath = false) {markdown markdown' : String}
    (hmarkdown : SameText cx markdown markdown') (job : Job) :
    (recordOf b c markdown job).1 = (recordOf t c' markdown' job).1 ∧
      SameText cx (recordOf b c markdown job).2 (recordOf t c' markdown' job).2 := by
  have hfile := h.files c.sourcePath hplain
  have hregistered := registered_eq h c.sourcePath
  have hpath := (fields_eq hc).1
  unfold recordOf
  rw [← hpath, ← hregistered]
  cases hb : b.files c.sourcePath with
  | none =>
    rw [hb] at hfile
    cases ht : t.files c.sourcePath with
    | some text =>
      rw [ht] at hfile
      cases hfile
    | none =>
      cases htag : job.tag with
      | none => cases b.registered c.sourcePath <;> exact ⟨rfl, hmarkdown⟩
      | some tag =>
        cases tag with
        | restore => exact ⟨rfl, .refl _⟩
        | _ => exact ⟨rfl, hmarkdown⟩
  | some pre =>
    rw [hb] at hfile
    cases ht : t.files c.sourcePath with
    | none =>
      rw [ht] at hfile
      cases hfile
    | some pre' =>
      rw [ht] at hfile
      cases hfile with
      | some hpre =>
        cases htag : job.tag with
        | none =>
          cases b.registered c.sourcePath with
          | true => exact ⟨rfl, hpre⟩
          | false => exact ⟨rfl, hmarkdown⟩
        | some tag =>
          cases tag with
          | create => exact ⟨rfl, hmarkdown⟩
          | _ => exact ⟨rfl, hpre⟩

theorem putDraft_congr {c c' : Concept} (hc : unstamped c = unstamped c') {op : RevisionOp}
    {payload payload' : String} (hpayload : SameText cx payload payload') {job : Job}
    {d d' : Draft} (hd : putDraft c op payload job = .ok d)
    (hd' : putDraft c' op payload' job = .ok d') : SameDraft cx d d' := by
  have hsource : revSource job.handle c = revSource job.handle c' := by
    unfold revSource
    rw [(fields_eq hc).2.2.2]
  cases hsummary : job.summary with
  | some text =>
    simp only [putDraft, hsummary, bind, Except.bind, pure, Except.pure] at hd hd'
    cases hd
    cases hd'
    exact ⟨(fields_eq hc).1, rfl, hsource, rfl, hpayload⟩
  | none =>
    simp only [putDraft, hsummary, bind, Except.bind, pure, Except.pure] at hd hd'
    cases htext : opSummary op none with
    | error e =>
      rw [htext] at hd
      cases hd
    | ok text =>
      rw [htext] at hd hd'
      cases hd
      cases hd'
      exact ⟨(fields_eq hc).1, rfl, hsource, rfl, hpayload⟩

/-- INTERNAL: the rows of the registry after an upsert, but for the time. -/
theorem registry_register (s : Store) (c : Concept) (now : String) :
    (s.register c now).registry.map undated =
      if s.registered c.sourcePath then
        (s.registry.map undated).map fun e =>
          if e.path = c.sourcePath then
            { path := c.sourcePath, title := c.frontmatter.title.getD c.sourcePath,
              conceptType := c.frontmatter.conceptType, updatedAt := "" }
          else e
      else s.registry.map undated ++
        [{ path := c.sourcePath, title := c.frontmatter.title.getD c.sourcePath,
           conceptType := c.frontmatter.conceptType, updatedAt := "" }] := by
  unfold Store.register
  simp only
  split
  · rw [List.map_map, List.map_map]
    apply List.map_congr_left
    intro e _
    by_cases he : e.path = c.sourcePath
    · simp [undated, he]
    · simp [undated, he]
  · rw [List.map_append]
    rfl

theorem registry_register_eq (h : b.registry.map undated = t.registry.map undated)
    (hregistered : ∀ q, b.registered q = t.registered q) {c c' : Concept}
    (hc : unstamped c = unstamped c') (now now' : String) :
    (b.register c now).registry.map undated = (t.register c' now').registry.map undated := by
  obtain ⟨hpath, htitle, htype, -⟩ := fields_eq hc
  rw [registry_register, registry_register, h, hregistered, hpath, htitle, htype]

/-- The store after the write of one concept, whatever the clock said. -/
def Wrote (cx : Codec) (job : Job) (n : ℕ) (s : Store) (c : Concept) (s' : Store) : Prop :=
  ∃ markdown d record register, c.toMarkdown cx = .ok markdown ∧
    putDraft c (recordOf s c markdown job).1 (recordOf s c markdown job).2 job = .ok d ∧
    record.retention = n ∧ s' = wrote s c markdown d record register

/-- **One write of one concept to two stores that agree.** -/
theorem matched_wrote (h : Matched cx b t) {c c' : Concept} (hc : unstamped c = unstamped c')
    (hplain : isReserved c.sourcePath = false) {job : Job} {n : ℕ} (hb : Wrote cx job n b c b')
    (ht : Wrote cx job n t c' t') : Matched cx b' t' := by
  obtain ⟨markdown, d, record, register, hmarkdown, hd, hn, rfl⟩ := hb
  obtain ⟨markdown', d', record', register', hmarkdown', hd', hn', rfl⟩ := ht
  have hsame : SameText cx markdown markdown' := .inr ⟨c, c', hc, hmarkdown, hmarkdown'⟩
  obtain ⟨hop, hpayload⟩ := recordOf_congr h hc hplain hsame job
  rw [← hop] at hd'
  have hdraft : SameDraft cx d d' := putDraft_congr hc hpayload hd hd'
  have hput := put_wrote b markdown (putDraft_eq_ok hd).1 record register
  have hput' := put_wrote t markdown' (putDraft_eq_ok hd').1 record' register'
  refine ⟨?_, ?_, ?_, ?_⟩
  · intro q hq
    rw [hput.files, hput'.files, ← (fields_eq hc).1]
    dsimp only
    split
    · exact .some hsame
    · exact h.files q hq
  · obtain ⟨now, hregistry⟩ := hput.registry
    obtain ⟨now', hregistry'⟩ := hput'.registry
    rw [hregistry, hregistry']
    exact registry_register_eq h.registry (registered_eq h) hc now now'
  · intro q
    rw [hput.index, hput'.index, ← (fields_eq hc).1]
    dsimp only
    split
    · exact congrArg some hc
    · exact h.index q
  · rw [revisions_wrote, revisions_wrote, hn, hn']
    exact recordOnce_congr h.revisions hdraft n _ _

/-! ## The loop against the puts -/

/-- A batch that started from `s` is in its loop at `b`, and as many puts have led to `t`. -/
structure Behind (cx : Codec) (s b t : Store) : Prop extends Matched cx b t where
  batch : ∀ q, isReserved q = true → b.files q = s.files q
  puts : ∀ q, isReserved q = true →
    t.files q = s.files q ∨ ∃ dir ∈ indexDirs t.list, q = dir ++ "/index.md"

/-- The indexes have the texts of now. -/
def Shown (t : Store) : Prop :=
  ∀ dir ∈ indexDirs t.list, t.files (dir ++ "/index.md") = some (indexText t.list dir)

theorem list_regenerated (s : Store) (deleted : Option String) :
    (regenerated s deleted).list = s.list := by
  unfold Store.list
  rw [(regenerated_fields s deleted).1]

theorem shown_regenerated (s : Store) : Shown (regenerated s none) := by
  intro dir hdir
  rw [list_regenerated] at hdir ⊢
  rw [files_regenerated_index, if_pos hdir]

/-- A regeneration writes the indexes of the directories, and nothing else. -/
theorem files_regenerated_dir (s : Store) (deleted : Option String) (q : String) :
    (regenerated s deleted).files q = s.files q ∨
      ∃ dir ∈ indexDirs s.list, q = dir ++ "/index.md" := by
  rcases files_regenerated s deleted q with hsame | ⟨content, hmem, -⟩
  · exact .inl hsame
  · obtain ⟨dir, hdir, heq⟩ := List.mem_map.mp hmem
    exact .inr ⟨dir, hdir, (Prod.mk.inj heq).1.symm⟩

/-- INTERNAL: a regeneration touches files of reserved names only. -/
theorem matched_regenerated (h : Matched cx b t) (deleted deleted' : Option String)
    (hb : b' = b ∨ b' = regenerated b deleted) (ht : t' = t ∨ t' = regenerated t deleted') :
    Matched cx b' t' := by
  have hkept {s s' : Store} {deleted : Option String} (h : s' = s ∨ s' = regenerated s deleted) :
      (∀ q, isReserved q = false → s'.files q = s.files q) ∧ s'.registry = s.registry ∧
        s'.index = s.index ∧ s'.revisions = s.revisions := by
    rcases h with rfl | rfl
    · exact ⟨fun _ _ => rfl, rfl, rfl, rfl⟩
    · exact ⟨fun q hq => files_regenerated_of_ordinary s deleted hq, regenerated_fields s deleted⟩
  obtain ⟨hbf, hbr, hbi, hbv⟩ := hkept hb
  obtain ⟨htf, htr, hti, htv⟩ := hkept ht
  refine ⟨?_, ?_, ?_, ?_⟩
  · intro q hq
    rw [hbf q hq, htf q hq]
    exact h.files q hq
  · rw [hbr, htr]
    exact h.registry
  · rw [hbi, hti]
    exact h.index
  · rw [hbv, htv]
    exact h.revisions

theorem Behind.refl (s : Store) : Behind cx s s s := ⟨.refl s, fun _ _ => rfl, fun _ _ => .inl rfl⟩

/-- INTERNAL: the write of a concept leaves the files of reserved names. -/
theorem files_of_wrote {job : Job} {n : ℕ} {c : Concept} (h : Wrote cx job n s c t)
    (hplain : isReserved c.sourcePath = false) {q : String} (hq : isReserved q = true) :
    t.files q = s.files q := by
  obtain ⟨markdown, d, record, register, -, hd, -, rfl⟩ := h
  have hne : q ≠ c.sourcePath := by
    rintro rfl
    rw [hplain] at hq
    cases hq
  rw [(put_wrote s markdown (putDraft_eq_ok hd).1 record register).files]
  exact if_neg hne

/-- INTERNAL: and loses no directory. -/
theorem indexDirs_of_wrote {job : Job} {n : ℕ} {c : Concept} (h : Wrote cx job n s c t)
    {dir : String} (hdir : dir ∈ indexDirs s.list) : dir ∈ indexDirs t.list := by
  obtain ⟨markdown, d, record, register, -, hd, -, rfl⟩ := h
  have hput := put_wrote s markdown (putDraft_eq_ok hd).1 record register
  rw [mem_indexDirs] at hdir ⊢
  apply hdir.imp_right
  rintro ⟨e, he, rfl⟩
  have hkept : (wrote s c markdown d record register).registered e.path = true := by
    rw [registered_of_put hput, registered_iff.mpr ⟨e, mem_list.mp he, rfl⟩, Bool.true_or]
  obtain ⟨e', he', hpath⟩ := registered_iff.mp hkept
  refine ⟨e', mem_list.mpr he', ?_⟩
  unfold dirOf
  rw [hpath]

/-- **One concept in the loop, and its put.** -/
theorem behind_wrote (h : Behind cx s b t) {c c' : Concept} (hc : unstamped c = unstamped c')
    (hplain : isReserved c.sourcePath = false) {job : Job} {n : ℕ} (hb : Wrote cx job n b c b')
    (ht : Wrote cx job n t c' t') : Behind cx s b' (regenerated t' none) where
  toMatched :=
    matched_regenerated (matched_wrote h.toMatched hc hplain hb ht) none none (.inl rfl) (.inr rfl)
  batch q hq := (files_of_wrote hb hplain hq).trans (h.batch q hq)
  puts q hq := by
    rw [(fields_eq hc).1] at hplain
    rw [list_regenerated]
    rcases files_regenerated_dir t' none q with hsame | hdir
    · rw [hsame, files_of_wrote ht hplain hq]
      refine (h.puts q hq).imp_right ?_
      rintro ⟨dir, hdir, rfl⟩
      exact ⟨dir, indexDirs_of_wrote ht hdir, rfl⟩
    · exact .inr hdir

/-- **The regeneration at the end of a batch.** -/
theorem alike_regenerated (h : Behind cx s b t) (hshown : Shown t) :
    Alike cx (regenerated b none) t where
  toMatched := matched_regenerated h.toMatched none none (.inr rfl) (.inl rfl)
  indexes q hq := by
    by_cases hdir : ∃ dir ∈ indexDirs t.list, q = dir ++ "/index.md"
    · obtain ⟨dir, hdir, rfl⟩ := hdir
      rw [hshown dir hdir, files_regenerated_index, indexDirs_eq h.toMatched, if_pos hdir,
        indexText_eq h.toMatched]
    · rw [(h.puts q hq).resolve_right hdir, ← h.batch q hq]
      apply (files_regenerated_dir b none q).resolve_right
      rwa [indexDirs_eq h.toMatched]

/-! ## Checks and stamps -/

/-- What a put checks before it writes: the prefix of the queue, the reserved names, the
lifecycle fields. SOURCE: concept_store.rs:219-221, 305-327 -/
structure Passes (cx : Codec) (c : Concept) : Prop where
  queue : isQueuePath c.sourcePath = false
  reserved : isReserved c.sourcePath = false
  valid : c.frontmatter.validated cx = .ok ()

theorem stamp_of_passes {c : Concept} (hc : Passes cx c) (h : Handle) (now : String) :
    stamp cx h now c = .ok (stampedConcept h now c) := by
  rw [stamp_eq, hc.reserved, hc.valid]
  rfl

theorem passes_of_stamp {c c' : Concept} {h : Handle} {now : String}
    (hqueue : isQueuePath c.sourcePath = false) (hs : stamp cx h now c = .ok c') :
    Passes cx c := by
  rw [stamp_eq] at hs
  split at hs
  · cases hs
  · rename_i hreserved
    refine ⟨hqueue, eq_false_of_ne_true hreserved, ?_⟩
    cases hvalid : c.frontmatter.validated cx with
    | ok u => rfl
    | error e =>
      rw [hvalid] at hs
      cases hs

/-- The concepts with their stamps, each of some time. -/
def Stamps (h : Handle) (cs stamped : List Concept) : Prop :=
  List.Forall₂ (fun c c' => ∃ now, c' = stampedConcept h now c) cs stamped

theorem stampAll_of_passes {cs : List Concept} (hcs : ∀ c ∈ cs, Passes cx c) (h : Handle)
    (clock : ℕ → String) (i : ℕ) :
    ∃ stamped, stampAll cx h clock i cs = .ok stamped ∧ Stamps h cs stamped := by
  induction cs generalizing i with
  | nil => exact ⟨[], rfl, .nil⟩
  | cons c cs ih =>
    obtain ⟨stamped, hst, hstamps⟩ := ih (fun d hd => hcs d (List.mem_cons_of_mem c hd)) (i + 1)
    refine ⟨stampedConcept h (clock i) c :: stamped, ?_, .cons ⟨clock i, rfl⟩ hstamps⟩
    simp only [stampAll, stamp_of_passes (hcs c List.mem_cons_self), hst, bind, Except.bind, pure,
      Except.pure]

theorem passes_of_stampAll {cs cs' : List Concept} {h : Handle} {clock : ℕ → String} {i : ℕ}
    (hqueue : ∀ c ∈ cs, isQueuePath c.sourcePath = false)
    (hst : stampAll cx h clock i cs = .ok cs') : ∀ c ∈ cs, Passes cx c := by
  induction cs generalizing i cs' with
  | nil => simp
  | cons c cs ih =>
    simp only [stampAll, bind, Except.bind, pure, Except.pure] at hst
    split at hst
    · cases hst
    · rename_i c₁ hc
      split at hst
      · cases hst
      · rename_i cs₁ hrest
        intro d hd
        rcases List.mem_cons.mp hd with rfl | hd
        · exact passes_of_stamp (hqueue d List.mem_cons_self) hc
        · exact ih (fun d hd => hqueue d (List.mem_cons_of_mem c hd)) hrest d hd

/-- **A batch with a concept that a put refuses** ends before its first step. -/
theorem begin_of_refused {cs : List Concept} (hcs : ∃ c ∈ cs, ¬ Passes cx c) (h : Handle)
    (clock : ℕ → String) : ∃ e, (Call.putBatch cs).begin cx h clock = .finished (.error e) := by
  simp only [Call.begin]
  split
  · exact ⟨_, rfl⟩
  · rename_i hfind
    have hqueue : ∀ c ∈ cs, isQueuePath c.sourcePath = false := by
      intro c hc
      exact eq_false_of_ne_true (List.find?_eq_none.mp hfind c hc)
    obtain ⟨c, hc, hrefused⟩ := hcs
    cases cs with
    | nil => cases hc
    | cons d cs =>
      simp only [putBatchWithRevision]
      cases hst : stampAll cx h clock 0 (d :: cs) with
      | error e => exact ⟨e, rfl⟩
      | ok stamped => exact absurd (passes_of_stampAll hqueue hst c hc) hrefused

/-- What a handle passes to the write of its puts. -/
def putJob (h : Handle) : Job := { handle := h, tag := h.revisionOp, summary := none }

theorem begin_putBatch {cs : List Concept} (hcs : ∀ c ∈ cs, Passes cx c) (h : Handle)
    (clock : ℕ → String) :
    (Call.putBatch cs).begin cx h clock = putBatchWithRevision cx cs (putJob h) clock := by
  have hfind : (cs.find? fun c => isQueuePath c.sourcePath) = none := by
    apply List.find?_eq_none.mpr
    intro c hc
    rw [(hcs c hc).queue]
    exact Bool.false_ne_true
  simp only [Call.begin, hfind, putJob]

theorem begin_put {c : Concept} (hc : Passes cx c) (h : Handle) (clock : ℕ → String) :
    (Call.put c).begin cx h clock = putBatchWithRevision cx [c] (putJob h) clock := by
  simp only [Call.begin, hc.queue, Bool.false_eq_true, if_false, putJob]

/-- A batch that is not empty gets to its loop. -/
theorem putBatchWithRevision_of_passes {cs : List Concept} (hne : cs ≠ [])
    (hcs : ∀ c ∈ cs, Passes cx c) (h : Handle) (clock : ℕ → String) :
    ∃ stamped, Stamps h cs stamped ∧
      putBatchWithRevision cx cs (putJob h) clock = .next stamped (putJob h) := by
  obtain ⟨stamped, hst, hstamps⟩ := stampAll_of_passes hcs h clock 0
  refine ⟨stamped, hstamps, ?_⟩
  cases cs with
  | nil => exact absurd rfl hne
  | cons c cs =>
    have hhandle : (putJob h).handle = h := rfl
    simp only [putBatchWithRevision, hhandle, hst]

/-- The checks are those of a put: it ends before its first step exactly when one fails. -/
theorem put_refused_iff {c : Concept} (h : Handle) (clock : ℕ → String) :
    (∃ e, (Call.put c).begin cx h clock = .finished (.error e)) ↔ ¬ Passes cx c := by
  constructor
  · rintro ⟨e, hrefused⟩ hc
    obtain ⟨stamped, -, hbegin⟩ :=
      putBatchWithRevision_of_passes (List.cons_ne_nil c []) (by simpa using hc) h clock
    rw [begin_put hc, hbegin] at hrefused
    cases hrefused
  · intro hc
    by_cases hqueue : isQueuePath c.sourcePath = true
    · refine ⟨.queuePath c.sourcePath, ?_⟩
      simp only [Call.begin, hqueue, if_true]
    · obtain ⟨e, hbegin⟩ := begin_of_refused ⟨c, List.mem_singleton_self c, hc⟩ h clock
      have hfind : ([c].find? fun c => isQueuePath c.sourcePath) = none := by
        simp [hqueue]
      simp only [Call.begin, hfind] at hbegin
      refine ⟨e, ?_⟩
      simp only [Call.begin, hqueue, Bool.false_eq_true, if_false]
      exact hbegin

/-! ## The calls -/

/-- The retention setting, which the runs that are compared have in common. -/
def Retains (n : ℕ) (ch : Choice) : Prop := ch.retention = n

/-- The stamps and writes of some concepts, in order. -/
inductive WroteAll (cx : Codec) (h : Handle) (n : ℕ) : Store → List Concept → Store → Prop
  | nil (s : Store) : WroteAll cx h n s [] s
  | cons {s s₁ t : Store} {c : Concept} {cs : List Concept} {now : String}
      (hwrote : Wrote cx (putJob h) n s (stampedConcept h now c) s₁)
      (hrest : WroteAll cx h n s₁ cs t) : WroteAll cx h n s (c :: cs) t

/-- How a call that writes some concepts and returns without an error leaves the store. -/
def Leaves (cx : Codec) (h : Handle) (n : ℕ) (s : Store) (cs : List Concept) (t : Store)
    (r : Except StoreError Unit) : Prop :=
  r = .ok () → ∃ s', WroteAll cx h n s cs s' ∧ t = regenerated s' none

theorem leaves_error {h : Handle} {n : ℕ} {cs : List Concept} (t : Store) (e : StoreError) :
    Leaves cx h n s cs t (.error e) := by
  intro heq
  cases heq

/-- INTERNAL: the loop. -/
theorem ends_loop {h : Handle} {n : ℕ} {cs stamped : List Concept} (hstamps : Stamps h cs stamped)
    (hqueue : ∀ c ∈ cs, isQueuePath c.sourcePath = false) (s : Store) :
    EndsFor (Retains n) cx (Leaves cx h n s cs) s (.next stamped (putJob h)) := by
  induction hstamps generalizing s with
  | nil =>
    apply ends_step rfl
    intro _ _
    apply ends_regenList_or_fails leaves_error
    intro _
    exact ⟨s, .nil s, rfl⟩
  | @cons c c' cs stamped hc hrest ih =>
    obtain ⟨now, rfl⟩ := hc
    have hplace : isQueuePath (stampedConcept h now c).sourcePath = false :=
      hqueue c List.mem_cons_self
    apply ends_wrote_or_fails (fun t e _ => leaves_error t e) hplace
    intro markdown d record register _ hmarkdown hd hrecord _
    have hwrote : Wrote cx (putJob h) n s (stampedConcept h now c)
        (wrote s (stampedConcept h now c) markdown d record register) :=
      ⟨markdown, d, record, register, hmarkdown, hd, hrecord, rfl⟩
    apply (ih (fun d hd => hqueue d (List.mem_cons_of_mem c hd)) _).mono
    intro r x hleaves hok
    obtain ⟨s', hwrotes, heq⟩ := hleaves hok
    exact ⟨s', .cons hwrote hwrotes, heq⟩

/-- INTERNAL: a batch, or the one concept of a put. -/
theorem ends_putBatchWithRevision {h : Handle} {n : ℕ} {cs : List Concept} (hne : cs ≠ [])
    (hcs : ∀ c ∈ cs, Passes cx c) (s : Store) (clock : ℕ → String) :
    EndsFor (Retains n) cx (Leaves cx h n s cs) s
      (putBatchWithRevision cx cs (putJob h) clock) := by
  obtain ⟨stamped, hstamps, hbegin⟩ := putBatchWithRevision_of_passes hne hcs h clock
  rw [hbegin]
  exact ends_loop hstamps (fun c hc => (hcs c hc).queue) s

/-- A call from its start to a return without an error, with nothing in between. -/
def Succeeds (cx : Codec) (h : Handle) (n : ℕ) (call : Call) (s t : State) : Prop :=
  ∃ i ch chs, (∀ ch ∈ chs, Retains n ch) ∧ exec (step cx) s (callRun i h call ch chs) = some t ∧
    t.tasks i = .finished (.ok ())

/-- A put of each concept, in order. -/
inductive Puts (cx : Codec) (h : Handle) (n : ℕ) : State → List Concept → State → Prop
  | nil (s : State) : Puts cx h n s [] s
  | cons {s s₁ t : State} {c : Concept} {cs : List Concept}
      (hput : Succeeds cx h n (.put c) s s₁) (hrest : Puts cx h n s₁ cs t) :
      Puts cx h n s (c :: cs) t

theorem wrote_of_put {h : Handle} {n : ℕ} {c : Concept} (hc : Passes cx c) {x y : State}
    (hput : Succeeds cx h n (.put c) x y) :
    ∃ now t, Wrote cx (putJob h) n x.store (stampedConcept h now c) t ∧
      y.store = regenerated t none := by
  obtain ⟨i, ch, chs, hretains, hrun, hend⟩ := hput
  have hends := ends_putBatchWithRevision (h := h) (n := n) (List.cons_ne_nil c [])
    (by simpa using hc) x.store ch.clock
  rw [← begin_put hc h ch.clock] at hends
  obtain ⟨t, hwrote, heq⟩ := post_of_callRun hends hretains hrun hend rfl
  cases hwrote with
  | cons hwrote hrest =>
    cases hrest
    exact ⟨_, t, hwrote, heq⟩

/-- INTERNAL: the writes of a batch and the puts, concept by concept. -/
theorem behind_puts {h : Handle} {n : ℕ} {cs : List Concept} (hcs : ∀ c ∈ cs, Passes cx c)
    {x y : State} (hputs : Puts cx h n x cs y) (hwrote : WroteAll cx h n b cs b')
    (hbehind : Behind cx s b x.store) (hshown : cs = [] → Shown x.store) :
    Behind cx s b' y.store ∧ Shown y.store := by
  induction hputs generalizing b with
  | nil x =>
    cases hwrote
    exact ⟨hbehind, hshown rfl⟩
  | @cons x x₁ y c cs hput hrest ih =>
    cases hwrote with
    | cons hb hrests =>
      have hc := hcs c List.mem_cons_self
      obtain ⟨now', t, ht, hstore⟩ := wrote_of_put hc hput
      have hshown₁ : Shown x₁.store := by
        rw [hstore]
        exact shown_regenerated t
      apply ih (fun d hd => hcs d (List.mem_cons_of_mem c hd)) hrests _ fun _ => hshown₁
      have hsame (now : String) :
          unstamped (stampedConcept h now c) = unstamped (stampedConcept h now' c) := rfl
      rw [hstore]
      exact behind_wrote hbehind (hsame _) hc.reserved hb ht

theorem alike_of_puts {h : Handle} {n : ℕ} {cs : List Concept} (hcs : ∀ c ∈ cs, Passes cx c)
    {x y z : State} (hbatch : Succeeds cx h n (.putBatch cs) x y) (hputs : Puts cx h n x cs z) :
    Alike cx y.store z.store := by
  obtain ⟨i, ch, chs, hretains, hrun, hend⟩ := hbatch
  by_cases hne : cs = []
  · subst hne
    cases hputs
    have hends : EndsFor (Retains n) cx (fun t _ => t = x.store) x.store
        ((Call.putBatch []).begin cx h ch.clock) := ends_finished rfl
    rw [post_of_callRun hends hretains hrun hend]
    exact ⟨.refl x.store, fun _ _ => rfl⟩
  · have hends := ends_putBatchWithRevision (h := h) (n := n) hne hcs x.store ch.clock
    rw [← begin_putBatch hcs h ch.clock] at hends
    obtain ⟨b, hwrote, heq⟩ := post_of_callRun hends hretains hrun hend rfl
    obtain ⟨hbehind, hshown⟩ := behind_puts hcs hputs hwrote (.refl x.store) fun h => absurd h hne
    rw [heq]
    exact alike_regenerated hbehind hshown

/-! ## Calls that do not fail -/

/-- No storage step fails: the paths are absolute, the concepts print with any stamp, and the
operation has a summary. -/
structure Storable (cx : Codec) (h : Handle) (s : Store) (cs : List Concept) : Prop where
  entries : ∀ e ∈ s.registry, validPath e.path = true
  paths : ∀ c ∈ cs, validPath c.sourcePath = true
  printed : ∀ c ∈ cs, ∀ now, ∃ markdown, (stampedConcept h now c).toMarkdown cx = .ok markdown
  tag : h.revisionOp ≠ some .restore

/-- INTERNAL: the loop and the regeneration. -/
theorem ends_ok {h : Handle} {n : ℕ} {cs stamped : List Concept} (hstamps : Stamps h cs stamped)
    (hqueue : ∀ c ∈ cs, isQueuePath c.sourcePath = false) (hs : Storable cx h s cs) :
    EndsFor (Retains n) cx
      (fun t r => r = .ok () ∧ ∀ e ∈ t.registry, validPath e.path = true) s
      (.next stamped (putJob h)) := by
  induction hstamps generalizing s with
  | nil =>
    apply ends_step rfl
    intro _ _
    apply ends_regenList hs.entries
    refine ⟨rfl, ?_⟩
    rw [(regenerated_fields s none).1]
    exact hs.entries
  | @cons c c' cs stamped hc hrest ih =>
    obtain ⟨now, rfl⟩ := hc
    have hpath : validPath (stampedConcept h now c).sourcePath = true :=
      hs.paths c List.mem_cons_self
    have hplace : isQueuePath (stampedConcept h now c).sourcePath = false :=
      hqueue c List.mem_cons_self
    obtain ⟨markdown, hmarkdown⟩ := hs.printed c List.mem_cons_self now
    apply ends_next hpath hplace hmarkdown (.inr hs.tag)
    intro s' hput _
    apply ih fun d hd => hqueue d (List.mem_cons_of_mem c hd)
    refine ⟨?_, fun d hd => hs.paths d (List.mem_cons_of_mem c hd),
      fun d hd => hs.printed d (List.mem_cons_of_mem c hd), hs.tag⟩
    intro e he
    obtain ⟨now', hregistry⟩ := hput.registry
    rw [hregistry] at he
    rcases path_of_mem_register he with hnew | ⟨e', he', hold⟩
    · rw [hnew]
      exact hpath
    · rw [← hold]
      exact hs.entries e' he'

theorem batch_returns {h : Handle} {n : ℕ} {cs : List Concept} (hcs : ∀ c ∈ cs, Passes cx c)
    (hs : Storable cx h s cs) (clock : ℕ → String) :
    EndsFor (Retains n) cx
      (fun t r => r = .ok () ∧ ∀ e ∈ t.registry, validPath e.path = true) s
      (putBatchWithRevision cx cs (putJob h) clock) := by
  by_cases hne : cs = []
  · subst hne
    exact ends_finished ⟨rfl, hs.entries⟩
  · obtain ⟨stamped, hstamps, hbegin⟩ := putBatchWithRevision_of_passes hne hcs h clock
    rw [hbegin]
    exact ends_ok hstamps (fun c hc => (hcs c hc).queue) hs

/-- Each put returns without an error, from where the ones before it have led. -/
def PutsReturn (cx : Codec) (h : Handle) (n : ℕ) : List Concept → Store → Prop
  | [], _ => True
  | c :: cs, s => ∀ clock, EndsFor (Retains n) cx
      (fun t r => r = .ok () ∧ PutsReturn cx h n cs t) s ((Call.put c).begin cx h clock)

theorem puts_return {h : Handle} {n : ℕ} {cs : List Concept} (hcs : ∀ c ∈ cs, Passes cx c)
    (hs : Storable cx h s cs) : PutsReturn cx h n cs s := by
  induction cs generalizing s with
  | nil => trivial
  | cons c cs ih =>
    intro clock
    have hc := hcs c List.mem_cons_self
    have hone : Storable cx h s [c] := by
      refine ⟨hs.entries, ?_, ?_, hs.tag⟩
      · intro d hd
        rw [List.mem_singleton.mp hd]
        exact hs.paths c List.mem_cons_self
      · intro d hd
        rw [List.mem_singleton.mp hd]
        exact hs.printed c List.mem_cons_self
    rw [begin_put hc]
    apply (batch_returns (n := n) (by simpa using hc) hone clock).mono
    rintro ⟨t, pc⟩ r ⟨hok, hentries⟩
    refine ⟨hok, ih (fun d hd => hcs d (List.mem_cons_of_mem c hd)) ?_⟩
    exact ⟨hentries, fun d hd => hs.paths d (List.mem_cons_of_mem c hd),
      fun d hd => hs.printed d (List.mem_cons_of_mem c hd), hs.tag⟩

/-! ## The fold -/

/-- **A batch is the fold of its puts, or nothing.** A batch with a concept that a put refuses
changes nothing. Any other that returns without an error leaves what the puts of its concepts
leave, in order and from the same state; and when no storage step fails they all return so.
SOURCE: concept_store.rs:215-421, 466-548 -/
theorem batch_fold (cx : Codec) (h : Handle) (n : ℕ) (x : State) (cs : List Concept) :
    ((∃ c ∈ cs, ¬ Passes cx c) → ∀ i ch chs y,
      exec (step cx) x (callRun i h (.putBatch cs) ch chs) = some y →
        y.store = x.store ∧ ∃ e, y.tasks i = .finished (.error e)) ∧
    ((∀ c ∈ cs, Passes cx c) →
      (∀ y z, Succeeds cx h n (.putBatch cs) x y → Puts cx h n x cs z →
        Alike cx y.store z.store) ∧
      (Storable cx h x.store cs →
        (∀ clock, EndsFor (Retains n) cx (fun _ r => r = .ok ()) x.store
          ((Call.putBatch cs).begin cx h clock)) ∧
        PutsReturn cx h n cs x.store)) := by
  refine ⟨?_, fun hcs => ⟨?_, ?_⟩⟩
  · intro hrefused i ch chs y hrun
    obtain ⟨e, hbegin⟩ := begin_of_refused hrefused h ch.clock
    obtain ⟨y', hrun', hend⟩ := exec_callRun cx h (.putBatch cs) ch (free_of_callRun hrun) chs
    rw [hrun] at hrun'
    cases hrun'
    rw [hbegin, foldl_of_result (fun _ c _ hr => next_of_result c hr)
      (show resultOf (x.store, Pc.finished (.error e)) = some (.error e) from rfl)] at hend
    obtain ⟨hstore, htask⟩ := Prod.mk.inj hend
    exact ⟨hstore, e, htask⟩
  · intro y z hbatch hputs
    exact alike_of_puts hcs hbatch hputs
  · intro hs
    refine ⟨?_, puts_return hcs hs⟩
    intro clock
    rw [begin_putBatch hcs]
    exact (batch_returns hcs hs clock).mono fun _ _ hpost => hpost.1

/-- A batch that writes one path twice, and its two puts. -/
theorem batch_fold_twice : ∃ y z,
    Succeeds noteCodec {} 200 (.putBatch [note "8080", note "9090"]) (State.init "user:1") y ∧
      Puts noteCodec {} 200 (State.init "user:1") [note "8080", note "9090"] z ∧
      Alike noteCodec y.store z.store := by
  have hcalls (call : Call) (s t : State)
      (hrun : exec (step noteCodec) s (callRun 0 {} call noteChoice (List.replicate 24 noteChoice))
        = some t) (hend : succeeded t = true) : Succeeds noteCodec {} 200 call s t := by
    refine ⟨0, noteChoice, _, ?_, hrun, task_of_succeeded hend⟩
    intro ch hch
    rw [List.eq_of_mem_replicate hch]
    rfl
  obtain ⟨y, hbatch, hy⟩ := Option.map_eq_some_iff.mp
    (show (exec (step noteCodec) (State.init "user:1")
      (callRun 0 {} (.putBatch [note "8080", note "9090"]) noteChoice
        (List.replicate 24 noteChoice))).map succeeded = some true by decide +kernel)
  obtain ⟨z, hz, hdone⟩ := Option.map_eq_some_iff.mp
    (show ((exec (step noteCodec) (State.init "user:1") (callRun 0 {} (.put (note "8080"))
      noteChoice (List.replicate 24 noteChoice))).bind fun s => if succeeded s then
        (exec (step noteCodec) s (callRun 0 {} (.put (note "9090"))
          noteChoice (List.replicate 24 noteChoice))) else none).map succeeded = some true by
      decide +kernel)
  obtain ⟨x₁, hfirst, hrest⟩ := Option.bind_eq_some_iff.mp hz
  split at hrest
  · rename_i hx₁
    have hputs : Puts noteCodec {} 200 (State.init "user:1") [note "8080", note "9090"] z :=
      .cons (hcalls _ _ _ hfirst hx₁) (.cons (hcalls _ _ _ hrest hdone) (.nil z))
    have hsucceeds := hcalls _ _ _ hbatch hy
    refine ⟨y, z, hsucceeds, hputs, ?_⟩
    apply ((batch_fold noteCodec {} 200 (State.init "user:1") [note "8080", note "9090"]).2
      _).1 y z hsucceeds hputs
    intro c hc
    have hpasses (body : String) : Passes noteCodec (note body) := by
      refine ⟨?_, ?_, rfl⟩
      · show isQueuePath "/port.md" = false
        decide
      · show isReserved "/port.md" = false
        decide
    rcases List.mem_cons.mp hc with rfl | hc
    · exact hpasses _
    · rw [List.mem_singleton.mp hc]
      exact hpasses _
  · cases hrest

end Mycelium.Analysis.BatchFold
