import Mycelium.Analysis.OrdinaryPaths
import Mycelium.Analysis.PutRoundTrip
import Mycelium.Model.Fallback

/-!
# Where the deterministic add lands

1. *The paths it tries.* The first is made from the hints or the content, the others have a
   suffix. They lie at the same place, and those with a suffix have no reserved name
   (`isQueuePath_candidate`, `isReserved_candidate_succ`).
2. *One put.* A put that nothing refuses ends well (`ends_put_accepted`).
3. *The search.* `EndsAt` says that the search gets to a path that a put accepts. The add
   lands if and only if it does at some path (`fallback_lands`): a hint or a first line whose
   slug is `index`, `log` or `info` gives a path that the put refuses (`add_index_refused`).
-/

set_option autoImplicit false

namespace Mycelium.Analysis.FallbackLanding

open Mycelium.Model.Text Mycelium.Model.Concepts
open Mycelium.Model.ConceptStore Mycelium.Model.StoreTasks Mycelium.Model.Fallback
open Mycelium.Analysis.ConceptRoundTrip Mycelium.Analysis.CallCompletion
open Mycelium.Analysis.RestoreReversal (stampedConcept stamp_eq stampAll_singleton
  entries_register noteChoice_clocked)
open Mycelium.Analysis.OrdinaryPaths (Accepts)
open Mycelium.Analysis.PutRoundTrip (get_of_put)
open Completion

/-! ## The paths of the search -/

/-- The path of a probe, by its number. -/
def candidate (args : AddArgs) : ℕ → String
  | 0 => derivePath args
  | k + 1 => suffixed (derivePath args) ((k + 2) % u32Bound)

/-- INTERNAL: what is trimmed has no slash. -/
theorem trimMdReversed_append (l : List Char) :
    ∃ dropped, l = dropped ++ trimMdReversed l ∧ '/' ∉ dropped := by
  fun_induction trimMdReversed l with
  | case1 rest ih =>
    obtain ⟨dropped, hrest, hslash⟩ := ih
    refine ⟨'d' :: 'm' :: '.' :: dropped, ?_, ?_⟩
    · simpa using hrest
    · simpa using hslash
  | case2 l _ => exact ⟨[], rfl, by simp⟩

/-- INTERNAL: a path and its suffixed one share all up to the last slash. -/
theorem suffixed_shape (base : String) (suffix : ℕ) :
    ∃ stem tail tail', base.toList = stem ++ tail ∧ '/' ∉ tail ∧
      (suffixed base suffix).toList = stem ++ '-' :: tail' ∧ '/' ∉ tail' := by
  obtain ⟨dropped, hreverse, hslash⟩ := trimMdReversed_append base.toList.reverse
  have hbase := congrArg List.reverse hreverse
  rw [List.reverse_reverse, List.reverse_append] at hbase
  refine ⟨_, dropped.reverse, Nat.toDigits 10 suffix ++ ['.', 'm', 'd'], hbase, ?_, ?_, ?_⟩
  · simpa using hslash
  · simp [suffixed, String.toList_append, Nat.toString_eq_repr]
  · intro hmem
    rcases List.mem_append.mp hmem with hdigit | hmem
    · have := Nat.isDigit_of_mem_toDigits (by omega) (by omega) hdigit
      exact absurd this (by decide)
    · exact absurd hmem (by decide)

theorem derivePath_toList (args : AddArgs) : ∃ rest, (derivePath args).toList = '/' :: rest := by
  simp only [derivePath, String.toList_append]
  exact ⟨_, rfl⟩

theorem validPath_candidate (args : AddArgs) (k : ℕ) : validPath (candidate args k) = true := by
  obtain ⟨rest, hbase⟩ := derivePath_toList args
  rw [validPath_iff]
  cases k with
  | zero => exact ⟨rest, hbase⟩
  | succ k =>
    obtain ⟨stem, tail, tail', hstem, hslash, hsuffixed, -⟩ :=
      suffixed_shape (derivePath args) ((k + 2) % u32Bound)
    rw [hbase] at hstem
    simp only [candidate, hsuffixed]
    cases stem with
    | nil =>
      rw [List.nil_append] at hstem
      rw [← hstem] at hslash
      exact absurd List.mem_cons_self hslash
    | cons c stem =>
      obtain ⟨rfl, -⟩ := List.cons.inj hstem
      exact ⟨_, rfl⟩

/-- INTERNAL: a prefix that ends in a slash does not reach into a text without one. -/
theorem prefix_append_iff {p a b : List Char} (hb : '/' ∉ b) :
    (p ++ ['/']) <+: a ++ b ↔ (p ++ ['/']) <+: a := by
  constructor
  · rintro ⟨rest, h⟩
    rcases List.append_eq_append_iff.mp h with ⟨c, ha, -⟩ | ⟨c, hp, hb'⟩
    · exact ⟨c, ha.symm⟩
    · rcases List.eq_nil_or_concat c with rfl | ⟨c', x, rfl⟩
      · rw [List.append_nil] at hp
        rw [hp]
      · rw [List.concat_eq_append, ← List.append_assoc] at hp
        have hx : '/' = x := (List.append_inj' hp rfl).2 |> List.singleton_inj.mp
        apply absurd _ hb
        rw [hb', hx]
        simp
  · exact fun h => h.trans (List.prefix_append a b)

theorem isQueuePath_iff {path : String} :
    isQueuePath path = true ↔ ("/mutation-queue".toList ++ ['/']) <+: path.toList := by
  rw [isQueuePath, startsWith, List.isPrefixOf_iff_prefix]
  rfl

theorem isQueuePath_candidate (args : AddArgs) (k : ℕ) :
    isQueuePath (candidate args k) = isQueuePath (derivePath args) := by
  cases k with
  | zero => rfl
  | succ k =>
    obtain ⟨stem, tail, tail', hbase, hslash, hsuffixed, hslash'⟩ :=
      suffixed_shape (derivePath args) ((k + 2) % u32Bound)
    have hdash : '/' ∉ '-' :: tail' := by
      intro h
      exact hslash' ((List.mem_cons.mp h).resolve_left (by decide))
    rw [Bool.eq_iff_iff, isQueuePath_iff, isQueuePath_iff, hbase]
    show _ <+: (suffixed (derivePath args) ((k + 2) % u32Bound)).toList ↔ _
    rw [hsuffixed, prefix_append_iff hdash, prefix_append_iff hslash]

/-- INTERNAL: the name of a path with a dash after its last slash. -/
theorem dash_mem_basename {path : String} {stem tail : List Char}
    (hpath : path.toList = stem ++ '-' :: tail) (hslash : '/' ∉ tail) :
    '-' ∈ (basename path).toList := by
  have hall : ∀ c ∈ tail.reverse, decide (c ≠ '/') = true := by
    intro c hc
    apply decide_eq_true
    rintro rfl
    exact hslash (List.mem_reverse.mp hc)
  rw [basename, String.toList_ofList, hpath, List.rtakeWhile, List.reverse_append,
    List.reverse_cons, List.append_assoc, List.takeWhile_append_of_pos hall]
  simp

/-- A suffix makes every name an ordinary one. -/
theorem isReserved_candidate_succ (args : AddArgs) (k : ℕ) :
    isReserved (candidate args (k + 1)) = false := by
  obtain ⟨stem, tail, tail', -, -, hsuffixed, hslash'⟩ :=
    suffixed_shape (derivePath args) ((k + 2) % u32Bound)
  have hdash : '-' ∈ (basename (candidate args (k + 1))).toList :=
    dash_mem_basename hsuffixed hslash'
  have hne (name : String) (hname : '-' ∉ name.toList) :
      basename (candidate args (k + 1)) ≠ name := by
    intro h
    rw [h] at hdash
    exact hname hdash
  have hindex := hne "index.md" (by decide)
  have hlog := hne "log.md" (by decide)
  have hinfo := hne "info.md" (by decide)
  simp only [isReserved, hindex, hlog, hinfo, decide_false, Bool.or_self]

/-! ## One put -/

variable {cx : Codec}

/-- A put that nothing refuses. -/
theorem ends_put_accepted (hcx : Faithful cx) {post : Store → Except StoreError Unit → Prop}
    {s : Store} {h : Handle} {c : Concept} {clock : ℕ → String}
    (hclock : cx.isRfc3339 (clock 0) = true) (hpath : validPath c.sourcePath = true)
    (haccepts : Accepts c.sourcePath) (hvalid : c.frontmatter.validated cx = .ok ())
    (hop : h.revisionOp = none) (hentries : ∀ e ∈ s.registry, validPath e.path = true)
    (hpost : ∀ s' markdown, (stampedConcept h (clock 0) c).toMarkdown cx = .ok markdown →
      Put s (stampedConcept h (clock 0) c) markdown s' → post (regenerated s' none) (.ok ())) :
    Ends cx post s ((Call.put c).begin cx h clock) := by
  have hstamped : Stamped cx (stampedConcept h (clock 0) c).frontmatter := ⟨clock 0, rfl, hclock⟩
  obtain ⟨markdown, hmarkdown⟩ := exists_toMarkdown hcx hstamped
  have hplace : validPath (stampedConcept h (clock 0) c).sourcePath = true ∧
      isQueuePath (stampedConcept h (clock 0) c).sourcePath = false := ⟨hpath, haccepts.1⟩
  simp only [Call.begin, haccepts.1, Bool.false_eq_true, if_false, putBatchWithRevision,
    stampAll_singleton, stamp_eq, haccepts.2, hvalid, Except.mapError, Except.map, hop]
  apply ends_next hplace.1 hplace.2 hmarkdown (.inr (by simp))
  intro s' hput _
  apply ends_step rfl
  intro _ _
  apply ends_regenList
  · intro e he
    obtain ⟨now, hregistry⟩ := hput.registry
    replace he : e ∈ (s.register _ now).registry := hregistry ▸ he
    rcases path_of_mem_register he with hnew | ⟨e', he', hold⟩
    · rw [hnew]
      exact hpath
    · rw [← hold]
      exact hentries e' he'
  · exact hpost s' markdown hmarkdown hput

/-! ## What an add does -/

/-- A concept with another body is at the path. -/
def Occupied (cx : Codec) (s : Store) (content path : String) : Prop :=
  ∃ c, s.get cx path = .ok c ∧ trim c.body.toList ≠ trim content.toList

/-- Nothing is at the path, or a concept with the same body up to surrounding blanks. -/
def Free (cx : Codec) (s : Store) (content path : String) : Prop :=
  s.files path = none ∨ ∃ c, s.get cx path = .ok c ∧ trim c.body.toList = trim content.toList

/-- What an add leaves behind. The `index.md` of the directories are no concepts. -/
structure Landed (cx : Codec) (s : Store) (content path : String) (t : Store) : Prop where
  reads : ∃ c, t.get cx path = .ok c ∧ c.body = normalized content
  before : Free cx s content path
  files : ∀ q, q ≠ path → isReserved q = false → t.files q = s.files q
  entries : ∀ q, q ≠ path →
    t.registry.filter (fun e => e.path = q) = s.registry.filter fun e => e.path = q
  index : ∀ q, q ≠ path → t.index q = s.index q

/-- The search ends at this path, and a put accepts it. -/
structure EndsAt (cx : Codec) (s : Store) (args : AddArgs) (n : ℕ) : Prop where
  occupied : ∀ k, k < n → Occupied cx s args.content (candidate args k)
  free : Free cx s args.content (candidate args n)
  queue : isQueuePath (derivePath args) = false
  reserved : n = 0 → isReserved (derivePath args) = false

def advance (cx : Codec) (source : Option String) (args : AddArgs) (x : AddState) (ch : Choice) :
    AddState where
  store := (pointStep cx source args x.store ch x.point).1
  point := (pointStep cx source args x.store ch x.point).2

def outcomeOf (x : AddState) : Option (Except StoreError String) :=
  match x.point with
  | .returned r => some r
  | _ => none

/-- The add gets to its end from here and has landed. -/
def LandsFrom (cx : Codec) (source : Option String) (args : AddArgs) (s : Store) (x : AddState) :
    Prop :=
  Completes (advance cx source args) outcomeOf (Clocked cx)
    (fun t r => ∃ path, r = .ok path ∧ Landed cx s args.content path t.store) x

def Lands (cx : Codec) (source : Option String) (args : AddArgs) (s : Store) : Prop :=
  LandsFrom cx source args s (AddState.begin s args)

theorem typeOf_not_blank (args : AddArgs) : (trim (typeOf args).toList).isEmpty = false := by
  unfold typeOf
  cases args.conceptType with
  | none => decide
  | some t =>
    simp only [Option.map_some, Option.filter_some]
    by_cases hblank : String.ofList (trim t.toList) = ""
    · simp only [hblank, ne_eq, not_true, decide_false]
      decide
    · simp only [hblank, ne_eq, not_false_eq_true, decide_true, if_true, Option.getD_some,
        String.toList_ofList]
      apply trim_trim_not_empty
      intro hnil
      exact hblank (by rw [hnil])

variable {source : Option String} {args : AddArgs} {s : Store}

/-- INTERNAL: what is left when the put of the added concept has returned. -/
theorem landed_of_put (hcx : Faithful cx) {s' : Store} {path now when' markdown : String}
    (hpath : validPath path = true) (hreserved : isReserved path = false)
    (hnow : cx.isRfc3339 now = true) (hfree : Free cx s args.content path)
    (hmarkdown : (stampedConcept (rowHandle source) now (addedConcept args path when')).toMarkdown
      cx = .ok markdown)
    (hput : Put s (stampedConcept (rowHandle source) now (addedConcept args path when')) markdown
      s') : Landed cx s args.content path (regenerated s' none) := by
  obtain ⟨hregistry, hindex, -⟩ := regenerated_fields s' none
  obtain ⟨row, hentries⟩ := hput.registry
  refine ⟨?_, hfree, ?_, ?_, ?_⟩
  · have hget := get_of_put hcx (c := addedConcept args path when') (h := rowHandle source) hnow
      hpath hreserved hmarkdown hput
    refine ⟨_, hget.trans (if_neg ?_), rfl⟩
    exact Bool.eq_false_iff.mp (typeOf_not_blank args)
  · intro q hq hordinary
    rw [files_regenerated_of_ordinary s' none hordinary, hput.files]
    exact if_neg hq
  · intro q hq
    rw [hregistry, hentries]
    exact entries_register row hq
  · intro q hq
    rw [hindex, hput.index]
    exact if_neg hq

/-- INTERNAL: a put inside an add. -/
theorem landsFrom_putting {t : Store} {path : String} {pc : Pc}
    (h : Ends cx (fun u r => r = .ok () ∧ Landed cx s args.content path u) t pc) :
    LandsFrom cx source args s { store := t, point := .putting path pc } := by
  apply h.embed (fun r => ({ store := r.1, point := .putting path r.2 } : AddState))
  · intro r _
    rfl
  · rintro ⟨u, pc⟩ ch hpc
    cases pc with
    | finished x => cases hpc
    | _ => rfl
  · rintro ⟨u, pc⟩ r hpc ⟨rfl, hlanded⟩
    cases pc with
    | finished x =>
      cases hpc
      apply Completes.step rfl
      intro ch _
      exact .done rfl ⟨path, rfl, hlanded⟩
    | _ => cases hpc

/-! ## The search -/

/-- The add at the `k`-th probe of its search. -/
def probe (s : Store) (args : AddArgs) (k : ℕ) : AddState where
  store := s
  point := .probing (candidate args k) ((k + 2) % u32Bound)

/-- INTERNAL: the probe of an occupied path is followed by the next one. -/
theorem advance_probe_occupied (ch : Choice) {k : ℕ}
    (h : Occupied cx s args.content (candidate args k)) :
    advance cx source args (probe s args k) ch = probe s args (k + 1) := by
  obtain ⟨c, hget, hbody⟩ := h
  have hsuffix : ((k + 2) % u32Bound + 1) % u32Bound = (k + 1 + 2) % u32Bound := by
    rw [Nat.mod_add_mod]
  simp only [advance, probe, pointStep, hget, hbody, if_false, hsuffix]
  rfl

/-- INTERNAL: the probe of a free path is followed by the put. -/
theorem advance_probe_free (ch : Choice) {k : ℕ}
    (h : Free cx s args.content (candidate args k)) :
    advance cx source args (probe s args k) ch =
      { store := s, point := putAt cx source args ch.clock (candidate args k) } := by
  rcases h with hnone | ⟨c, hget, hbody⟩
  · have hget : s.get cx (candidate args k) = .error (.notFound (candidate args k)) := by
      unfold Store.get
      rw [read_valid (validPath_candidate args k), hnone]
    simp only [advance, probe, pointStep, hget]
  · simp only [advance, probe, pointStep, hget, hbody, if_true]

/-- INTERNAL: the probe of any other path is the end. -/
theorem advance_probe_error (ch : Choice) {k : ℕ}
    (hoccupied : ¬ Occupied cx s args.content (candidate args k))
    (hfree : ¬ Free cx s args.content (candidate args k)) :
    ∃ e, advance cx source args (probe s args k) ch =
      { store := s, point := .returned (.error e) } := by
  cases hget : s.get cx (candidate args k) with
  | ok c =>
    by_cases hbody : trim c.body.toList = trim args.content.toList
    · exact absurd (.inr ⟨c, hget, hbody⟩) hfree
    · exact absurd ⟨c, hget, hbody⟩ hoccupied
  | error e =>
    have hnot : ∀ path, e ≠ .notFound path := by
      rintro path rfl
      apply hfree
      left
      unfold Store.get at hget
      rw [read_valid (validPath_candidate args k)] at hget
      cases hfile : s.files (candidate args k) with
      | none => rfl
      | some markdown =>
        rw [hfile] at hget
        cases hparse : Concept.parse cx (candidate args k) markdown with
        | error e' =>
          simp only [hparse, Except.mapError] at hget
          cases hget
        | ok c =>
          simp only [hparse, Except.mapError] at hget
          cases hget
    -- with `hnot` the last case of the match is the one left
    refine ⟨e, ?_⟩
    simp only [advance, probe, pointStep, hget]

theorem accepts_candidate {n : ℕ} (h : EndsAt cx s args n) : Accepts (candidate args n) := by
  refine ⟨(isQueuePath_candidate args n).trans h.queue, ?_⟩
  cases n with
  | zero => exact h.reserved rfl
  | succ k => exact isReserved_candidate_succ args k

/-- INTERNAL: an add whose search ends lands. -/
theorem lands_of_endsAt (hcx : Faithful cx) (hentries : ∀ e ∈ s.registry, validPath e.path = true)
    {n : ℕ} (h : EndsAt cx s args n) : Lands cx source args s := by
  -- from the last probe back to the first
  have hprobe : ∀ j k, k + j = n → LandsFrom cx source args s (probe s args k) := by
    intro j
    induction j with
    | zero =>
      intro k hk
      obtain rfl : k = n := by omega
      apply Completes.step rfl
      intro ch hch
      rw [advance_probe_free ch h.free]
      apply landsFrom_putting
      apply ends_put_accepted hcx (hch 1) (validPath_candidate args k) (accepts_candidate h) rfl rfl
        hentries
      intro s' markdown hmarkdown hput
      exact ⟨rfl, landed_of_put hcx (validPath_candidate args k) (accepts_candidate h).2 (hch 1)
        h.free hmarkdown hput⟩
    | succ j ih =>
      intro k hk
      apply Completes.step rfl
      intro ch _
      rw [advance_probe_occupied ch (h.occupied k (by omega))]
      exact ih (k + 1) (by omega)
  exact hprobe n 0 (by omega)

/-- INTERNAL: an add that has returned an error has not landed. -/
theorem not_lands_error {t : Store} {e : StoreError} :
    ¬ LandsFrom cx source args s { store := t, point := .returned (.error e) } := by
  intro h
  cases h with
  | done hresult hpost =>
    obtain ⟨path, rfl, -⟩ := hpost
    cases hresult
  | step hnone _ => cases hnone

/-- INTERNAL: nor has one whose put is refused. -/
theorem not_lands_refused {ch : Choice} (hch : Clocked cx ch) {t : Store} {path : String}
    (hrefused : ¬ Accepts path) :
    ¬ LandsFrom cx source args s { store := t, point := putAt cx source args ch.clock path } := by
  have hbegin : ∃ e, putAt cx source args ch.clock path = .putting path (.finished (.error e)) := by
    unfold putAt
    simp only [Call.begin]
    cases hqueue : isQueuePath path with
    | true =>
      refine ⟨.queuePath path, ?_⟩
      simp only [addedConcept, hqueue, if_true]
    | false =>
      cases hreserved : isReserved path with
      | true =>
        refine ⟨.reserved path, ?_⟩
        simp only [addedConcept, hqueue, Bool.false_eq_true, if_false, putBatchWithRevision,
          stampAll_singleton, stamp_eq, hreserved, if_true]
        rfl
      | false => exact absurd ⟨hqueue, hreserved⟩ hrefused
  obtain ⟨e, hbegin⟩ := hbegin
  rw [hbegin]
  intro h
  cases h with
  | done hresult _ => cases hresult
  | step _ hnext => exact not_lands_error (hnext ch hch)

/-- INTERNAL: the search of an add that lands ends. -/
theorem endsAt_of_lands {ch : Choice} (hch : Clocked cx ch) (h : Lands cx source args s) :
    ∃ n, EndsAt cx s args n := by
  -- along the steps of the search, with what it has met so far
  have hsearch {x : AddState} (hx : LandsFrom cx source args s x) :
      ∀ k, x = probe s args k → (∀ j, j < k → Occupied cx s args.content (candidate args j)) →
        ∃ n, EndsAt cx s args n := by
    induction hx with
    | done hresult _ =>
      rintro k rfl _
      cases hresult
    | step _ hnext ih =>
      rintro k rfl hmet
      by_cases hoccupied : Occupied cx s args.content (candidate args k)
      · apply ih ch hch (k + 1) (advance_probe_occupied ch hoccupied)
        intro j hj
        by_cases hjk : j = k
        · exact hjk ▸ hoccupied
        · exact hmet j (by omega)
      · by_cases hfree : Free cx s args.content (candidate args k)
        · have hput := hnext ch hch
          rw [advance_probe_free ch hfree] at hput
          have haccepts : Accepts (candidate args k) := by
            by_contra hrefused
            exact not_lands_refused hch hrefused hput
          refine ⟨k, hmet, hfree, ?_, ?_⟩
          · rw [← isQueuePath_candidate args k]
            exact haccepts.1
          · rintro rfl
            exact haccepts.2
        · obtain ⟨e, herror⟩ := @advance_probe_error cx source args s ch k hoccupied hfree
          have hend := hnext ch hch
          rw [herror] at hend
          exact absurd hend not_lands_error
  exact hsearch h 0 rfl (by intro j hj; omega)

/-- **The exact condition.** The add lands, whatever the clock, if and only if one of the paths
it tries is free, those before it hold other bodies, and a put accepts it.
SOURCE: fallback.rs:18-66, queue_worker.rs:588-661 -/
theorem fallback_lands (hcx : Faithful cx) {now : String} (hnow : cx.isRfc3339 now = true)
    (source : Option String) (args : AddArgs) {s : Store}
    (hentries : ∀ e ∈ s.registry, validPath e.path = true) :
    Lands cx source args s ↔ ∃ n, EndsAt cx s args n := by
  constructor
  · intro h
    have hclocked : Clocked cx { clock := fun _ => now } := fun _ => hnow
    exact endsAt_of_lands hclocked h
  · rintro ⟨n, h⟩
    exact lands_of_endsAt hcx hentries h

/-! ## Where the search ends -/

theorem suffixed_injective (base : String) {m n : ℕ} (h : suffixed base m = suffixed base n) :
    m = n := by
  have hlist := congrArg String.toList h
  simp only [suffixed, String.toList_append, List.append_assoc, List.append_cancel_left_eq,
    Nat.toString_eq_repr, Nat.toList_repr] at hlist
  have hdigits := congrArg (Nat.ofDigitChars 10 · 0) (List.append_cancel_right hlist)
  simpa only [Nat.ofDigitChars_ten_toDigits] using hdigits

/-- INTERNAL: more paths than files. -/
theorem exists_absent_candidate {F : Finset String} (hF : ∀ q, s.files q ≠ none → q ∈ F)
    (hcard : F.card + 2 < u32Bound) : ∃ n, s.files (candidate args n) = none := by
  by_contra hall
  have hmem : ∀ k, candidate args k ∈ F := by
    intro k
    apply hF
    intro hnone
    exact hall ⟨k, hnone⟩
  have hmaps : Set.MapsTo (fun k => candidate args (k + 1)) (Finset.range (F.card + 1)) F :=
    fun k _ => hmem (k + 1)
  obtain ⟨j, hj, k, hk, hne, hsame⟩ := Finset.exists_ne_map_eq_of_card_lt_of_maps_to
    (by rw [Finset.card_range]; omega) hmaps
  rw [Finset.mem_range] at hj hk
  have hsuffix := suffixed_injective _ hsame
  rw [Nat.mod_eq_of_lt (by omega), Nat.mod_eq_of_lt (by omega)] at hsuffix
  omega

/-- In a scope of fewer than `2 ^ 32 - 2` files the search ends when the files it meets parse,
so that it is the first path that decides. -/
theorem exists_endsAt {F : Finset String} (hF : ∀ q, s.files q ≠ none → q ∈ F)
    (hcard : F.card + 2 < u32Bound)
    (hparse : ∀ k, s.files (candidate args k) ≠ none → ∃ c, s.get cx (candidate args k) = .ok c)
    (haccepts : Accepts (derivePath args)) : ∃ n, EndsAt cx s args n := by
  classical
  have hexists : ∃ n, ¬ Occupied cx s args.content (candidate args n) := by
    obtain ⟨n, hnone⟩ : ∃ n, s.files (candidate args n) = none := exists_absent_candidate hF hcard
    refine ⟨n, ?_⟩
    rintro ⟨c, hget, -⟩
    unfold Store.get at hget
    rw [read_valid (validPath_candidate args n), hnone] at hget
    cases hget
  refine ⟨Nat.find hexists, ?_, ?_, haccepts.1, fun _ => haccepts.2⟩
  · intro k hk
    exact not_not.mp (Nat.find_min hexists hk)
  · have hnot := Nat.find_spec hexists
    by_cases hnone : s.files (candidate args (Nat.find hexists)) = none
    · exact .inl hnone
    · obtain ⟨c, hget⟩ := hparse _ hnone
      refine .inr ⟨c, hget, ?_⟩
      by_contra hbody
      exact hnot ⟨c, hget, hbody⟩

/-! ## Two adds -/

/-- An add to an empty scope. -/
theorem add_lands : Lands noteCodec (some "mcp") { content := "8080" } (Store.empty "user:1") := by
  apply (fallback_lands faithful_noteCodec (noteChoice_clocked 0) (some "mcp")
    { content := "8080" } (by simp [Store.empty])).mpr
  refine ⟨0, ?_, .inl rfl, by decide +kernel, fun _ => by decide +kernel⟩
  intro k hk
  omega

/-- A hint whose slug is the name of a directory index. -/
theorem add_index_refused :
    ¬ ∀ (cx : Codec) (now : String) (source : Option String) (args : AddArgs) (s : Store),
      Faithful cx → cx.isRfc3339 now = true → (trim args.content.toList).isEmpty = false →
      (∀ e ∈ s.registry, validPath e.path = true) → Lands cx source args s := by
  intro hall
  have hlands := hall noteCodec noteTime (some "mcp") { content := "8080", pathHint := some "index" }
    (Store.empty "user:1") faithful_noteCodec (noteChoice_clocked 0) (by decide)
    (by simp [Store.empty])
  obtain ⟨n, hends⟩ := endsAt_of_lands noteChoice_clocked hlands
  cases n with
  | zero => exact absurd (hends.reserved rfl) (by decide +kernel)
  | succ k =>
    -- nothing is at the first path, so that the search does not go on
    obtain ⟨c, hget, -⟩ := hends.occupied 0 (by omega)
    unfold Store.get at hget
    rw [read_valid (validPath_candidate _ 0)] at hget
    cases hget

end Mycelium.Analysis.FallbackLanding
