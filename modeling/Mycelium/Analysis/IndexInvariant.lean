import Mycelium.Analysis.SearchRefinement
import Mycelium.Lib.Fallible

/-!
# What the in-memory index holds after any additions

An index built by `add` holds the latest concept at each path and nothing else
(`index_holds_latest`): a posting counts the term in its text, the posting lists are not
empty and name documents only, and the length of a document is the sum of its counts. So
the indexing of `search` finds its document.

The counters are 32 bits wide: a text with `2 ^ 32` occurrences of a term has a posting of
zero (`count_wraps`).
-/

set_option autoImplicit false

namespace Mycelium.Analysis.IndexInvariant

open Mycelium.Model.Text Mycelium.Model.Concepts Mycelium.Model.Search
open Mycelium.Analysis.SearchOracle Mycelium.Analysis.SearchRefinement

/-! ## The index after a history -/

def indexOf (lower : String → String) (hist : List Concept) : InMemoryIndex :=
  hist.foldl (InMemoryIndex.add lower) InMemoryIndex.new

/-- The latest concept added at a path. -/
def latestAt (hist : List Concept) (path : String) : Option Concept :=
  hist.reverse.find? fun c => c.sourcePath = path

/-- The count the posting list of a term has for a path. -/
def postingAt (idx : InMemoryIndex) (term path : String) : Option ℕ :=
  (idx.postings.get? term).bind fun docs => docs.get? path

/-- The counts of a path in all posting lists. -/
def countsAt (idx : InMemoryIndex) (path : String) : List ℕ :=
  idx.postings.entries.filterMap fun e => e.2.get? path

/-- The index holds the latest concepts of the history. Counts and lengths are 32 bits
wide. -/
structure HoldsLatest (lower : String → String) (hist : List Concept) (idx : InMemoryIndex) :
    Prop where
  counts : ∀ term path n, postingAt idx term path = some n ↔
    ∃ c, latestAt hist path = some c ∧ term ∈ toks lower c ∧ n = (toks lower c).count term % u32
  nonempty : ∀ term docs, idx.postings.get? term = some docs → docs.size ≠ 0
  listed : ∀ term path n, postingAt idx term path = some n → (idx.docs.get? path).isSome
  lengths : ∀ path doc, idx.docs.get? path = some doc →
    doc.length = (countsAt idx path).sum % u32
  /-- A text that 32 bits can count is counted exactly. -/
  exactly : ∀ path c, latestAt hist path = some c → (toks lower c).length < u32 →
    (∀ term ∈ toks lower c, postingAt idx term path = some ((toks lower c).count term)) ∧
      ∃ doc, idx.docs.get? path = some doc ∧ doc.length = (countsAt idx path).sum

/-! ## One addition -/

section

variable {lower : String → String} {hist : List Concept} {idx : InMemoryIndex} {C : Corpus}

theorem indexOf_append (hist : List Concept) (c : Concept) :
    indexOf lower (hist ++ [c]) = (indexOf lower hist).add lower c := by
  rw [indexOf, List.foldl_append]
  rfl

theorem latestAt_append (hist : List Concept) (c : Concept) (path : String) :
    latestAt (hist ++ [c]) path =
      if path = c.sourcePath then some c else latestAt hist path := by
  rw [latestAt, List.reverse_append, List.reverse_singleton, List.singleton_append]
  by_cases hpath : path = c.sourcePath
  · rw [List.find?_cons_of_pos (by simpa using hpath.symm), if_pos hpath]
  · rw [List.find?_cons_of_neg (by simpa using Ne.symm hpath), if_neg hpath]
    rfl

def NoEmptyList (postings : Dict String (Dict String ℕ)) : Prop :=
  ∀ term docs, postings.get? term = some docs → docs.size ≠ 0

/-- INTERNAL: the count of a token is in its list. -/
theorem noEmptyList_countToken {path : String} {postings : Dict String (Dict String ℕ)}
    (h : NoEmptyList postings) (token : String) : NoEmptyList (countToken path postings token) := by
  intro term docs hdocs
  rw [countToken, Dict.get?_upsert] at hdocs
  by_cases hterm : term = token
  · rw [if_pos hterm] at hdocs
    cases hdocs
    exact Dict.size_ne_zero ((Dict.get?_upsert _ path path 0 _).trans (if_pos rfl))
  · rw [if_neg hterm] at hdocs
    exact h term docs hdocs

theorem noEmptyList_foldl {path : String} (tokens : List String)
    {postings : Dict String (Dict String ℕ)} (h : NoEmptyList postings) :
    NoEmptyList (tokens.foldl (countToken path) postings) := by
  induction tokens generalizing postings with
  | nil => exact h
  | cons token tokens ih => exact ih (noEmptyList_countToken h token)

/-- INTERNAL: a list that the re-add leaves empty is dropped. -/
theorem noEmptyList_add (idx : InMemoryIndex) (c : Concept) :
    NoEmptyList (idx.add lower c).postings := by
  apply noEmptyList_foldl
  intro term docs hdocs
  rw [Dict.get?_retain, Option.filter_eq_some_iff] at hdocs
  simpa using hdocs.2

/-- INTERNAL: the index after a history represents the latest concepts. -/
theorem represents_indexOf (lower : String → String) (hist : List Concept) :
    ∃ C, Represents lower (indexOf lower hist) C ∧
      ∀ path, (C.docAt path).map Prod.fst = latestAt hist path := by
  induction hist using List.reverseRecOn with
  | nil => exact ⟨[], represents_new lower, fun _ => rfl⟩
  | append_singleton hist c ih =>
    obtain ⟨C, hC, hlatest⟩ := ih
    refine ⟨C.replace (c, 0), ?_, ?_⟩
    · rw [indexOf_append]
      exact represents_add lower hC c 0
    · intro path
      rw [docAt_replace, latestAt_append, ← hlatest]
      split <;> rfl

theorem noEmptyList_indexOf (lower : String → String) (hist : List Concept) :
    NoEmptyList (indexOf lower hist).postings := by
  induction hist using List.reverseRecOn with
  | nil =>
    intro term docs hdocs
    cases hdocs
  | append_singleton hist c _ =>
    rw [indexOf_append]
    exact noEmptyList_add _ c

/-! ## The counts of a document -/

/-- INTERNAL: the counts of a path are those of the distinct terms of its document, in some
order. -/
theorem countsAt_perm (h : Represents lower idx C) {d : Concept × ℕ}
    (hd : C.docAt d.1.sourcePath = some d) :
    (countsAt idx d.1.sourcePath).Perm
      ((toks lower d.1).dedup.map fun term => (toks lower d.1).count term % u32) := by
  let counted := fun term => (toks lower d.1).count term % u32
  have hfreq : ∀ term, postingAt idx term d.1.sourcePath = freq lower term d.1 := by
    intro term
    rw [postingAt, h.postings, hd, Option.bind_some]
  -- every entry of the outer map is read at its own term
  have hcounts : countsAt idx d.1.sourcePath =
      (idx.postings.keys.filter fun term => term ∈ toks lower d.1).map counted := by
    have hentry : ∀ e ∈ idx.postings.entries, e.2.get? d.1.sourcePath =
        freq lower e.1 d.1 := by
      intro e he
      rw [← hfreq, postingAt, Dict.mem_entries.mp he, Option.bind_some]
    have hkeys : idx.postings.keys = idx.postings.entries.map Sigma.fst := rfl
    rw [countsAt, List.filterMap_congr hentry, hkeys, ← List.filterMap_eq_map,
      List.filterMap_filter, List.filterMap_map]
    refine List.filterMap_congr ?_
    intro e _
    simp [freq, counted]
  have hterms : (idx.postings.keys.filter fun term => term ∈ toks lower d.1).Perm
      (toks lower d.1).dedup := by
    refine (List.perm_ext_iff_of_nodup (idx.postings.keys_nodup.filter _)
      (List.nodup_dedup _)).mpr ?_
    intro term
    rw [List.mem_filter, List.mem_dedup, decide_eq_true_eq]
    refine ⟨fun hterm => hterm.2, fun hterm => ⟨?_, hterm⟩⟩
    rw [Dict.mem_keys_iff]
    have hsome := hfreq term
    rw [freq, if_pos hterm, postingAt, Option.bind_eq_some_iff] at hsome
    obtain ⟨docs, hdocs, -⟩ := hsome
    rw [hdocs]
    rfl
  rw [hcounts]
  exact hterms.map counted

theorem sum_countsAt_mod (h : Represents lower idx C) {d : Concept × ℕ}
    (hd : C.docAt d.1.sourcePath = some d) :
    (countsAt idx d.1.sourcePath).sum % u32 = (toks lower d.1).length % u32 := by
  have hmod := List.sum_nat_mod ((toks lower d.1).dedup.map fun term => (toks lower d.1).count term)
    u32
  rw [List.sum_map_count_dedup_eq_length, List.map_map] at hmod
  rw [hmod, (countsAt_perm h hd).sum_eq]
  rfl

/-- INTERNAL: a text that 32 bits can count. -/
theorem sum_countsAt (h : Represents lower idx C) {d : Concept × ℕ}
    (hd : C.docAt d.1.sourcePath = some d) (hlen : (toks lower d.1).length < u32) :
    (countsAt idx d.1.sourcePath).sum = (toks lower d.1).length := by
  have hcount : ∀ term ∈ (toks lower d.1).dedup, (toks lower d.1).count term % u32 =
      (toks lower d.1).count term :=
    fun term _ => Nat.mod_eq_of_lt (List.count_le_length.trans_lt hlen)
  rw [(countsAt_perm h hd).sum_eq, List.map_congr_left hcount,
    List.sum_map_count_dedup_eq_length]

/-! ## The index and its search -/

/-- INTERNAL: what represents the latest concepts holds them. -/
theorem holdsLatest_of_represents (h : Represents lower idx C)
    (hlatest : ∀ path, (C.docAt path).map Prod.fst = latestAt hist path)
    (hempty : NoEmptyList idx.postings) : HoldsLatest lower hist idx := by
  have hdocAt : ∀ {path c}, latestAt hist path = some c → ∃ d, C.docAt path = some d ∧
      d.1 = c ∧ d.1.sourcePath = path := by
    intro path c hc
    rw [← hlatest, Option.map_eq_some_iff] at hc
    obtain ⟨d, hd, rfl⟩ := hc
    exact ⟨d, hd, rfl, ((docAt_eq_some h.distinct).mp hd).2⟩
  have hposting : ∀ term path, postingAt idx term path =
      (latestAt hist path).bind fun c => freq lower term c := by
    intro term path
    rw [postingAt, h.postings, ← hlatest, Option.bind_map]
    rfl
  have hdocs : ∀ path, idx.docs.get? path = (latestAt hist path).map (metaOf lower) := by
    intro path
    rw [h.docs, ← hlatest, Option.map_map]
    rfl
  constructor
  · intro term path n
    rw [hposting, Option.bind_eq_some_iff]
    refine exists_congr fun c => and_congr_right fun _ => ?_
    rw [freq]
    split <;> rename_i hterm <;> simp [hterm, eq_comm]
  · exact hempty
  · intro term path n hn
    rw [hposting, Option.bind_eq_some_iff] at hn
    obtain ⟨c, hc, -⟩ := hn
    rw [hdocs, hc]
    rfl
  · intro path doc hdoc
    rw [hdocs, Option.map_eq_some_iff] at hdoc
    obtain ⟨c, hc, rfl⟩ := hdoc
    obtain ⟨d, hd, rfl, rfl⟩ := hdocAt hc
    exact (sum_countsAt_mod h hd).symm
  · intro path c hc hlen
    obtain ⟨d, hd, rfl, rfl⟩ := hdocAt hc
    constructor
    · intro term hterm
      rw [hposting, hc, Option.bind_some, freq, if_pos hterm,
        Nat.mod_eq_of_lt (List.count_le_length.trans_lt hlen)]
    · refine ⟨metaOf lower d.1, ?_, ?_⟩
      · rw [hdocs, hc]
        rfl
      · rw [sum_countsAt h hd hlen]
        exact Nat.mod_eq_of_lt hlen

theorem doc_of_get? {path : String} {doc : DocMeta} (h : idx.docs.get? path = some doc) :
    idx.doc path = doc := by
  rw [InMemoryIndex.doc, h]
  rfl

variable {K : Type} [Field K] [LinearOrder K]

/-- INTERNAL: the paths of a posting list have documents, so that the indexing of a term's
contributions finds them. -/
theorem scoreTermIndexed_eq (ln : K → K)
    (hlisted : ∀ term path n, postingAt idx term path = some n → (idx.docs.get? path).isSome)
    (filter : StatusFilter) (scores : Dict String K) (token : String) :
    idx.scoreTermIndexed ln filter scores token = some (idx.scoreTerm ln filter scores token) := by
  unfold InMemoryIndex.scoreTermIndexed InMemoryIndex.scoreTerm
  cases hdocs : idx.postings.get? token with
  | none => rfl
  | some docs =>
    apply Fallible.foldlM_of_pure
    intro scores e he
    have hn : postingAt idx token e.1 = some e.2 := by
      rw [postingAt, hdocs, Option.bind_some]
      exact Dict.mem_entries.mp he
    obtain ⟨doc, hdoc⟩ := Option.isSome_iff_exists.mp (hlisted token e.1 e.2 hn)
    rw [hdoc, doc_of_get? hdoc]
    exact (apply_ite pure _ _ _).symm

/-- INTERNAL: a scored path has a document. -/
theorem isSome_of_scored (h : Represents lower idx C) (ln : K → K) (filter : StatusFilter)
    (terms : List String) {path : String} {x : K}
    (hx : (terms.foldl (idx.scoreTerm ln filter) ∅).get? path = some x) :
    (idx.docs.get? path).isSome := by
  rw [foldl_scoreTerm, get?_scores ln h] at hx
  rw [h.docs]
  cases hdoc : C.docAt path with
  | none =>
    rw [hdoc] at hx
    cases hx
  | some d => rfl

theorem searchIndexed_eq (h : Represents lower idx C) (ln : K → K)
    (hlisted : ∀ term path n, postingAt idx term path = some n → (idx.docs.get? path).isSome)
    (q : SearchQuery) : idx.searchIndexed lower ln q = some (idx.search lower ln q) := by
  have hscores : (distinctTerms lower q.terms).foldlM (idx.scoreTermIndexed ln q.statusFilter) ∅ =
      some ((distinctTerms lower q.terms).foldl (idx.scoreTerm ln q.statusFilter) ∅) :=
    Fallible.foldlM_of_pure
      (fun scores token _ => scoreTermIndexed_eq ln hlisted q.statusFilter scores token) ∅
  rw [InMemoryIndex.searchIndexed, hscores, Option.bind_eq_bind, Option.bind_some,
    Fallible.mapM_of_pure (g := fun e => { conceptPath := e.1, title := (idx.doc e.1).title
                                           snippet := snippetOf (idx.doc e.1).body
                                           score := e.2 })]
  · rfl
  · intro e he
    obtain ⟨doc, hdoc⟩ := Option.isSome_iff_exists.mp
      (isSome_of_scored h ln q.statusFilter _ (Dict.mem_entries.mp he))
    rw [hdoc, doc_of_get? hdoc]
    rfl

end

/-- After any additions the index holds the latest concept at each path: its postings are
the occurrences of the terms in these texts, no list is empty or names a path without a
document, and lengths are sums of counts, as far as 32 bits count. So the search with the
indexing of the code is the search, and the document frequency is at most the number of
documents. -/
theorem index_holds_latest (lower : String → String) (hist : List Concept) :
    HoldsLatest lower hist (indexOf lower hist) ∧
      (∀ {K : Type} [Field K] [LinearOrder K] (ln : K → K) (q : SearchQuery),
        (indexOf lower hist).searchIndexed lower ln q =
          some ((indexOf lower hist).search lower ln q)) ∧
      ∀ term, (indexOf lower hist).df term ≤ (indexOf lower hist).nDocs := by
  obtain ⟨C, hC, hlatest⟩ := represents_indexOf lower hist
  have hholds := holdsLatest_of_represents hC hlatest (noEmptyList_indexOf lower hist)
  refine ⟨hholds, ?_, ?_⟩
  · intro K _ _ ln q
    exact searchIndexed_eq hC ln hholds.listed q
  · intro term
    rw [df_of_represents hC, nDocs_of_represents hC]
    exact List.countP_le_length

/-- A text of `2 ^ 32` occurrences of `aa`: the posting is zero. -/
theorem count_wraps :
    postingAt (indexOf asciiLower [longPage (2 ^ 32)]) "aa" "/long.md" = some 0 ∧
      latestAt [longPage (2 ^ 32)] "/long.md" = some (longPage (2 ^ 32)) ∧
      (toks asciiLower (longPage (2 ^ 32))).count "aa" = 2 ^ 32 := by
  have htoks : toks asciiLower (longPage (2 ^ 32)) = List.replicate (2 ^ 32) "aa" :=
    tokenize_longPage (2 ^ 32)
  have hcount : (toks asciiLower (longPage (2 ^ 32))).count "aa" = 2 ^ 32 := by
    rw [htoks, List.count_replicate_self]
  have hlatest : latestAt [longPage (2 ^ 32)] "/long.md" = some (longPage (2 ^ 32)) :=
    List.find?_cons_of_pos (by rfl)
  obtain ⟨C, hC, hdocAt⟩ := represents_indexOf asciiLower [longPage (2 ^ 32)]
  refine ⟨?_, hlatest, hcount⟩
  rw [(holdsLatest_of_represents hC hdocAt (noEmptyList_indexOf _ _)).counts]
  refine ⟨_, hlatest, ?_, ?_⟩
  · rw [← List.count_pos_iff, hcount]
    norm_num
  · rw [hcount]
    rfl

end Mycelium.Analysis.IndexInvariant
