import Mathlib.Algebra.Order.BigOperators.Group.List
import Mycelium.Model.Search

/-!
# What the in-memory oracle computes

The in-memory index represents the list of the documents last added at each path
(`Corpus`), and answers a query with the ranked hits of that corpus (`hits`,
`search_of_oracle`).
-/

set_option autoImplicit false

namespace Mycelium.Analysis.SearchOracle

open Mycelium.Model.Text Mycelium.Model.Concepts Mycelium.Model.Search

/-! ## The corpus and its hits -/

/-- The current documents, newest first, each with the nonce its payload was sealed
with. -/
abbrev Corpus := List (Concept × ℕ)

/-- A document replaces the one at its path. -/
def Corpus.replace (C : Corpus) (d : Concept × ℕ) : Corpus :=
  d :: C.filter fun e => e.1.sourcePath ≠ d.1.sourcePath

def Corpus.DistinctPaths (C : Corpus) : Prop := (C.map fun d => d.1.sourcePath).Nodup

section Spec

variable (lower : String → String)

def toks (c : Concept) : List String := tokenize lower (searchableText c)

def Corpus.df (C : Corpus) (t : String) : ℕ := C.countP fun d => t ∈ toks lower d.1

def Corpus.total (C : Corpus) (len : Concept → ℕ) : ℕ := (C.map fun d => len d.1).sum

/-- The lifecycle filter lets the concept through. -/
def visible (filter : StatusFilter) (c : Concept) : Bool :=
  !(filter = .activeOnly && isActiveStatus c.frontmatter.status = false)

theorem visible_iff (filter : StatusFilter) (c : Concept) :
    visible filter c = true ↔
      ¬ (filter = .activeOnly ∧ isActiveStatus c.frontmatter.status = false) := by
  simp [visible, imp_iff_not_or]

variable {K : Type} [Field K] [LinearOrder K]

/-- What a term contributes to the score of a document that has it. -/
def contribution (ln : K → K) (C : Corpus) (total : ℕ) (c : Concept) (t : String) : K :=
  bm25Score ln C.length (C.df lower t) ((toks lower c).count t % u32)
    ((toks lower c).length % u32) (avgdl total C.length)

/-- The score of a document: the sum over the query terms it has. -/
def score (ln : K → K) (C : Corpus) (total : ℕ) (terms : List String) (c : Concept) : K :=
  ((terms.filter fun t => t ∈ toks lower c).map (contribution lower ln C total c)).sum

/-- The documents a query finds: those the filter lets through that have one of the
terms. -/
def Corpus.found (C : Corpus) (filter : StatusFilter) (terms : List String) : Corpus :=
  C.filter fun d => visible filter d.1 && terms.any fun t => t ∈ toks lower d.1

/-- The results of a query, before ranking. -/
def hits (ln : K → K) (C : Corpus) (total : ℕ) (filter : StatusFilter) (terms : List String) :
    List (SearchResult K) :=
  (C.found lower filter terms).map fun d =>
    { conceptPath := d.1.sourcePath, title := titleOf d.1, snippet := snippetOf d.1.body
      score := score lower ln C total terms d.1 }

end Spec

/-! ## Documents of a corpus -/

/-- The document at a path. -/
def Corpus.docAt (C : Corpus) (p : String) : Option (Concept × ℕ) :=
  C.find? fun d => d.1.sourcePath = p

theorem docAt_eq_some {C : Corpus} (hC : C.DistinctPaths) {p : String} {d : Concept × ℕ} :
    C.docAt p = some d ↔ d ∈ C ∧ d.1.sourcePath = p := by
  induction C with
  | nil => simp [Corpus.docAt]
  | cons e C ih =>
    have hC' : Corpus.DistinctPaths C := (List.nodup_cons.mp hC).2
    have hnot : e.1.sourcePath ∉ C.map fun d => d.1.sourcePath := (List.nodup_cons.mp hC).1
    unfold Corpus.docAt at ih ⊢
    by_cases he : e.1.sourcePath = p
    · rw [List.find?_cons_of_pos (by simpa using he)]
      constructor
      · intro h
        cases h
        exact ⟨List.mem_cons_self, he⟩
      · rintro ⟨hd, hp⟩
        rcases List.mem_cons.mp hd with rfl | hd
        · rfl
        · exact absurd (List.mem_map.mpr ⟨d, hd, hp.trans he.symm⟩) hnot
    · rw [List.find?_cons_of_neg (by simpa using he), ih hC']
      constructor
      · rintro ⟨hd, hp⟩
        exact ⟨List.mem_cons_of_mem _ hd, hp⟩
      · rintro ⟨hd, hp⟩
        rcases List.mem_cons.mp hd with rfl | hd
        · exact absurd hp he
        · exact ⟨hd, hp⟩

theorem docAt_replace (C : Corpus) (d : Concept × ℕ) (p : String) :
    (C.replace d).docAt p = if p = d.1.sourcePath then some d else C.docAt p := by
  unfold Corpus.docAt Corpus.replace
  by_cases hp : p = d.1.sourcePath
  · rw [List.find?_cons_of_pos (by simpa using hp.symm), if_pos hp]
  · have hne : ¬ d.1.sourcePath = p := fun h => hp h.symm
    rw [List.find?_cons_of_neg (by simpa using hne), if_neg hp, List.find?_filter]
    congr 1
    funext e
    by_cases he : e.1.sourcePath = p
    · simp [he, hp]
    · simp [he]

theorem distinctPaths_replace {C : Corpus} (hC : C.DistinctPaths) (d : Concept × ℕ) :
    (C.replace d).DistinctPaths := by
  unfold Corpus.DistinctPaths Corpus.replace
  rw [List.map_cons, List.nodup_cons]
  refine ⟨?_, hC.sublist (List.filter_sublist.map _)⟩
  intro hmem
  obtain ⟨e, he, hp⟩ := List.mem_map.mp hmem
  have hne := (List.mem_filter.mp he).2
  simp [hp] at hne

/-! ## The oracle -/

section Oracle

variable (lower : String → String)

def metaOf (c : Concept) : DocMeta where
  title := titleOf c
  body := c.body
  status := c.frontmatter.status
  length := (toks lower c).length % u32

/-- The frequency of a term in a document, when the document has it. -/
def freq (t : String) (c : Concept) : Option ℕ :=
  if t ∈ toks lower c then some ((toks lower c).count t % u32) else none

/-- The in-memory index holds the corpus. -/
structure Represents (idx : InMemoryIndex) (C : Corpus) : Prop where
  distinct : C.DistinctPaths
  docs : ∀ p, idx.docs.get? p = (C.docAt p).map fun d => metaOf lower d.1
  postings : ∀ t p, (idx.postings.get? t).bind (fun docs => docs.get? p) =
    (C.docAt p).bind fun d => freq lower t d.1

/-- INTERNAL: one occurrence of a token changes one posting. -/
theorem get?_countToken (path : String) (postings : Dict String (Dict String ℕ))
    (x t p : String) :
    ((countToken path postings x).get? t).bind (fun docs => docs.get? p) =
      if p = path ∧ t = x then
        some ((((postings.get? t).bind fun docs => docs.get? p).getD 0 + 1) % u32)
      else (postings.get? t).bind fun docs => docs.get? p := by
  have hempty : ∀ q, ((postings.get? x).getD ∅).get? q =
      (postings.get? x).bind fun docs => docs.get? q := by
    intro q
    cases postings.get? x <;> rfl
  unfold countToken
  rw [Dict.get?_upsert]
  by_cases ht : t = x
  · subst ht
    rw [if_pos rfl, Option.bind_some, Dict.get?_upsert, hempty, hempty]
    by_cases hp : p = path
    · subst hp
      simp
    · simp [hp]
  · simp [ht]

/-- INTERNAL: counting the tokens of a document at a path adds their numbers to its
postings and touches no other path. -/
theorem get?_foldl_countToken (path : String) (l : List String)
    (postings : Dict String (Dict String ℕ)) (t p : String) :
    ((l.foldl (countToken path) postings).get? t).bind (fun docs => docs.get? p) =
      if p = path ∧ t ∈ l then
        some ((((postings.get? t).bind fun docs => docs.get? p).getD 0 + l.count t) % u32)
      else (postings.get? t).bind fun docs => docs.get? p := by
  induction l generalizing postings with
  | nil => simp
  | cons x l ih =>
    rw [List.foldl_cons, ih, get?_countToken]
    by_cases hp : p = path
    · by_cases ht : t = x
      · subst ht
        by_cases hl : t ∈ l
        · simp only [hp, hl, and_self, ↓reduceIte, Option.getD_some, List.mem_cons, true_or,
            List.count_cons_self]
          rw [Nat.mod_add_mod]
          congr 2
          omega
        · have hzero : l.count t = 0 := List.count_eq_zero.mpr hl
          simp [hp, hl, hzero]
      · have hcount : (x :: l).count t = l.count t := List.count_cons_of_ne (Ne.symm ht)
        rw [hcount]
        simp [hp, ht]
    · simp [hp]

/-- INTERNAL: a re-add takes the path out of every posting list and drops the lists left
empty; the other paths keep their postings. -/
theorem get?_stripped (postings : Dict String (Dict String ℕ)) (path t p : String) :
    (((postings.mapValues fun docs => docs.erase path).retain fun docs =>
      docs.size ≠ 0).get? t).bind (fun docs => docs.get? p) =
      if p = path then none else (postings.get? t).bind fun docs => docs.get? p := by
  rw [Dict.get?_retain, Dict.get?_mapValues]
  cases hdocs : postings.get? t with
  | none => simp
  | some docs =>
    rw [Option.map_some, Option.bind_some, ← Dict.get?_erase, Option.filter_some]
    by_cases hsize : (docs.erase path).size = 0
    · have hnil : (docs.erase path).entries = [] := List.length_eq_zero_iff.mp hsize
      have hnone : (docs.erase path).get? p = none := by
        cases hq : (docs.erase path).get? p with
        | none => rfl
        | some n =>
          have hmem := Dict.mem_entries.mpr hq
          rw [hnil] at hmem
          cases hmem
      simp [hsize, hnone]
    · simp [hsize]

theorem represents_new : Represents lower InMemoryIndex.new [] :=
  ⟨List.nodup_nil, fun _ => rfl, fun _ _ => rfl⟩

theorem represents_add {idx : InMemoryIndex} {C : Corpus} (h : Represents lower idx C)
    (c : Concept) (nonce : ℕ) :
    Represents lower (idx.add lower c) (C.replace (c, nonce)) := by
  refine ⟨distinctPaths_replace h.distinct _, ?_, ?_⟩
  · intro p
    rw [docAt_replace, InMemoryIndex.add, Dict.get?_insert]
    by_cases hp : p = c.sourcePath
    · simp [hp, metaOf, toks]
    · simp [hp, h.docs p]
  · intro t p
    rw [docAt_replace, InMemoryIndex.add, get?_foldl_countToken, get?_stripped]
    by_cases hp : p = c.sourcePath
    · by_cases ht : t ∈ toks lower c
      · have ht' : t ∈ tokenize lower (searchableText c) := ht
        simp [hp, ht', freq, toks]
      · have ht' : t ∉ tokenize lower (searchableText c) := ht
        simp [hp, ht', freq, toks]
    · simp only [hp, false_and, ↓reduceIte]
      exact h.postings t p

/-! ### Its statistics -/

variable {lower} {idx : InMemoryIndex} {C : Corpus}

theorem nDocs_of_represents (h : Represents lower idx C) : idx.nDocs = C.length := by
  have hsize : idx.docs.size = (C.map fun d => d.1.sourcePath).length := by
    refine Dict.size_eq_length h.distinct ?_
    intro p
    rw [h.docs p, Option.isSome_map, List.mem_map]
    constructor
    · rintro ⟨d, hd, hp⟩
      rw [(docAt_eq_some h.distinct).mpr ⟨hd, hp⟩]
      rfl
    · intro hsome
      obtain ⟨d, hd⟩ := Option.isSome_iff_exists.mp hsome
      exact ⟨d, (docAt_eq_some h.distinct).mp hd⟩
  rw [InMemoryIndex.nDocs, hsize, List.length_map]

theorem totalLen_of_represents (h : Represents lower idx C) :
    idx.totalLen = C.total fun c => (toks lower c).length % u32 := by
  have hperm : idx.docs.entries.Perm
      (C.map fun d => (⟨d.1.sourcePath, metaOf lower d.1⟩ : Sigma fun _ : String => DocMeta)) := by
    refine (List.perm_ext_iff_of_nodup idx.docs.nodupKeys.nodup ?_).mpr ?_
    · refine List.Nodup.of_map Sigma.fst ?_
      rw [List.map_map]
      exact h.distinct
    · rintro ⟨p, m⟩
      rw [Dict.mem_entries, h.docs p, List.mem_map, Option.map_eq_some_iff]
      constructor
      · rintro ⟨d, hd, rfl⟩
        obtain ⟨hmem, rfl⟩ := (docAt_eq_some h.distinct).mp hd
        exact ⟨d, hmem, rfl⟩
      · rintro ⟨d, hmem, heq⟩
        cases heq
        exact ⟨d, (docAt_eq_some h.distinct).mpr ⟨hmem, rfl⟩, rfl⟩
  have hsum := (hperm.map fun e => e.2.length).sum_eq
  rw [InMemoryIndex.totalLen, hsum, List.map_map]
  rfl

/-- INTERNAL: the posting list of a term has the documents with the term. -/
theorem df_of_represents (h : Represents lower idx C) (t : String) : idx.df t = C.df lower t := by
  have hmem : ∀ docs, idx.postings.get? t = some docs → ∀ p,
      p ∈ ((C.filter fun d => decide (t ∈ toks lower d.1)).map fun d => d.1.sourcePath) ↔
        (docs.get? p).isSome = true := by
    intro docs hdocs p
    have hpost := h.postings t p
    rw [hdocs, Option.bind_some] at hpost
    rw [hpost, List.mem_map]
    constructor
    · rintro ⟨d, hd, hp⟩
      obtain ⟨hdC, ht⟩ := List.mem_filter.mp hd
      have ht : t ∈ toks lower d.1 := by simpa using ht
      rw [(docAt_eq_some h.distinct).mpr ⟨hdC, hp⟩]
      simp [freq, ht]
    · intro hsome
      cases hdoc : C.docAt p with
      | none => simp [hdoc] at hsome
      | some d =>
        obtain ⟨hdC, hp⟩ := (docAt_eq_some h.distinct).mp hdoc
        refine ⟨d, List.mem_filter.mpr ⟨hdC, ?_⟩, hp⟩
        by_contra hnot
        have hnot : t ∉ toks lower d.1 := by simpa using hnot
        simp [hdoc, freq, hnot] at hsome
  unfold InMemoryIndex.df Corpus.df
  rw [List.countP_eq_length_filter]
  cases hdocs : idx.postings.get? t with
  | some docs =>
    have hnodup : ((C.filter fun d => decide (t ∈ toks lower d.1)).map
        fun d => d.1.sourcePath).Nodup := h.distinct.sublist (List.filter_sublist.map _)
    have hsize := Dict.size_eq_length hnodup (hmem docs hdocs)
    rw [List.length_map] at hsize
    exact hsize
  | none =>
    symm
    rw [List.length_eq_zero_iff, List.filter_eq_nil_iff]
    intro d hd ht
    have ht : t ∈ toks lower d.1 := by simpa using ht
    have hpost := h.postings t d.1.sourcePath
    rw [hdocs, (docAt_eq_some h.distinct).mpr ⟨hd, rfl⟩] at hpost
    simp [freq, ht] at hpost

theorem tf_of_represents (h : Represents lower idx C) (t p : String) :
    idx.tf t p = ((C.docAt p).bind fun d => freq lower t d.1).getD 0 := by
  rw [← h.postings t p]
  unfold InMemoryIndex.tf
  cases idx.postings.get? t <;> rfl

theorem doc_of_represents (h : Represents lower idx C) {d : Concept × ℕ} (hd : d ∈ C) :
    idx.doc d.1.sourcePath = metaOf lower d.1 := by
  rw [InMemoryIndex.doc, h.docs, (docAt_eq_some h.distinct).mpr ⟨hd, rfl⟩]
  rfl

/-! ### Its search -/

variable {K : Type} [Field K] [LinearOrder K]

/-- What a term adds to the scores, path by path. -/
def weights (ln : K → K) (idx : InMemoryIndex) (filter : StatusFilter) (token : String) :
    List (String × K) :=
  match idx.postings.get? token with
  | none => []
  | some docs => docs.entries.filterMap fun e =>
      if filter = .activeOnly ∧ isActiveStatus (idx.doc e.1).status = false then none
      else some (e.1, bm25Score ln idx.nDocs docs.size e.2 (idx.doc e.1).length
        (avgdl idx.totalLen idx.nDocs))

theorem scoreTerm_eq_addAll (ln : K → K) (idx : InMemoryIndex) (filter : StatusFilter)
    (scores : Dict String K) (token : String) :
    idx.scoreTerm ln filter scores token = scores.addAll (weights ln idx filter token) := by
  unfold InMemoryIndex.scoreTerm weights
  cases idx.postings.get? token with
  | none => rfl
  | some docs =>
    simp only [Dict.addAll, List.foldl_filterMap]
    congr 1
    funext scores e
    split <;> rfl

theorem foldl_scoreTerm (ln : K → K) (idx : InMemoryIndex) (filter : StatusFilter)
    (terms : List String) (scores : Dict String K) :
    terms.foldl (idx.scoreTerm ln filter) scores =
      scores.addAll (terms.flatMap (weights ln idx filter)) := by
  induction terms generalizing scores with
  | nil => rfl
  | cons t terms ih =>
    rw [List.foldl_cons, ih, scoreTerm_eq_addAll, List.flatMap_cons, Dict.addAll_append]

/-- INTERNAL: the path of a document gets the contribution of a term it has, once; a path
without a document gets nothing. -/
theorem weightsOf_weights (ln : K → K) (h : Represents lower idx C) (filter : StatusFilter)
    (t p : String) :
    Dict.weightsOf (weights ln idx filter t) p =
      match C.docAt p with
      | none => []
      | some d =>
        if visible filter d.1 = true ∧ t ∈ toks lower d.1 then
          [contribution lower ln C (C.total fun c => (toks lower c).length % u32) d.1 t]
        else [] := by
  have hpost := h.postings t p
  have hdf := df_of_represents h t
  unfold weights
  unfold InMemoryIndex.df at hdf
  cases hdocs : idx.postings.get? t with
  | none =>
    rw [hdocs, Option.bind_none] at hpost
    cases hdoc : C.docAt p with
    | none => rfl
    | some d =>
      have ht : t ∉ toks lower d.1 := by
        intro ht
        simp [hdoc, freq, ht] at hpost
      simp [Dict.weightsOf, ht]
  | some docs =>
    rw [hdocs, Option.bind_some] at hpost
    rw [hdocs] at hdf
    have hdf : docs.size = C.df lower t := hdf
    -- the entries of the posting list at this path
    have hentries : Dict.weightsOf (docs.entries.filterMap fun e =>
        if filter = .activeOnly ∧ isActiveStatus (idx.doc e.1).status = false then none
        else some (e.1, bm25Score ln idx.nDocs docs.size e.2 (idx.doc e.1).length
          (avgdl idx.totalLen idx.nDocs))) p =
        (docs.entries.filter fun e => e.1 = p).filterMap fun e =>
          if filter = .activeOnly ∧ isActiveStatus (idx.doc e.1).status = false then none
          else some (bm25Score ln idx.nDocs docs.size e.2 (idx.doc e.1).length
            (avgdl idx.totalLen idx.nDocs)) := by
      unfold Dict.weightsOf
      rw [List.filter_filterMap, List.map_filterMap, List.filterMap_filter]
      congr 1
      funext e
      by_cases he : e.1 = p
      · split <;> simp_all
      · split <;> simp_all
    simp only [hentries, Dict.filter_entries_key, hpost]
    cases hdoc : C.docAt p with
    | none => rfl
    | some d =>
      obtain ⟨hdC, rfl⟩ := (docAt_eq_some h.distinct).mp hdoc
      simp only [Option.bind_some, freq]
      by_cases ht : t ∈ toks lower d.1
      · simp only [ht, ↓reduceIte, and_true, List.filterMap_cons, List.filterMap_nil,
          doc_of_represents h hdC, hdf, nDocs_of_represents h, totalLen_of_represents h]
        by_cases hv : visible filter d.1 = true
        · rw [if_pos hv]
          have hshow := (visible_iff filter d.1).mp hv
          rw [if_neg (by exact hshow)]
          rfl
        · rw [if_neg hv]
          have hhide := not_not.mp (mt (visible_iff filter d.1).mpr hv)
          rw [if_pos (by exact hhide)]
      · simp [ht]

/-- INTERNAL: the scores after all terms: the documents found, each with its score. -/
theorem get?_scores (ln : K → K) (h : Represents lower idx C) (filter : StatusFilter)
    (terms : List String) (p : String) :
    (Dict.addAll ∅ (terms.flatMap (weights ln idx filter))).get? p =
      match C.docAt p with
      | none => none
      | some d =>
        if (visible filter d.1 && terms.any fun t => t ∈ toks lower d.1) = true then
          some (score lower ln C (C.total fun c => (toks lower c).length % u32) terms d.1)
        else none := by
  have hweights : Dict.weightsOf (terms.flatMap (weights ln idx filter)) p =
      match C.docAt p with
      | none => []
      | some d =>
        if visible filter d.1 = true then
          (terms.filter fun t => t ∈ toks lower d.1).map
            (contribution lower ln C (C.total fun c => (toks lower c).length % u32) d.1)
        else [] := by
    rw [Dict.weightsOf_flatMap]
    simp only [weightsOf_weights ln h]
    cases C.docAt p with
    | none => simp
    | some d =>
      by_cases hv : visible filter d.1 = true
      · simp only [hv, true_and, ↓reduceIte]
        induction terms with
        | nil => rfl
        | cons t terms ih =>
          by_cases ht : t ∈ toks lower d.1
          · simp [ht, ih]
          · simp [ht, ih]
      · simp [hv]
  rw [Dict.get?_addAll, hweights]
  cases C.docAt p with
  | none => rfl
  | some d =>
    by_cases hv : visible filter d.1 = true
    · by_cases hany : (terms.any fun t => decide (t ∈ toks lower d.1)) = true
      · have hne : ¬ (terms.filter fun t => decide (t ∈ toks lower d.1)) = [] := by
          obtain ⟨t, ht, hin⟩ := List.any_eq_true.mp hany
          exact List.ne_nil_of_mem (List.mem_filter.mpr ⟨ht, hin⟩)
        simp only [hv, hany, Bool.and_self, ↓reduceIte, List.map_eq_nil_iff, hne, Dict.get?_empty,
          Option.getD_none, zero_add]
        rfl
      · have hnil : (terms.filter fun t => decide (t ∈ toks lower d.1)) = [] := by
          rw [List.filter_eq_nil_iff]
          intro t ht hin
          exact hany (List.any_eq_true.mpr ⟨t, ht, hin⟩)
        simp [hv, hany, hnil]
    · simp [hv]

/-- INTERNAL: the oracle answers with the ranked hits of its corpus. -/
theorem search_of_oracle (ln : K → K) (h : Represents lower idx C) (q : SearchQuery) :
    ∃ l : List (SearchResult K), idx.search lower ln q = sortResults l ∧
      l.Perm (hits lower ln C (C.total fun c => (toks lower c).length % u32) q.statusFilter
        (distinctTerms lower q.terms)) := by
  let terms := distinctTerms lower q.terms
  let total := C.total fun c => (toks lower c).length % u32
  let scores : Dict String K := terms.foldl (idx.scoreTerm ln q.statusFilter) ∅
  have hscores : ∀ p x, scores.get? p = some x ↔
      ∃ d ∈ C.found lower q.statusFilter terms, d.1.sourcePath = p ∧
        score lower ln C total terms d.1 = x := by
    intro p x
    rw [show scores = Dict.addAll ∅ (terms.flatMap (weights ln idx q.statusFilter)) from
      foldl_scoreTerm ln idx q.statusFilter terms ∅]
    rw [get?_scores ln h]
    constructor
    · intro hx
      cases hdoc : C.docAt p with
      | none => simp [hdoc] at hx
      | some d =>
        obtain ⟨hdC, hp⟩ := (docAt_eq_some h.distinct).mp hdoc
        simp only [hdoc] at hx
        split at hx
        · rename_i hf
          exact ⟨d, List.mem_filter.mpr ⟨hdC, hf⟩, hp, Option.some.inj hx⟩
        · cases hx
    · rintro ⟨d, hd, hp, rfl⟩
      obtain ⟨hdC, hf⟩ := List.mem_filter.mp hd
      rw [(docAt_eq_some h.distinct).mpr ⟨hdC, hp⟩]
      simp only [hf, ↓reduceIte]
      rfl
  have hperm : scores.entries.Perm ((C.found lower q.statusFilter terms).map fun d =>
      (⟨d.1.sourcePath, score lower ln C total terms d.1⟩ : Sigma fun _ : String => K)) := by
    refine (List.perm_ext_iff_of_nodup scores.nodupKeys.nodup ?_).mpr ?_
    · refine List.Nodup.of_map Sigma.fst ?_
      rw [List.map_map]
      exact h.distinct.sublist (List.filter_sublist.map _)
    · rintro ⟨p, x⟩
      rw [Dict.mem_entries, hscores, List.mem_map]
      constructor
      · rintro ⟨d, hd, rfl, rfl⟩
        exact ⟨d, hd, rfl⟩
      · rintro ⟨d, hd, heq⟩
        cases heq
        exact ⟨d, hd, rfl, rfl⟩
  refine ⟨_, rfl, ?_⟩
  refine (hperm.map _).trans ?_
  rw [List.map_map]
  refine List.Perm.of_eq (List.map_congr_left ?_)
  intro d hd
  have hdC : d ∈ C := (List.mem_filter.mp hd).1
  simp only [Function.comp_apply, doc_of_represents h hdC, metaOf]
  rfl

end Oracle

end Mycelium.Analysis.SearchOracle
