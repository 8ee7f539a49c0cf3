import Mathlib.Algebra.Field.Basic
import Mathlib.Data.List.Dedup
import Mycelium.Analysis.SearchOracle
import Mycelium.Model.SearchIndex

/-!
# What the encrypted index computes

The rows of a scope store a corpus (`Stores`): the token rows and the sealed document of
each of its documents, oldest first. Every addition keeps this, of the scope's own index
(`stores_add`) and of any other (`stores_add_foreign`). A search over such tables answers
with the ranked hits of the corpus (`search_of_tables`), whatever the chunk sizes.
-/

set_option autoImplicit false

namespace Mycelium.Analysis.SearchTables

open Mycelium.Model.Concepts Mycelium.Model.Search Mycelium.Model.SearchIndex
open Mycelium.Analysis.SearchOracle Chunks

/-- The token HMAC is injective, the AEAD opens what it sealed under the same associated
data, and the JSON of a payload parses back. -/
structure KeysSound (keys : IndexKeys) : Prop where
  token_injective : Function.Injective keys.token
  open_seal : ∀ nonce plain aad, keys.aeadOpen (keys.aeadSeal nonce plain aad) aad = some plain
  parse_json : ∀ payload, keys.fromJson (keys.toJson payload) = some payload

/-! ## The tables of a corpus -/

section Tables

variable (lower : String → String)

/-- The rows of the scope are those of the corpus, oldest first. -/
structure Stores (ix : EncryptedIndex) (db : Tables) (C : Corpus) : Prop where
  distinct : C.DistinctPaths
  tokens : db.searchTokens.filter (fun r => r.scope = ix.scopeId) =
    C.reverse.flatMap fun d => ix.tokenRows lower d.1
  docs : db.searchDocs.filter (fun r => r.scope = ix.scopeId) =
    C.reverse.map fun d => ix.docRow lower d.2 d.1

/-- No row of the scope. -/
def Fresh (ix : EncryptedIndex) (db : Tables) : Prop :=
  (∀ r ∈ db.searchTokens, r.scope ≠ ix.scopeId) ∧ ∀ r ∈ db.searchDocs, r.scope ≠ ix.scopeId

theorem stores_fresh {ix : EncryptedIndex} {db : Tables} (h : Fresh ix db) :
    Stores lower ix db [] := by
  refine ⟨List.nodup_nil, ?_, ?_⟩
  · rw [List.reverse_nil, List.flatMap_nil, List.filter_eq_nil_iff]
    intro r hr
    simpa using h.1 r hr
  · rw [List.reverse_nil, List.map_nil, List.filter_eq_nil_iff]
    intro r hr
    simpa using h.2 r hr

variable {lower} {ix : EncryptedIndex} {db : Tables} {C : Corpus}

theorem scope_of_mem_tokenRows {c : Concept} {r : TokenRow} (hr : r ∈ ix.tokenRows lower c) :
    r.scope = ix.scopeId ∧ r.conceptPath = c.sourcePath := by
  obtain ⟨e, -, rfl⟩ := List.mem_map.mp hr
  exact ⟨rfl, rfl⟩

/-- INTERNAL: the rows of one scope are filtered before or after the rows of a path go. -/
theorem filter_scope_filter {α : Type} (rows : List α) (inScope atPath : α → Bool) :
    (rows.filter fun r => !(inScope r && atPath r)).filter inScope =
      (rows.filter inScope).filter fun r => !atPath r := by
  rw [List.filter_filter, List.filter_filter]
  refine List.filter_congr ?_
  intro r _
  cases inScope r <;> cases atPath r <;> rfl

theorem reverse_replace (C : Corpus) (d : Concept × ℕ) :
    (C.replace d).reverse =
      C.reverse.filter (fun e => e.1.sourcePath ≠ d.1.sourcePath) ++ [d] := by
  rw [Corpus.replace, List.reverse_cons, List.filter_reverse]

theorem stores_add (h : Stores lower ix db C) (c : Concept) (nonce : ℕ) :
    Stores lower ix (ix.addAsync lower db c nonce) (C.replace (c, nonce)) := by
  refine ⟨distinctPaths_replace h.distinct _, ?_, ?_⟩
  · have hown : (ix.tokenRows lower c).filter (fun r => r.scope = ix.scopeId) =
        ix.tokenRows lower c := by
      rw [List.filter_eq_self]
      intro r hr
      simpa using (scope_of_mem_tokenRows hr).1
    have hpath : ∀ d : Concept × ℕ,
        (ix.tokenRows lower d.1).filter (fun r => !decide (r.conceptPath = c.sourcePath)) =
          if d.1.sourcePath ≠ c.sourcePath then ix.tokenRows lower d.1 else [] := by
      intro d
      split
      · rename_i hne
        rw [List.filter_eq_self]
        intro r hr
        simpa [(scope_of_mem_tokenRows hr).2] using hne
      · rename_i heq
        rw [List.filter_eq_nil_iff]
        intro r hr
        simpa [(scope_of_mem_tokenRows hr).2] using heq
    rw [EncryptedIndex.addAsync, List.filter_append, filter_scope_filter, h.tokens, hown,
      List.filter_flatMap, reverse_replace, List.flatMap_append, List.flatMap_singleton]
    refine congrArg (· ++ ix.tokenRows lower c) ?_
    simp only [hpath]
    induction C.reverse with
    | nil => rfl
    | cons d l ih =>
      by_cases hd : d.1.sourcePath = c.sourcePath
      · simpa [hd] using ih
      · simpa [hd] using ih
  · rw [EncryptedIndex.addAsync, List.filter_append, filter_scope_filter, h.docs,
      List.filter_map, reverse_replace, List.map_append]
    refine congrArg₂ (· ++ ·) (congrArg (List.map _) ?_) ?_
    · refine List.filter_congr ?_
      intro d _
      simp [EncryptedIndex.docRow]
    · simp [EncryptedIndex.docRow]

/-- INTERNAL: the additions of another scope leave the rows of this one alone. -/
theorem stores_add_foreign (h : Stores lower ix db C) {jx : EncryptedIndex}
    (hscope : jx.scopeId ≠ ix.scopeId) (c : Concept) (nonce : ℕ) :
    Stores lower ix (jx.addAsync lower db c nonce) C := by
  have hkept : ∀ {α : Type} (rows : List α) (scope path : α → String),
      (rows.filter fun r => !(scope r = jx.scopeId && path r = c.sourcePath)).filter
        (fun r => scope r = ix.scopeId) = rows.filter fun r => scope r = ix.scopeId := by
    intro α rows scope path
    rw [List.filter_filter]
    refine List.filter_congr ?_
    intro r _
    by_cases hr : scope r = ix.scopeId
    · simp [hr, hscope.symm]
    · simp [hr]
  refine ⟨h.distinct, ?_, ?_⟩
  · have hnone : (jx.tokenRows lower c).filter (fun r => r.scope = ix.scopeId) = [] := by
      rw [List.filter_eq_nil_iff]
      intro r hr
      simpa [(scope_of_mem_tokenRows hr).1] using hscope
    rw [EncryptedIndex.addAsync, List.filter_append, hkept, hnone, List.append_nil, h.tokens]
  · have hnone : [jx.docRow lower nonce c].filter (fun r => r.scope = ix.scopeId) = [] := by
      simpa [EncryptedIndex.docRow] using hscope
    rw [EncryptedIndex.addAsync, List.filter_append, hkept, hnone, List.append_nil, h.docs]

theorem nDocs_of_stores (h : Stores lower ix db C) : ix.nDocs db = C.length := by
  rw [EncryptedIndex.nDocs, h.docs, List.length_map, List.length_reverse]

theorem sumLen_of_stores (h : Stores lower ix db C) :
    ix.sumLen db = C.total fun c => (toks lower c).length := by
  rw [EncryptedIndex.sumLen, h.docs, List.map_map, Corpus.total, ← List.sum_reverse,
    ← List.map_reverse, List.reverse_reverse]
  rfl

end Tables

/-! ## The token pass -/

section Stats

/-- INTERNAL: each row counts for the document frequency of its token. -/
theorem df_foldl_addRow (l : List TokenRow) (st : TokenStats) (t : String) :
    (l.foldl TokenStats.addRow st).df t = st.df t + l.countP fun r => r.token = t := by
  induction l generalizing st with
  | nil => rfl
  | cons r l ih =>
    rw [List.foldl_cons, ih, TokenStats.addRow]
    by_cases ht : t = r.token
    · subst ht
      simp only [↓reduceIte, decide_true, List.countP_cons_of_pos]
      omega
    · have hne : ¬ r.token = t := fun h => ht h.symm
      simp [ht, hne]

/-- INTERNAL: the frequencies of the rows of a path and a token add up. -/
theorem tf_foldl_addRow (l : List TokenRow) (st : TokenStats) (p t : String)
    (hst : st.tf p t < u32) :
    (l.foldl TokenStats.addRow st).tf p t =
      (st.tf p t + ((l.filter fun r => r.conceptPath = p && r.token = t).map TokenRow.tf).sum) %
        u32 := by
  induction l generalizing st with
  | nil => exact (Nat.mod_eq_of_lt hst).symm
  | cons r l ih =>
    have hpos : 0 < u32 := Nat.two_pow_pos 32
    by_cases hr : p = r.conceptPath ∧ t = r.token
    · have htf : (st.addRow r).tf p t = (st.tf p t + r.tf % u32) % u32 := by
        simp [TokenStats.addRow, hr]
      have hlt : (st.addRow r).tf p t < u32 := by
        rw [htf]
        exact Nat.mod_lt _ hpos
      rw [List.foldl_cons, ih _ hlt, htf, List.filter_cons]
      simp only [hr.1, hr.2, decide_true, Bool.and_self, ↓reduceIte, List.map_cons,
        List.sum_cons]
      rw [Nat.mod_add_mod, add_right_comm, Nat.add_mod_mod]
      refine congrArg (· % u32) ?_
      omega
    · have htf : (st.addRow r).tf p t = st.tf p t := by
        simp [TokenStats.addRow, hr]
      have hskip : (decide (r.conceptPath = p) && decide (r.token = t)) = false := by
        rw [Bool.and_eq_false_iff, decide_eq_false_iff_not, decide_eq_false_iff_not]
        by_contra hboth
        push Not at hboth
        exact hr ⟨hboth.1.symm, hboth.2.symm⟩
      rw [List.foldl_cons, ih _ (by rw [htf]; exact hst), htf, List.filter_cons]
      simp [hskip]

/-- INTERNAL: the scored paths are those of the rows, each once. -/
theorem paths_foldl_addRow (l : List TokenRow) (st : TokenStats) (hst : st.paths.Nodup) :
    (l.foldl TokenStats.addRow st).paths.Nodup ∧
      ∀ p, p ∈ (l.foldl TokenStats.addRow st).paths ↔
        p ∈ st.paths ∨ ∃ r ∈ l, r.conceptPath = p := by
  induction l generalizing st with
  | nil => exact ⟨hst, fun p => by simp⟩
  | cons r l ih =>
    have hmem : ∀ p, p ∈ (st.addRow r).paths ↔ p ∈ st.paths ∨ r.conceptPath = p := by
      intro p
      unfold TokenStats.addRow
      split
      · rename_i hin
        constructor
        · exact Or.inl
        · rintro (hp | rfl)
          · exact hp
          · exact hin
      · simp [eq_comm]
    have hnodup : (st.addRow r).paths.Nodup := by
      unfold TokenStats.addRow
      split
      · exact hst
      · rename_i hout
        refine List.Nodup.append hst (List.nodup_singleton _) ?_
        rw [List.disjoint_singleton]
        exact hout
    obtain ⟨hnd, hiff⟩ := ih (st.addRow r) hnodup
    refine ⟨hnd, ?_⟩
    intro p
    rw [List.foldl_cons, hiff, hmem, or_assoc]
    simp

variable {lower : String → String} {ix : EncryptedIndex} {db : Tables} {C : Corpus}

/-- The row of a term of a document. -/
def termRow (ix : EncryptedIndex) (lower : String → String) (t : String) (c : Concept) :
    TokenRow where
  scope := ix.scopeId
  token := ix.keys.token t
  conceptPath := c.sourcePath
  tf := (toks lower c).count t % u32

theorem tokenRows_eq_map (ix : EncryptedIndex) (lower : String → String) (c : Concept) :
    ix.tokenRows lower c = (toks lower c).eraseDups.map fun t => termRow ix lower t c := by
  unfold EncryptedIndex.tokenRows tokenCounts
  rw [List.map_map]
  rfl

theorem nodup_eraseDups {α : Type} [DecidableEq α] (l : List α) : l.eraseDups.Nodup := by
  induction hn : l.length using Nat.strong_induction_on generalizing l with
  | _ n ih =>
    cases l with
    | nil => simp
    | cons a l =>
      rw [List.eraseDups_cons, List.nodup_cons]
      constructor
      · simp
      · refine ih _ ?_ _ rfl
        rw [← hn, List.length_cons]
        exact Nat.lt_succ_of_le (List.length_filter_le _ _)

/-- INTERNAL: a document has one row for a term it has, and none for another. -/
theorem filter_tokenRows (hkeys : KeysSound ix.keys) (c : Concept) (t : String) :
    (ix.tokenRows lower c).filter (fun r => r.token = ix.keys.token t) =
      if t ∈ toks lower c then [termRow ix lower t c] else [] := by
  have hcongr : ((fun r : TokenRow => decide (r.token = ix.keys.token t)) ∘
      fun t' => termRow ix lower t' c) = fun t' => t' == t := by
    funext t'
    rw [Bool.eq_iff_iff]
    simp [termRow, hkeys.token_injective.eq_iff]
  rw [tokenRows_eq_map, List.filter_map, hcongr, List.filter_beq]
  split
  · rename_i ht
    have hone : (toks lower c).eraseDups.count t = 1 :=
      List.count_eq_one_of_mem (nodup_eraseDups _) (List.mem_eraseDups.mpr ht)
    rw [hone]
    rfl
  · rename_i ht
    have hzero : (toks lower c).eraseDups.count t = 0 :=
      List.count_eq_zero.mpr fun hmem => ht (List.mem_eraseDups.mp hmem)
    rw [hzero]
    rfl

/-- INTERNAL: the rows of a term, one for each document that has it. -/
theorem filter_rows_term (hkeys : KeysSound ix.keys) (C : Corpus) (t : String) :
    (C.flatMap fun d => ix.tokenRows lower d.1).filter (fun r => r.token = ix.keys.token t) =
      (C.filter fun d => t ∈ toks lower d.1).map fun d => termRow ix lower t d.1 := by
  rw [List.filter_flatMap]
  simp only [filter_tokenRows hkeys]
  induction C with
  | nil => rfl
  | cons d C ih =>
    by_cases ht : t ∈ toks lower d.1
    · simpa [ht] using ih
    · simpa [ht] using ih

/-- INTERNAL: the chunks together load the rows of the query's tokens, each once. -/
theorem tokenPass_perm (h : Stores lower ix db C) {tokens : List String} (hnd : tokens.Nodup) :
    (ix.tokenPass db tokens).Perm
      ((C.reverse.flatMap fun d => ix.tokenRows lower d.1).filter fun r => r.token ∈ tokens) := by
  have hflat : (chunks 16 tokens).flatten = tokens := flatten_chunks (by omega) tokens
  have hperm := flatMap_filter_perm db.searchTokens TokenRow.token
    (fun r => decide (r.scope = ix.scopeId)) (chunks 16 tokens) (by rwa [hflat])
  rw [hflat] at hperm
  rw [← h.tokens]
  refine hperm.trans (List.Perm.of_eq ?_)
  rw [List.filter_filter]
  refine List.filter_congr ?_
  intro r _
  exact Bool.and_comm _ _

/-- The distinct query terms in the order the tables are asked for them. -/
def sortedTerms (lower : String → String) (terms : List String) : List String :=
  (terms.map lower).dedup.insertionSort fun a b => a ≤ b

theorem nodup_sortedTerms (lower : String → String) (terms : List String) :
    (sortedTerms lower terms).Nodup :=
  (List.perm_insertionSort _ _).nodup_iff.mpr (List.nodup_dedup _)

/-- INTERNAL: the two indexes see the same distinct terms, in different orders. -/
theorem sortedTerms_perm (lower : String → String) (terms : List String) :
    (sortedTerms lower terms).Perm (distinctTerms lower terms) := by
  refine (List.perm_ext_iff_of_nodup (nodup_sortedTerms lower terms) (nodup_eraseDups _)).mpr ?_
  intro t
  rw [sortedTerms, List.mem_insertionSort, List.mem_dedup, List.mem_eraseDups]

theorem nodup_queryTokens (hkeys : KeysSound ix.keys) (terms : List String) :
    (ix.queryTokens lower terms).Nodup :=
  (nodup_sortedTerms lower terms).map hkeys.token_injective

theorem token_mem_queryTokens (hkeys : KeysSound ix.keys) {terms : List String} {t : String} :
    ix.keys.token t ∈ ix.queryTokens lower terms ↔ t ∈ sortedTerms lower terms :=
  List.mem_map_of_injective hkeys.token_injective

/-- INTERNAL: of the rows the token pass loads, those of a query term. -/
theorem tokenPass_filter_term (hkeys : KeysSound ix.keys) (h : Stores lower ix db C)
    {terms : List String} {t : String} (ht : t ∈ sortedTerms lower terms) :
    ((ix.tokenPass db (ix.queryTokens lower terms)).filter
      fun r => r.token = ix.keys.token t).Perm
      ((C.reverse.filter fun d => t ∈ toks lower d.1).map fun d => termRow ix lower t d.1) := by
  have hmem := (token_mem_queryTokens hkeys).mpr ht
  refine ((tokenPass_perm h (nodup_queryTokens hkeys terms)).filter _).trans ?_
  rw [← filter_rows_term hkeys, List.filter_filter]
  refine List.Perm.of_eq (List.filter_congr ?_)
  intro r _
  by_cases hr : r.token = ix.keys.token t
  · simp [hr, hmem]
  · simp [hr]

theorem df_of_stores (hkeys : KeysSound ix.keys) (h : Stores lower ix db C)
    {terms : List String} {t : String} (ht : t ∈ sortedTerms lower terms) :
    (ix.stats lower db terms).df (ix.keys.token t) = C.df lower t := by
  have hrows := (tokenPass_filter_term hkeys h ht).length_eq
  rw [List.length_map, ← List.countP_eq_length_filter, ← List.countP_eq_length_filter,
    List.countP_reverse] at hrows
  rw [EncryptedIndex.stats, df_foldl_addRow, hrows]
  exact Nat.zero_add _

/-- INTERNAL: the document at a path, as a filter of the corpus. -/
theorem filter_path_eq (hC : C.DistinctPaths) (p : String) :
    C.filter (fun d => d.1.sourcePath = p) = (C.docAt p).toList := by
  induction C with
  | nil => rfl
  | cons e C ih =>
    have hC' : Corpus.DistinctPaths C := (List.nodup_cons.mp hC).2
    have hnot : e.1.sourcePath ∉ C.map fun d => d.1.sourcePath := (List.nodup_cons.mp hC).1
    by_cases he : e.1.sourcePath = p
    · have hrest : C.filter (fun d => d.1.sourcePath = p) = [] := by
        rw [List.filter_eq_nil_iff]
        intro d hd hp
        have hp : d.1.sourcePath = p := by simpa using hp
        exact hnot (List.mem_map.mpr ⟨d, hd, hp.trans he.symm⟩)
      simp [Corpus.docAt, he, hrest]
    · have hstep := ih hC'
      unfold Corpus.docAt at hstep ⊢
      simp [he, hstep]

theorem tf_of_stores (hkeys : KeysSound ix.keys) (h : Stores lower ix db C)
    {terms : List String} {t : String} (ht : t ∈ sortedTerms lower terms) (p : String) :
    (ix.stats lower db terms).tf p (ix.keys.token t) =
      ((C.docAt p).bind fun d => freq lower t d.1).getD 0 := by
  have hzero : (0 : ℕ) < u32 := Nat.two_pow_pos 32
  have hrows : ((ix.tokenPass db (ix.queryTokens lower terms)).filter
      fun r => r.conceptPath = p && r.token = ix.keys.token t).Perm
      (((C.docAt p).toList.filter fun d => t ∈ toks lower d.1).reverse.map
        fun d => termRow ix lower t d.1) := by
    rw [← List.filter_filter]
    refine ((tokenPass_filter_term hkeys h ht).filter _).trans (List.Perm.of_eq ?_)
    rw [List.filter_map, List.filter_reverse, List.filter_reverse, List.filter_comm,
      ← filter_path_eq h.distinct]
    rfl
  have hsum := (hrows.map TokenRow.tf).sum_eq
  rw [EncryptedIndex.stats, tf_foldl_addRow _ _ _ _ hzero, hsum]
  cases C.docAt p with
  | none => rfl
  | some d =>
    by_cases hd : t ∈ toks lower d.1
    · simp [freq, hd, termRow, TokenStats.empty]
    · simp [freq, hd, TokenStats.empty]

/-- INTERNAL: the scored paths are those of the documents with a query term. -/
theorem mem_paths_of_stores (hkeys : KeysSound ix.keys) (h : Stores lower ix db C)
    (terms : List String) (p : String) :
    p ∈ (ix.stats lower db terms).paths ↔
      ∃ d ∈ C, d.1.sourcePath = p ∧ ∃ t ∈ sortedTerms lower terms, t ∈ toks lower d.1 := by
  have hpaths := (paths_foldl_addRow (ix.tokenPass db (ix.queryTokens lower terms))
    TokenStats.empty List.nodup_nil).2 p
  rw [EncryptedIndex.stats, hpaths]
  have hrow : ∀ r, r ∈ ix.tokenPass db (ix.queryTokens lower terms) ↔
      ∃ d ∈ C, ∃ t ∈ sortedTerms lower terms, t ∈ toks lower d.1 ∧ termRow ix lower t d.1 = r := by
    intro r
    rw [(tokenPass_perm h (nodup_queryTokens hkeys terms)).mem_iff, List.mem_filter,
      List.mem_flatMap]
    simp only [List.mem_reverse, decide_eq_true_eq]
    constructor
    · rintro ⟨⟨d, hd, hr⟩, htok⟩
      rw [tokenRows_eq_map] at hr
      obtain ⟨t, ht, rfl⟩ := List.mem_map.mp hr
      exact ⟨d, hd, t, (token_mem_queryTokens hkeys).mp htok, List.mem_eraseDups.mp ht, rfl⟩
    · rintro ⟨d, hd, t, ht, hin, rfl⟩
      refine ⟨⟨d, hd, ?_⟩, (token_mem_queryTokens hkeys).mpr ht⟩
      rw [tokenRows_eq_map]
      exact List.mem_map.mpr ⟨t, List.mem_eraseDups.mpr hin, rfl⟩
  constructor
  · rintro (hp | ⟨r, hr, rfl⟩)
    · cases hp
    · obtain ⟨d, hd, t, ht, hin, rfl⟩ := (hrow r).mp hr
      exact ⟨d, hd, rfl, t, ht, hin⟩
  · rintro ⟨d, hd, rfl, t, ht, hin⟩
    exact Or.inr ⟨termRow ix lower t d.1, (hrow _).mpr ⟨d, hd, t, ht, hin, rfl⟩, rfl⟩

end Stats

/-! ## The search -/

section Search

variable {lower : String → String} {ix : EncryptedIndex} {db : Tables} {C : Corpus}

theorem statusAdmits_eq_visible (filter : StatusFilter) (c : Concept) :
    statusAdmits filter c.frontmatter.status = visible filter c := by
  unfold statusAdmits visible isActiveStatus
  cases filter with
  | all => rfl
  | activeOnly =>
    cases c.frontmatter.status with
    | none => rfl
    | some st => simp

/-- INTERNAL: the chunks together load the documents at the paths, each once. -/
theorem docPass_filter_perm (ix : EncryptedIndex) (db : Tables) (filter : StatusFilter)
    {paths : List String} (hnodup : paths.Nodup) :
    (ix.docPass db filter paths).Perm (db.searchDocs.filter fun r =>
      (decide (r.scope = ix.scopeId) && statusAdmits filter r.lifecycleStatus) &&
        decide (r.conceptPath ∈ paths.insertionSort fun a b => a ≤ b)) := by
  let sorted := paths.insertionSort fun a b => a ≤ b
  have hflat : (chunks 64 sorted).flatten = sorted := flatten_chunks (by omega) sorted
  have hsorted : sorted.Nodup := (List.perm_insertionSort _ _).nodup_iff.mpr hnodup
  have hperm := flatMap_filter_perm db.searchDocs DocRow.conceptPath
    (fun r => decide (r.scope = ix.scopeId) && statusAdmits filter r.lifecycleStatus)
    (chunks 64 sorted) (by rwa [hflat])
  rw [hflat] at hperm
  have hpass : ix.docPass db filter paths = (chunks 64 sorted).flatMap fun chunk =>
      db.searchDocs.filter fun r => (decide (r.scope = ix.scopeId) &&
        statusAdmits filter r.lifecycleStatus) && decide (r.conceptPath ∈ chunk) := by
    unfold EncryptedIndex.docPass
    refine List.flatMap_congr ?_
    intro chunk _
    refine List.filter_congr ?_
    intro r _
    exact Bool.and_right_comm _ _ _
  rw [hpass]
  exact hperm

theorem paths_stats_nodup (lower : String → String) (ix : EncryptedIndex) (db : Tables)
    (terms : List String) : (ix.stats lower db terms).paths.Nodup :=
  (paths_foldl_addRow _ TokenStats.empty List.nodup_nil).1

/-- INTERNAL: the documents found are those of the corpus. -/
theorem docPass_perm (hkeys : KeysSound ix.keys) (h : Stores lower ix db C)
    (filter : StatusFilter) (terms : List String) :
    (ix.docPass db filter (ix.stats lower db terms).paths).Perm
      ((C.found lower filter (sortedTerms lower terms)).map
        fun d => ix.docRow lower d.2 d.1) := by
  let sorted := (ix.stats lower db terms).paths.insertionSort fun a b => a ≤ b
  have hrows : (db.searchDocs.filter fun r => (decide (r.scope = ix.scopeId) &&
      statusAdmits filter r.lifecycleStatus) && decide (r.conceptPath ∈ sorted)) =
      (C.reverse.map fun d => ix.docRow lower d.2 d.1).filter fun r =>
        statusAdmits filter r.lifecycleStatus && decide (r.conceptPath ∈ sorted) := by
    rw [← h.docs, List.filter_filter]
    refine List.filter_congr ?_
    intro r _
    rw [Bool.and_assoc, Bool.and_comm]
  have hfound : C.reverse.filter ((fun r : DocRow => statusAdmits filter r.lifecycleStatus &&
      decide (r.conceptPath ∈ sorted)) ∘ fun d => ix.docRow lower d.2 d.1) =
      (C.found lower filter (sortedTerms lower terms)).reverse := by
    rw [List.filter_reverse, Corpus.found]
    refine congrArg List.reverse (List.filter_congr ?_)
    intro d hd
    have hin : d.1.sourcePath ∈ sorted ↔
        ∃ t ∈ sortedTerms lower terms, t ∈ toks lower d.1 := by
      rw [List.mem_insertionSort, mem_paths_of_stores hkeys h]
      constructor
      · rintro ⟨e, he, hp, hterm⟩
        have heq := (docAt_eq_some h.distinct).mpr ⟨he, hp⟩
        rw [(docAt_eq_some h.distinct).mpr ⟨hd, rfl⟩] at heq
        cases heq
        exact hterm
      · intro hterm
        exact ⟨d, hd, rfl, hterm⟩
    have hterm : decide (d.1.sourcePath ∈ sorted) =
        (sortedTerms lower terms).any fun t => t ∈ toks lower d.1 := by
      rw [Bool.eq_iff_iff, decide_eq_true_iff, hin, List.any_eq_true]
      simp
    simp only [Function.comp_apply, EncryptedIndex.docRow, statusAdmits_eq_visible, hterm]
  refine (docPass_filter_perm ix db filter (paths_stats_nodup lower ix db terms)).trans ?_
  rw [hrows, List.filter_map, hfound, List.map_reverse]
  exact List.reverse_perm _

variable {K : Type} [Field K] [LinearOrder K]

/-- INTERNAL: a term that a document has zero times, modulo the width of the counter,
contributes nothing. -/
theorem bm25Score_tf_zero (ln : K → K) (nDocs df docLen : ℕ) (avg : K) :
    bm25Score ln nDocs df 0 docLen avg = 0 := by
  simp [bm25Score]

/-- INTERNAL: the score accumulated over the tokens is the sum over the terms the
document has. -/
theorem score_of_stores (ln : K → K) (hkeys : KeysSound ix.keys) (h : Stores lower ix db C)
    (terms : List String) (total : ℕ) {d : Concept × ℕ} (hd : d ∈ C) :
    EncryptedIndex.score ln (ix.stats lower db terms) C.length (avgdl total C.length)
      (ix.queryTokens lower terms) d.1.sourcePath (toks lower d.1).length =
      score lower ln C total (sortedTerms lower terms) d.1 := by
  have hdoc : C.docAt d.1.sourcePath = some d := (docAt_eq_some h.distinct).mpr ⟨hd, rfl⟩
  -- one term of the query, on top of what came before it
  have hterm : ∀ t ∈ sortedTerms lower terms, ∀ x : K,
      (let df := (ix.stats lower db terms).df (ix.keys.token t)
       if df = 0 then x
       else
         let tf := (ix.stats lower db terms).tf d.1.sourcePath (ix.keys.token t)
         if tf = 0 then x
         else x + bm25Score ln (max C.length df) df tf ((toks lower d.1).length % u32)
           (avgdl total C.length)) =
        if t ∈ toks lower d.1 then x + contribution lower ln C total d.1 t else x := by
    intro t ht x
    rw [df_of_stores hkeys h ht, tf_of_stores hkeys h ht, hdoc, Option.bind_some]
    by_cases hin : t ∈ toks lower d.1
    · have hpos : C.df lower t ≠ 0 := by
        intro hzero
        have hnone := List.countP_eq_zero.mp hzero d hd
        simp [hin] at hnone
      have hmax : max C.length (C.df lower t) = C.length := by
        rw [Nat.max_eq_left]
        exact List.countP_le_length
      simp only [freq, hin, ↓reduceIte, Option.getD_some, hpos, hmax]
      split
      · rename_i htf
        rw [contribution, htf, bm25Score_tf_zero, add_zero]
      · rfl
    · simp [freq, hin]
  have hfold : ∀ (l : List String) (x : K), (∀ t ∈ l, t ∈ sortedTerms lower terms) →
      (l.map ix.keys.token).foldl (fun score token =>
        let df := (ix.stats lower db terms).df token
        if df = 0 then score
        else
          let tf := (ix.stats lower db terms).tf d.1.sourcePath token
          if tf = 0 then score
          else score + bm25Score ln (max C.length df) df tf ((toks lower d.1).length % u32)
            (avgdl total C.length)) x = x + score lower ln C total l d.1 := by
    intro l
    induction l with
    | nil =>
      intro x _
      simp [score]
    | cons t l ih =>
      intro x hl
      rw [List.map_cons, List.foldl_cons, hterm t (hl t List.mem_cons_self),
        ih _ fun t' ht' => hl t' (List.mem_cons_of_mem _ ht')]
      by_cases hin : t ∈ toks lower d.1
      · simp [score, hin, add_assoc]
      · simp [score, hin]
  have hall := hfold (sortedTerms lower terms) 0 fun _ ht => ht
  rw [zero_add] at hall
  exact hall

/-- INTERNAL: the hits do not depend on the order of the terms. -/
theorem hits_of_perm (ln : K → K) (C : Corpus) (total : ℕ) (filter : StatusFilter)
    {terms terms' : List String} (hperm : terms.Perm terms') :
    hits lower ln C total filter terms = hits lower ln C total filter terms' := by
  have hfound : C.found lower filter terms = C.found lower filter terms' := by
    refine List.filter_congr ?_
    intro d _
    rw [hperm.any_eq]
  have hscore : ∀ c, score lower ln C total terms c = score lower ln C total terms' c := by
    intro c
    exact ((hperm.filter _).map _).sum_eq
  unfold hits
  rw [hfound]
  simp only [hscore]

/-- INTERNAL: the encrypted index answers with the ranked hits of its corpus. -/
theorem search_of_tables (ln : K → K) (hkeys : KeysSound ix.keys) (h : Stores lower ix db C)
    (q : SearchQuery) :
    ∃ l : List (SearchResult K), ix.search lower ln db q = sortResults l ∧
      l.Perm (hits lower ln C (C.total fun c => (toks lower c).length) q.statusFilter
        (distinctTerms lower q.terms)) := by
  rw [← hits_of_perm ln C _ _ (sortedTerms_perm lower q.terms)]
  unfold EncryptedIndex.search
  split
  · rename_i hnil
    refine ⟨[], rfl, ?_⟩
    simp [hits, Corpus.found, sortedTerms, hnil]
  · refine ⟨_, rfl, ?_⟩
    refine ((docPass_perm hkeys h q.statusFilter q.terms).filterMap _).trans ?_
    rw [List.filterMap_map, hits, ← List.filterMap_eq_map]
    refine List.Perm.of_eq (List.filterMap_congr ?_)
    intro d hd
    have hdC : d ∈ C := (List.mem_filter.mp hd).1
    have hscore := score_of_stores ln hkeys h q.terms
      (C.total fun c => (toks lower c).length) hdC
    simp only [Function.comp_apply, EncryptedIndex.docRow, hkeys.open_seal, hkeys.parse_json,
      Option.bind_eq_bind, Option.bind_some, Option.pure_def, nDocs_of_stores h,
      sumLen_of_stores h]
    rw [← hscore]
    rfl

end Search

end Mycelium.Analysis.SearchTables
