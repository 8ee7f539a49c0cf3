import Mycelium.Analysis.SearchRefinement
import Mycelium.Model.CrossScope

/-!
# What the composer returns

1. *Fusion.* Each path of the pools once, with its terms summed (`fused_rrfFuse`).
2. *Pools.* The hits of a scope have distinct paths, from the primary keys of its tables
   (`nodup_search`, `nodup_topCosine`, `nodup_scopeHits`).
3. *The merge.* At most so many hits, each scope and path once, ranked, none of a book that is
   not visible; in lexical mode the first of all of them (`merged_crossScopeHits`).
-/

set_option autoImplicit false

namespace Mycelium.Analysis.ScopeFusion

open Mycelium.Model.Concepts Mycelium.Model.Search Mycelium.Model.SearchIndex
open Mycelium.Model.Vectors Mycelium.Model.CrossScope
open Mycelium.Analysis.SearchTables Mycelium.Analysis.SearchRefinement

/-! ## Fusion -/

section Fusion

variable {K : Type} [Field K] [LinearOrder K]

/-- The rank of a path in a pool, from 1. -/
def rankIn (pool : List (String × K)) (path : String) : Option ℕ :=
  (pool.findIdx? fun entry => entry.1 = path).map (· + 1)

/-- What a pool adds to a path. -/
def share (k w : K) (pool : List (String × K)) (path : String) : K :=
  match rankIn pool path with
  | some rank => w / (k + rank)
  | none => 0

/-- Each path of either pool once, with the sum of what the pools add, ranked. -/
structure Fused (lexPool vecPool : List (String × K)) (params : RrfParams K)
    (fused : List (String × K)) : Prop where
  once : (fused.map Prod.fst).Nodup
  paths : ∀ path, path ∈ fused.map Prod.fst ↔
    path ∈ lexPool.map Prod.fst ∨ path ∈ vecPool.map Prod.fst
  scores : ∀ entry ∈ fused, entry.2 = share params.rrfK params.wLex lexPool entry.1 +
    share params.rrfK params.wVec vecPool entry.1
  ranked : fused.Pairwise scoresBefore

omit [Field K] [LinearOrder K] in
theorem rankIn_eq_none {pool : List (String × K)} {path : String} :
    rankIn pool path = none ↔ path ∉ pool.map Prod.fst := by
  rw [rankIn, Option.map_eq_none_iff, List.findIdx?_eq_none_iff, List.mem_map]
  constructor
  · rintro hall ⟨entry, hentry, hpath⟩
    simpa [hpath] using hall entry hentry
  · intro hout entry hentry
    exact decide_eq_false fun hpath => hout ⟨entry, hentry, hpath⟩

omit [LinearOrder K] in
/-- INTERNAL: the terms of a path in a pool, whose ranks begin at any number. -/
theorem weightsOf_zipIdx (k w : K) (pool : List (String × K)) (n : ℕ) (path : String)
    (hpool : (pool.map Prod.fst).Nodup) :
    Dict.weightsOf ((pool.zipIdx n).map fun (entry, rank) => (entry.1, w / (k + (rank : K) + 1)))
      path = ((pool.findIdx? fun entry => entry.1 = path).map
        fun i => w / (k + ((n + i : ℕ) : K) + 1)).toList := by
  induction pool generalizing n with
  | nil => rfl
  | cons entry pool ih =>
    obtain ⟨hnotin, hpool⟩ := List.nodup_cons.mp hpool
    rw [List.zipIdx_cons, List.map_cons, List.findIdx?_cons]
    have hrest := ih (n + 1) hpool
    by_cases hpath : entry.1 = path
    · have hnone : (pool.findIdx? fun e => e.1 = path) = none := by
        have hout := rankIn_eq_none.mpr (hpath ▸ hnotin)
        exact Option.map_eq_none_iff.mp hout
      rw [hnone] at hrest
      rw [if_pos (by simpa using hpath)]
      unfold Dict.weightsOf at hrest ⊢
      rw [List.filter_cons_of_pos (by simpa using hpath), List.map_cons, hrest]
      rfl
    · rw [if_neg (by simpa using hpath)]
      unfold Dict.weightsOf at hrest ⊢
      rw [List.filter_cons_of_neg (by simpa using hpath), hrest, Option.map_map]
      congr 2
      funext i
      show _ = w / (k + ((n + (i + 1) : ℕ) : K) + 1)
      congr 4
      omega

omit [LinearOrder K] in
/-- INTERNAL: a pool adds its share to the paths it has. -/
theorem get?_addAll_poolTerms (k w : K) (pool : List (String × K)) (scores : Dict String K)
    (path : String) (hpool : (pool.map Prod.fst).Nodup) :
    (scores.addAll (poolTerms k w pool)).get? path =
      if path ∈ pool.map Prod.fst then
        some ((scores.get? path).getD 0 + share k w pool path)
      else scores.get? path := by
  rw [Dict.get?_addAll, poolTerms, weightsOf_zipIdx k w pool 0 path hpool, share]
  cases hrank : rankIn pool path with
  | none =>
    rw [if_neg (rankIn_eq_none.mp hrank)]
    have hnone := Option.map_eq_none_iff.mp hrank
    rw [hnone]
    rfl
  | some rank =>
    have hin : path ∈ pool.map Prod.fst := by
      by_contra hout
      rw [rankIn_eq_none.mpr hout] at hrank
      cases hrank
    obtain ⟨i, hi, rfl⟩ := Option.map_eq_some_iff.mp hrank
    rw [if_pos hin, hi]
    simp [add_assoc]

end Fusion

/-! ## Ranking -/

section Ranking

variable {K : Type} [LinearOrder K]

/-- INTERNAL: an entry of a pool, as a hit. -/
def hitOf (entry : String × K) : SearchResult K := ⟨entry.1, "", "", entry.2⟩

theorem pairwise_scores (l : List (String × K)) :
    (l.insertionSort scoresBefore).Pairwise scoresBefore := by
  have : Std.Total (scoresBefore (K := K)) := ⟨fun a b => ranksBefore_total (hitOf a) (hitOf b)⟩
  have : IsTrans (String × K) scoresBefore :=
    ⟨fun a b c hab hbc => ranksBefore_trans (a := hitOf a) (b := hitOf b) (c := hitOf c) hab hbc⟩
  exact List.pairwise_insertionSort _ _

theorem pairwise_hits (l : List (ScopedHit K)) :
    (l.insertionSort hitsBefore).Pairwise hitsBefore := by
  have : Std.Total (hitsBefore (K := K)) := ⟨fun a b => ranksBefore_total a.2 b.2⟩
  have : IsTrans (ScopedHit K) hitsBefore := ⟨fun _ _ _ hab hbc => ranksBefore_trans hab hbc⟩
  exact List.pairwise_insertionSort _ _

end Ranking

section Fusion

variable {K : Type} [Field K] [LinearOrder K]

/-- The fusion of two pools of distinct paths. SOURCE: search.rs:203-234 -/
theorem fused_rrfFuse {lexPool vecPool : List (String × K)} (params : RrfParams K)
    (hlex : (lexPool.map Prod.fst).Nodup) (hvec : (vecPool.map Prod.fst).Nodup) :
    Fused lexPool vecPool params (rrfFuse lexPool vecPool params) := by
  let scores := ((∅ : Dict String K).addAll (poolTerms params.rrfK params.wLex lexPool)).addAll
    (poolTerms params.rrfK params.wVec vecPool)
  have hperm : (rrfFuse lexPool vecPool params).Perm
      (scores.entries.map fun e => (e.1, e.2)) := List.perm_insertionSort _ _
  have hget (path : String) : scores.get? path =
      if path ∈ lexPool.map Prod.fst ∨ path ∈ vecPool.map Prod.fst then
        some (share params.rrfK params.wLex lexPool path +
          share params.rrfK params.wVec vecPool path)
      else none := by
    have hzero (k w : K) {pool : List (String × K)} (hout : path ∉ pool.map Prod.fst) :
        share k w pool path = 0 := by
      rw [share, rankIn_eq_none.mpr hout]
    rw [get?_addAll_poolTerms _ _ _ _ _ hvec, get?_addAll_poolTerms _ _ _ _ _ hlex,
      Dict.get?_empty]
    by_cases hl : path ∈ lexPool.map Prod.fst
    · by_cases hv : path ∈ vecPool.map Prod.fst
      · rw [if_pos hv, if_pos hl, if_pos (Or.inl hl), Option.getD_none, Option.getD_some, zero_add]
      · rw [if_neg hv, if_pos hl, if_pos (Or.inl hl), Option.getD_none, zero_add, hzero _ _ hv,
          add_zero]
    · by_cases hv : path ∈ vecPool.map Prod.fst
      · rw [if_pos hv, if_neg hl, if_pos (Or.inr hv), Option.getD_none, zero_add, hzero _ _ hl,
          zero_add]
      · rw [if_neg hv, if_neg hl, if_neg (not_or.mpr ⟨hl, hv⟩)]
  have hmem (path : String) (score : K) : (path, score) ∈ rrfFuse lexPool vecPool params ↔
      scores.get? path = some score := by
    rw [hperm.mem_iff, List.mem_map, ← Dict.mem_entries]
    constructor
    · rintro ⟨e, he, heq⟩
      cases heq
      exact he
    · intro he
      exact ⟨_, he, rfl⟩
  refine ⟨?_, ?_, ?_, pairwise_scores _⟩
  · have hkeys : ((scores.entries.map fun e => (e.1, e.2)).map Prod.fst) = scores.keys := by
      rw [List.map_map]
      rfl
    rw [(hperm.map Prod.fst).nodup_iff, hkeys]
    exact scores.keys_nodup
  · intro path
    rw [List.mem_map]
    constructor
    · rintro ⟨⟨path', score⟩, hentry, rfl⟩
      have hsome := (hmem path' score).mp hentry
      rw [hget] at hsome
      by_contra hout
      rw [if_neg hout] at hsome
      cases hsome
    · intro hin
      have hsome := hget path
      rw [if_pos hin] at hsome
      exact ⟨(path, _), (hmem path _).mpr hsome, rfl⟩
  · rintro ⟨path, score⟩ hentry
    have hsome := (hmem path score).mp hentry
    rw [hget] at hsome
    split at hsome
    · exact (Option.some.inj hsome).symm
    · cases hsome

end Fusion

/-! ## Pools -/

section Pools

variable {K : Type} [Field K] [LinearOrder K] (cx : Composer K)

/-- INTERNAL: a partial map that keeps the keys apart. -/
theorem nodup_filterMap_key {α β γ : Type} {key : α → γ} {key' : β → γ} {f : α → Option β}
    {l : List α} (hl : (l.map key).Nodup) (hkey : ∀ a b, f a = some b → key' b = key a) :
    ((l.filterMap f).map key').Nodup := by
  rw [List.Nodup, List.pairwise_map] at hl ⊢
  apply List.Pairwise.filterMap f _ hl
  intro a a' hne b hb b' hb'
  rw [hkey a b hb, hkey a' b' hb']
  exact hne

/-- The results of a search have distinct paths. -/
theorem nodup_search (ix : EncryptedIndex) (tables : Mycelium.Model.SearchIndex.Tables) (q : SearchQuery)
    (hkey : ((tables.searchDocs.filter fun r => r.scope = ix.scopeId).map
      DocRow.conceptPath).Nodup) :
    ((ix.search cx.lower cx.ln tables q).map SearchResult.conceptPath).Nodup := by
  unfold EncryptedIndex.search
  split
  · exact List.nodup_nil
  · have hpaths := paths_stats_nodup cx.lower ix tables q.terms
    have hdocs := docPass_filter_perm ix tables q.statusFilter hpaths
    have hrows : ((ix.docPass tables q.statusFilter
        (ix.stats cx.lower tables q.terms).paths).map DocRow.conceptPath).Nodup := by
      rw [(hdocs.map _).nodup_iff]
      refine hkey.sublist (List.Sublist.map _ ?_)
      apply List.monotone_filter_right
      intro r hr
      rw [Bool.and_eq_true, Bool.and_eq_true] at hr
      exact hr.1.1
    dsimp only [sortResults]
    rw [((List.perm_insertionSort _ _).map _).nodup_iff]
    apply nodup_filterMap_key hrows
    intro r hit hhit
    cases hopen : ix.keys.aeadOpen r.payload r.conceptPath with
    | none => simp [hopen] at hhit
    | some plain =>
      cases hjson : ix.keys.fromJson plain with
      | none => simp [hopen, hjson] at hhit
      | some payload =>
        simp only [hopen, hjson, Option.bind_eq_bind, Option.bind_some, Option.pure_def,
          Option.some.injEq] at hhit
        rw [← hhit]

theorem nodup_shelfSearch (cs : Shelf) (q : SearchQuery) :
    (((cs.search cx q).getD []).map SearchResult.conceptPath).Nodup := by
  unfold Shelf.search
  split
  · rw [Option.getD_some]
    exact nodup_search cx cs.index cs.tables q cs.docs_key
  · exact List.nodup_nil

theorem byToken_token {pathToken : String → String} {paths : List String} {token path : String}
    (h : byToken pathToken paths token = some path) : pathToken path = token := by
  have hmem := List.mem_of_getLast? h
  simpa using (List.mem_filter.mp hmem).2

/-- INTERNAL: a row keeps its token when it is decoded. -/
theorem pathToken_decodeRow {keys : Keys} {row : RawVectorRow} {r : VectorRow}
    (h : decodeRow keys row = .ok r) : r.pathToken = row.pathToken := by
  unfold decodeRow at h
  split at h
  · cases h
  · split at h
    · cases h
    · split at h
      · cases h
      · dsimp only at h
        split at h
        · cases h
        · cases h
          rfl

theorem tokens_keptRows_sublist {keys : Keys} {active : List String} {rows : List RawVectorRow}
    {kept : List CacheRow} (h : keptRows keys active rows = .ok kept) :
    (kept.map CacheRow.pathToken).Sublist (rows.map RawVectorRow.pathToken) := by
  induction rows generalizing kept with
  | nil =>
    cases h
    exact List.Sublist.refl _
  | cons row rows ih =>
    rw [List.map_cons]
    unfold keptRows at h
    split at h
    · exact (ih h).cons _
    · split at h
      · exact (ih h).cons _
      · cases hrow : decodeRow keys row with
        | ok r =>
          rw [hrow] at h
          cases hrest : keptRows keys active rows with
          | error e =>
            rw [hrest] at h
            cases h
          | ok rest =>
            rw [hrest] at h
            cases h
            rw [List.map_cons, pathToken_decodeRow hrow]
            exact (ih hrest).cons_cons _
        | error e =>
          rw [hrow] at h
          cases e with
          | crypto => exact (ih h).cons _
          | dataIntegrity detail => exact (ih h).cons _
          | db => cases h
          | dimMismatch => cases h

/-- What a build of the cache keeps has distinct tokens, by the primary key of the rows: it may
stand as `Shelf.cacheScope`. SOURCE: vectors.rs:521-593 -/
theorem rows_key_of_build (keys : Keys) (active : List String) (scope : String)
    (rows : List RawVectorRow)
    (hkey : ((rows.filter fun r => r.scopeId = scope).map RawVectorRow.pathToken).Nodup) :
    ∀ kept, keptRows keys active (fetchRows scope rows) = .ok kept →
      (kept.map CacheRow.pathToken).Nodup := by
  intro kept hkept
  refine List.Nodup.sublist (tokens_keptRows_sublist hkept) ?_
  rw [fetchRows, ((List.perm_insertionSort _ _).map _).nodup_iff]
  exact hkey

/-- The entries of a cosine ranking have distinct paths, since their tokens are distinct. -/
theorem nodup_topCosine (cs : Shelf) (qvec : Vector32) (model : String) (top : ℕ)
    {pairs : List (String × K)} (h : cs.topCosine cx qvec model top = .ok pairs) :
    (pairs.map Prod.fst).Nodup := by
  unfold Shelf.topCosine at h
  split at h
  · cases h
    exact List.nodup_nil
  · cases hrows : cs.cacheScope with
    | error e =>
      rw [hrows] at h
      cases h
    | ok rows =>
      rw [hrows] at h
      simp only [bind, Except.bind, pure, Except.pure] at h
      generalize hscored : (((rows.filter fun r => r.model = model && r.dims = qvec.length).map
        fun r => (r.pathToken, cx.cosine r.vecF32 qvec)).filter
          fun e => 0 < e.2).insertionSort scoresBefore = scored at h
      have htokens : (scored.map Prod.fst).Nodup := by
        rw [← hscored, ((List.perm_insertionSort _ _).map _).nodup_iff]
        have hkey := cs.rows_key rows hrows
        refine List.Nodup.sublist (List.Sublist.map _ List.filter_sublist) ?_
        rw [List.map_map]
        exact hkey.sublist (List.Sublist.map _ List.filter_sublist)
      have hfound (paths : List String) : ((scored.filterMap fun e =>
          (byToken cs.pathToken paths e.1).map fun path => (path, e.2)).map Prod.fst).Nodup := by
        refine List.Nodup.of_map cs.pathToken ?_
        rw [List.map_map]
        apply nodup_filterMap_key htokens
        rintro ⟨token, c⟩ pair hpair
        obtain ⟨path, hpath, rfl⟩ := Option.map_eq_some_iff.mp hpair
        exact byToken_token hpath
      by_cases hempty : scored.isEmpty = true
      · have hnil : pairs = [] := by
          simpa [hempty] using h.symm
        rw [hnil]
        exact List.nodup_nil
      · cases hfiles : cs.files with
        | error e => simp [hempty, hfiles] at h
        | ok paths =>
          have hpairs : pairs = (scored.filterMap fun e =>
              (byToken cs.pathToken paths e.1).map fun path => (path, e.2)).take top := by
            simpa [hempty, hfiles] using h.symm
          rw [hpairs, List.map_take]
          exact (hfound paths).sublist (List.take_sublist _ _)

theorem nodup_vecPool (cs : Shelf) (qvec : Vector32) (model : String) :
    ((vecPool cx cs qvec model).map Prod.fst).Nodup := by
  unfold vecPool
  split
  · rename_i pairs hpairs
    exact nodup_topCosine cx cs qvec model lexPoolSize hpairs
  · exact List.nodup_nil

/-- The hits of a scope have distinct paths, whatever the sources. -/
theorem nodup_scopeHits (scopes : AgentScopes) (q : SearchQuery) (tag : Scope) (cs : Shelf)
    (fuse : FuseSources) :
    ((scopeHits cx scopes q tag cs fuse).map SearchResult.conceptPath).Nodup := by
  cases fuse with
  | lexicalOnly =>
    exact (nodup_shelfSearch cx cs q).sublist (List.Sublist.map _ List.filter_sublist)
  | hybrid qvec model =>
    have hlex : (((rankedLexPool cx cs q).map fun h => (h.conceptPath, h.score)).map
        Prod.fst).Nodup := by
      rw [List.map_map]
      exact (nodup_shelfSearch cx cs q).sublist (List.Sublist.map _ (List.take_sublist _ _))
    have honce := (fused_rrfFuse cx.rrfParams hlex (nodup_vecPool cx cs qvec model)).once
    unfold scopeHits
    dsimp only
    split
    · exact List.nodup_nil
    · rw [List.map_map, List.map_congr_left (g := Prod.fst)]
      · exact honce
      · intro entry _
        dsimp only [Function.comp_apply]
        split
        · rfl
        · rfl
  | vecOnly qvec model =>
    unfold scopeHits
    rw [List.map_map]
    exact nodup_vecPool cx cs qvec model

end Pools

/-! ## The merge -/

/-- The path is that of a concept of the book. -/
def FromBook (slug path : String) : Prop :=
  slug ≠ "" ∧ '/' ∉ slug.toList ∧ ∃ rest, path = "/" ++ slug ++ "/" ++ rest

section Merge

variable {K : Type} [Field K] [LinearOrder K] (cx : Composer K)

/-- The scope and the path of a hit. -/
def hitKey (h : ScopedHit K) : Scope × String := (h.1, h.2.conceptPath)

/-- What the composer is to return, in every mode. -/
structure Merged (scopes : AgentScopes) (cap : ℕ) (hits : List (ScopedHit K)) : Prop where
  few : hits.length ≤ cap
  distinct : (hits.map hitKey).Nodup
  ranked : hits.Pairwise hitsBefore
  visible : ∀ visible, scopes.visibleSlugs = some visible → ∀ h ∈ hits, h.1 = .library →
    ∀ slug, FromBook slug h.2.conceptPath → slug ∈ visible

/-- The hits of all scopes that may be shown. -/
def visibleHits (store : Option Shelf) (scopes : AgentScopes) (q : SearchQuery) :
    List (ScopedHit K) :=
  let found (cs : Option Shelf) : List (SearchResult K) := ((cs.bind (·.search cx q)).getD [])
  (found store).map (fun h => (.user, h)) ++ (found scopes.skills).map (fun h => (.skills, h)) ++
    ((found scopes.library).filter fun h => libraryPathVisible scopes h.conceptPath).map
      fun h => (.library, h)

/-- The first segment of a path of a book. -/
theorem segment_of_fromBook {slug path : String} (hbook : FromBook slug path) :
    (path.toList.dropWhile (· = '/')).takeWhile (· ≠ '/') = slug.toList := by
  obtain ⟨hne, hslash, rest, rfl⟩ := hbook
  have hsplit : ("/" ++ slug ++ "/" ++ rest).toList =
      '/' :: (slug.toList ++ '/' :: rest.toList) := by
    simp [String.toList_append]
  have hslug : slug.toList ≠ [] := by simpa using hne
  cases hcs : slug.toList with
  | nil => exact absurd hcs hslug
  | cons c cs =>
    rw [hcs] at hslash
    have hc : c ≠ '/' := fun h => hslash (h ▸ List.mem_cons_self ..)
    rw [hsplit, hcs, List.dropWhile_cons_of_pos (by simp), List.cons_append,
      List.dropWhile_cons_of_neg (by simpa using hc), ← List.cons_append,
      List.takeWhile_append_of_pos]
    · simp
    · intro a ha
      simpa using fun h : a = '/' => hslash (h ▸ ha)

/-- A path of a book is judged by the slug of the book. -/
theorem visible_iff_of_fromBook {scopes : AgentScopes} {visible : List String} {slug path : String}
    (hslugs : scopes.visibleSlugs = some visible) (hbook : FromBook slug path) :
    libraryPathVisible scopes path = true ↔ slug ∈ visible := by
  simp only [libraryPathVisible, hslugs, segment_of_fromBook hbook, String.ofList_toList,
    decide_eq_true_eq]

theorem slug_visible {scopes : AgentScopes} {visible : List String} {slug path : String}
    (hslugs : scopes.visibleSlugs = some visible) (hbook : FromBook slug path)
    (hpath : libraryPathVisible scopes path = true) : slug ∈ visible :=
  (visible_iff_of_fromBook hslugs hbook).mp hpath

theorem nodup_allHits (store : Option Shelf) (scopes : AgentScopes) (q : SearchQuery)
    (fuse : FuseSources) : ((allHits cx store scopes q fuse).map hitKey).Nodup := by
  have hall {hits : Scope × Option Shelf → List (ScopedHit K)}
      (hsome : ∀ tag cs, hits (tag, some cs) =
        (scopeHits cx scopes q tag cs fuse).map fun h => (tag, h))
      (hnone : ∀ tag, hits (tag, none) = []) :
      (((sources store scopes).flatMap hits).map hitKey).Nodup := by
    rw [List.map_flatMap, List.nodup_flatMap]
    constructor
    · rintro ⟨tag, cs⟩ -
      cases cs with
      | none =>
        rw [hnone]
        exact List.nodup_nil
      | some cs =>
        have hscope := (nodup_scopeHits cx scopes q tag cs fuse).map (Prod.mk_right_injective tag)
        rw [List.map_map] at hscope
        rw [hsome, List.map_map]
        exact hscope
    · have htags : ((sources store scopes).map Prod.fst).Nodup := by
        simp [sources]
      refine (List.pairwise_map.mp htags).imp ?_
      rintro ⟨tag, cs⟩ ⟨tag', cs'⟩ hne key hkey hkey'
      have htag {t : Scope} {o : Option Shelf} (h : key ∈ (hits (t, o)).map hitKey) :
          key.1 = t := by
        cases o with
        | none =>
          rw [hnone] at h
          cases h
        | some cs =>
          rw [hsome] at h
          obtain ⟨hit, hhit, rfl⟩ := List.mem_map.mp h
          obtain ⟨result, -, rfl⟩ := List.mem_map.mp hhit
          rfl
      exact hne ((htag hkey).symm.trans (htag hkey'))
  unfold allHits
  dsimp only
  split
  · exact hall (fun _ _ => rfl) fun _ => rfl
  · refine List.Nodup.sublist (List.Sublist.map _ List.filter_sublist) ?_
    exact hall (fun _ _ => rfl) fun _ => rfl

theorem visible_allHits (store : Option Shelf) (scopes : AgentScopes) (q : SearchQuery)
    (fuse : FuseSources) :
    ∀ h ∈ allHits cx store scopes q fuse, h.1 = .library →
      libraryPathVisible scopes h.2.conceptPath = true := by
  intro h hh htag
  unfold allHits at hh
  dsimp only at hh
  split at hh
  · rename_i hlexical
    subst hlexical
    obtain ⟨⟨tag, cs⟩, -, hin⟩ := List.mem_flatMap.mp hh
    cases cs with
    | none => cases hin
    | some cs =>
      obtain ⟨result, hresult, rfl⟩ := List.mem_map.mp hin
      have hkept := (List.mem_filter.mp hresult).2
      obtain rfl : tag = .library := htag
      simpa using hkept
  · have hkept := (List.mem_filter.mp hh).2
    simpa [htag] using hkept

omit [Field K] [LinearOrder K] in
/-- INTERNAL: a hit is enriched in its texts only. -/
theorem enrich_key (store : Option Shelf) (scopes : AgentScopes) (h : ScopedHit K) :
    hitKey (enrich store scopes h) = hitKey h ∧ (enrich store scopes h).2.score = h.2.score := by
  unfold enrich
  split
  · split
    · exact ⟨rfl, rfl⟩
    · exact ⟨rfl, rfl⟩
  · exact ⟨rfl, rfl⟩

omit [Field K] in
theorem merged_enrich {scopes : AgentScopes} {cap : ℕ} {hits : List (ScopedHit K)}
    (h : Merged scopes cap hits) (store : Option Shelf) :
    Merged scopes cap (hits.map (enrich store scopes)) := by
  have hkey (hit : ScopedHit K) : (enrich store scopes hit).1 = hit.1 ∧
      (enrich store scopes hit).2.conceptPath = hit.2.conceptPath :=
    Prod.ext_iff.mp (enrich_key store scopes hit).1
  refine ⟨?_, ?_, ?_, ?_⟩
  · rw [List.length_map]
    exact h.few
  · rw [List.map_map, List.map_congr_left (g := hitKey)]
    · exact h.distinct
    · intro hit _
      exact (enrich_key store scopes hit).1
  · rw [List.pairwise_map]
    refine h.ranked.imp ?_
    intro a b hab
    rw [hitsBefore, ranksBefore, (hkey a).2, (hkey b).2, (enrich_key store scopes a).2,
      (enrich_key store scopes b).2]
    exact hab
  · intro visible hslugs hit hhit htag slug hbook
    obtain ⟨hit', hhit', rfl⟩ := List.mem_map.mp hhit
    rw [(hkey hit').1] at htag
    rw [(hkey hit').2] at hbook
    exact h.visible visible hslugs hit' hhit' htag slug hbook

/-- INTERNAL: the first of the ranked hits. -/
theorem merged_take (store : Option Shelf) (scopes : AgentScopes) (q : SearchQuery) (cap : ℕ)
    (fuse : FuseSources) :
    Merged scopes cap (((allHits cx store scopes q fuse).insertionSort hitsBefore).take cap) := by
  have hperm := List.perm_insertionSort hitsBefore (allHits cx store scopes q fuse)
  have hsub := List.take_sublist cap ((allHits cx store scopes q fuse).insertionSort hitsBefore)
  refine ⟨List.length_take_le _ _, ?_, (pairwise_hits _).sublist hsub, ?_⟩
  · have hkeys := (hperm.map hitKey).nodup_iff.mpr (nodup_allHits cx store scopes q fuse)
    exact hkeys.sublist (hsub.map hitKey)
  · intro visible hslugs hit hhit htag slug hbook
    have hin := hperm.mem_iff.mp (hsub.subset hhit)
    exact slug_visible hslugs hbook (visible_allHits cx store scopes q fuse hit hin htag)

theorem merged_crossScopeHits (store : Option Shelf) (scopes : AgentScopes) (mode : SearchMode)
    (q : SearchQuery) (cap : ℕ) (embedding : Option EmbeddingsClient) :
    Merged scopes cap (crossScopeHits cx store scopes mode q cap embedding) := by
  unfold crossScopeHits
  split
  · refine ⟨Nat.zero_le _, List.nodup_nil, List.Pairwise.nil, ?_⟩
    intro visible hslugs hit hhit
    cases hhit
  · rename_i fuse hfuse
    dsimp only
    split
    · exact merged_take cx store scopes q cap fuse
    · exact merged_enrich (merged_take cx store scopes q cap fuse) store

/-- The lexical sources give all hits that may be shown. -/
theorem allHits_lexicalOnly (store : Option Shelf) (scopes : AgentScopes) (q : SearchQuery) :
    allHits cx store scopes q .lexicalOnly = visibleHits cx store scopes q := by
  unfold allHits sources visibleHits
  simp only [List.flatMap_cons, List.flatMap_nil, List.append_nil, ↓reduceIte, List.append_assoc]
  congr 1
  · cases store with
    | none => rfl
    | some cs => simp [scopeHits]
  · congr 1
    · cases scopes.skills with
      | none => rfl
      | some cs => simp [scopeHits]
    · cases scopes.library with
      | none => rfl
      | some cs => simp [scopeHits]

/-- **Fusion and merge.** Each path of two pools of distinct paths is fused once, with what both
pools add to it. In every mode the composer returns ranked hits, at most so many, each scope and
path once, none of a book that is not visible; in lexical mode they are the first of all hits
that may be shown. SOURCE: search.rs:203-234, agent.rs:265-463 -/
theorem composed_hits :
    (∀ (lexPool vecPool : List (String × K)) (params : RrfParams K),
      (lexPool.map Prod.fst).Nodup → (vecPool.map Prod.fst).Nodup →
        Fused lexPool vecPool params (rrfFuse lexPool vecPool params)) ∧
    ∀ (store : Option Shelf) (scopes : AgentScopes) (mode : SearchMode) (q : SearchQuery)
      (cap : ℕ) (embedding : Option EmbeddingsClient),
      Merged scopes cap (crossScopeHits cx store scopes mode q cap embedding) ∧
      (mode = .lexical → ∃ all : List (ScopedHit K), all.Perm (visibleHits cx store scopes q) ∧
        all.Pairwise hitsBefore ∧
        crossScopeHits cx store scopes mode q cap embedding = all.take cap) := by
  refine ⟨fun lexPool vecPool params hlex hvec => fused_rrfFuse params hlex hvec, ?_⟩
  intro store scopes mode q cap embedding
  refine ⟨merged_crossScopeHits cx store scopes mode q cap embedding, ?_⟩
  rintro rfl
  refine ⟨(visibleHits cx store scopes q).insertionSort hitsBefore, List.perm_insertionSort _ _,
    pairwise_hits _, ?_⟩
  rw [← allHits_lexicalOnly]
  rfl

end Merge

/-! ## A library of two books -/

/-- Two embedded concepts, each in a book of its own. -/
def bookShelf : Shelf where
  index := exampleIndex
  tables := ⟨[], []⟩
  searchOk := true
  cacheScope := .ok [⟨"/a/x.md", "m", 1, []⟩, ⟨"/b/y.md", "m", 1, []⟩]
  pathToken := id
  files := .ok ["/a/x.md", "/b/y.md"]
  get := fun _ => none
  docs_key := List.nodup_nil
  rows_key := by
    rintro rows ⟨⟩
    decide

def plainComposer : Composer ℚ where
  lower := id
  ln := id
  cosine := fun _ _ => 1
  rrfParams := ⟨60, 1, 1⟩
  embeddingState := .green

/-- A reader of one of the books. -/
def readerScopes : AgentScopes := ⟨none, some bookShelf, some ["b"]⟩

theorem composed_hits_reader :
    Fused [("/a", 0)] [("/b", 0), ("/a", 0)] (⟨60, 1, 1⟩ : RrfParams ℚ)
      (rrfFuse [("/a", 0)] [("/b", 0), ("/a", 0)] ⟨60, 1, 1⟩) ∧
    (crossScopeHits plainComposer none readerScopes .vectorOnly ⟨["port"], .activeOnly⟩ 5
      (some ⟨"m", fun _ => some [[[]]]⟩)).map hitKey = [(.library, "/b/y.md")] ∧
    Merged readerScopes 5 (crossScopeHits plainComposer none readerScopes .vectorOnly
      ⟨["port"], .activeOnly⟩ 5 (some ⟨"m", fun _ => some [[[]]]⟩)) :=
  ⟨(composed_hits plainComposer).1 _ _ _ (by decide) (by decide), by decide +kernel,
    ((composed_hits plainComposer).2 none readerScopes .vectorOnly _ 5 _).1⟩

end Mycelium.Analysis.ScopeFusion
