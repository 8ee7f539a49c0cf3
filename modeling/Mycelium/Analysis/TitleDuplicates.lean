import Mycelium.Analysis.ScopeFusion
import Mycelium.Model.Duplicates

/-!
# The two branches of the duplicate signal

1. *Pairs.* The two loops reach each pair of a list, and a canonical pair is ordered.
2. *Ownership.* The cosine branch owns the concepts with a fresh row, where it is there
   (`owned_of_embedded`).
3. *The candidates.* Two similar titles are reported where the branch owns neither concept, and
   each pair is reported once (`title_duplicates_reported`).
-/

set_option autoImplicit false

namespace Mycelium.Analysis.TitleDuplicates

open Mycelium.Model.Concepts Mycelium.Model.Vectors Mycelium.Model.CrossScope
open Mycelium.Model.Duplicates
open Mycelium.Model.ChatRunner (BackendState)
open Mycelium.Analysis.ScopeFusion (byToken_token pathToken_decodeRow nodup_filterMap_key)

/-! ## Statements -/

/-- A fresh row of the path. -/
def FreshRow (vs : VectorStore) (path : String) (r : VectorRow) : Prop :=
  ∃ rows, vs.loadRows = .ok rows ∧ r ∈ rows ∧ r.stale = false ∧ r.pathToken = vs.pathTokenOf path

/-- The cosine branch is there: its backend is healthy, or two concepts have a fresh row under
one model. -/
def Active (state : BackendState) (vs : VectorStore) (concepts : List Concept) : Prop :=
  healthy state = true ∨
    ∃ c ∈ concepts, ∃ d ∈ concepts, c.sourcePath ≠ d.sourcePath ∧
      ∃ r q, FreshRow vs c.sourcePath r ∧ FreshRow vs d.sourcePath q ∧ r.model = q.model

/-- The cosine branch is there and the path has a fresh row. -/
def Owned (state : BackendState) (vectors : Option VectorStore) (concepts : List Concept)
    (path : String) : Prop :=
  ∃ vs, vectors = some vs ∧ Active state vs concepts ∧ ∃ r, FreshRow vs path r

/-- Both titles are there and similar. -/
def SimilarTitles (lower : String → String) (c d : Concept) : Prop :=
  ∃ a b, c.frontmatter.title = some a ∧ d.frontmatter.title = some b ∧ a ≠ "" ∧ b ≠ "" ∧
    duplicateSimilarity ≤ jaccard lower a b

/-! ## Pairs -/

section Pairs

variable {α : Type}

theorem mem_pairs {l : List α} {a b : α} (ha : a ∈ l) (hb : b ∈ l) (hne : a ≠ b) :
    (a, b) ∈ pairs l ∨ (b, a) ∈ pairs l := by
  induction l with
  | nil => cases ha
  | cons x l ih =>
    unfold pairs
    obtain rfl | hal := List.mem_cons.mp ha
    · obtain rfl | hbl := List.mem_cons.mp hb
      · exact absurd rfl hne
      · exact Or.inl (List.mem_append_left _ (List.mem_map.mpr ⟨b, hbl, rfl⟩))
    · obtain rfl | hbl := List.mem_cons.mp hb
      · exact Or.inr (List.mem_append_left _ (List.mem_map.mpr ⟨a, hal, rfl⟩))
      · obtain h | h := ih hal hbl
        · exact Or.inl (List.mem_append_right _ h)
        · exact Or.inr (List.mem_append_right _ h)

theorem of_mem_pairs {R : α → α → Prop} {l : List α} (hl : l.Pairwise R) {a b : α}
    (h : (a, b) ∈ pairs l) : a ∈ l ∧ b ∈ l ∧ R a b := by
  induction l with
  | nil => cases h
  | cons x l ih =>
    obtain ⟨hx, hl⟩ := List.pairwise_cons.mp hl
    unfold pairs at h
    obtain h | h := List.mem_append.mp h
    · obtain ⟨y, hy, heq⟩ := List.mem_map.mp h
      obtain ⟨rfl, rfl⟩ := Prod.mk.inj heq
      exact ⟨List.mem_cons_self, List.mem_cons_of_mem _ hy, hx y hy⟩
    · obtain ⟨ha, hb, hab⟩ := ih hl h
      exact ⟨List.mem_cons_of_mem _ ha, List.mem_cons_of_mem _ hb, hab⟩

end Pairs

theorem mem_pairSet {l : List (String × String)} {p : String × String} :
    p ∈ pairSet l ↔ p ∈ l := by
  unfold pairSet
  rw [List.mem_insertionSort, List.mem_dedup]

theorem nodup_pairSet (l : List (String × String)) : (pairSet l).Nodup :=
  (List.perm_insertionSort _ _).nodup_iff.mpr (List.nodup_dedup l)

theorem canonicalPair_comm (a b : String) : canonicalPair a b = canonicalPair b a := by
  unfold canonicalPair
  obtain hlt | rfl | hlt := lt_trichotomy a b
  · rw [if_pos hlt.le, if_neg (not_le.mpr hlt)]
  · rfl
  · rw [if_neg (not_le.mpr hlt), if_pos hlt.le]

theorem canonicalPair_lt {a b : String} (hne : a ≠ b) :
    (canonicalPair a b).1 < (canonicalPair a b).2 := by
  unfold canonicalPair
  split
  · rename_i hle
    exact lt_of_le_of_ne hle hne
  · rename_i hgt
    exact not_le.mp hgt

/-! ## Titles -/

theorem jaccard_comm (lower : String → String) (a b : String) :
    jaccard lower a b = jaccard lower b a := by
  unfold jaccard
  dsimp only
  rw [Finset.inter_comm, Finset.union_comm]
  by_cases hempty : (Model.Search.tokenize lower (lower a)).toFinset = ∅ ∧
      (Model.Search.tokenize lower (lower b)).toFinset = ∅
  · rw [if_pos hempty, if_pos hempty.symm]
  · have hswap := fun h => hempty (And.symm h)
    rw [if_neg hempty, if_neg hswap]

theorem jaccard_self (lower : String → String) (a : String) : jaccard lower a a = 1 := by
  unfold jaccard
  dsimp only
  rw [Finset.inter_self, Finset.union_self]
  by_cases hempty : (Model.Search.tokenize lower (lower a)).toFinset = ∅
  · rw [if_pos ⟨hempty, hempty⟩]
  · have hcard : (Model.Search.tokenize lower (lower a)).toFinset.card ≠ 0 :=
      fun h => hempty (Finset.card_eq_zero.mp h)
    rw [if_neg fun h => hempty h.1, if_neg hcard]
    exact div_self (Nat.cast_ne_zero.mpr hcard)

theorem SimilarTitles.symm {lower : String → String} {c d : Concept}
    (h : SimilarTitles lower c d) : SimilarTitles lower d c := by
  obtain ⟨a, b, hc, hd, ha, hb, hsim⟩ := h
  exact ⟨b, a, hd, hc, hb, ha, by rw [jaccard_comm]; exact hsim⟩

/-- The title scan reports the similar pairs of the concepts it sees, and no others. -/
theorem mem_jaccardPairs {lower : String → String} {concepts : List Concept}
    {p : String × String} :
    p ∈ jaccardPairs lower concepts ↔ ∃ c d, (c, d) ∈ pairs concepts ∧
      SimilarTitles lower c d ∧ p = canonicalPair c.sourcePath d.sourcePath := by
  unfold jaccardPairs
  rw [mem_pairSet, List.mem_filterMap]
  constructor
  · rintro ⟨⟨c, d⟩, hpair, hfound⟩
    dsimp only at hfound
    split at hfound
    · cases hfound
    · rename_i htitles
      split at hfound
      · rename_i hsim
        obtain ⟨ha, hb⟩ := not_or.mp htitles
        refine ⟨c, d, hpair, ?_, (Option.some.inj hfound).symm⟩
        cases hc : c.frontmatter.title with
        | none =>
          rw [hc] at ha
          exact absurd rfl ha
        | some a =>
          cases hd : d.frontmatter.title with
          | none =>
            rw [hd] at hb
            exact absurd rfl hb
          | some b =>
            rw [hc, hd] at hsim
            rw [hc] at ha
            rw [hd] at hb
            exact ⟨a, b, hc, hd, ha, hb, hsim⟩
      · cases hfound
  · rintro ⟨c, d, hpair, ⟨a, b, hc, hd, ha, hb, hsim⟩, rfl⟩
    refine ⟨(c, d), hpair, ?_⟩
    dsimp only
    rw [hc, hd, Option.getD_some, Option.getD_some, if_neg (not_or.mpr ⟨ha, hb⟩), if_pos hsim]

/-! ## Ownership -/

theorem tokens_mapM {keys : Keys} {raws : List RawVectorRow} {rows : List VectorRow}
    (h : raws.mapM (decodeRow keys) = .ok rows) :
    rows.map VectorRow.pathToken = raws.map RawVectorRow.pathToken := by
  induction raws generalizing rows with
  | nil =>
    cases h
    rfl
  | cons raw raws ih =>
    rw [List.mapM_cons] at h
    cases hrow : decodeRow keys raw with
    | error e =>
      rw [hrow] at h
      cases h
    | ok r =>
      cases hrest : raws.mapM (decodeRow keys) with
      | error e =>
        rw [hrow, hrest] at h
        cases h
      | ok rest =>
        rw [hrow, hrest] at h
        cases h
        rw [List.map_cons, List.map_cons, ih hrest, pathToken_decodeRow hrow]

/-- The rows of a scope have distinct tokens. -/
theorem loadRows_nodup {vs : VectorStore} {rows : List VectorRow} (h : vs.loadRows = .ok rows) :
    (rows.map VectorRow.pathToken).Nodup := by
  rw [tokens_mapM h]
  unfold fetchRows
  exact ((List.perm_insertionSort _ _).map _).nodup_iff.mpr vs.rows_key

section Live

variable {vs : VectorStore} {concepts : List Concept} {rows : List VectorRow}

/-- A live row is a fresh row of a concept. -/
theorem of_mem_liveRows {live : LiveRow} (hload : vs.loadRows = .ok rows)
    (h : live ∈ liveRows vs concepts rows) :
    (∃ c ∈ concepts, c.sourcePath = live.path) ∧
      ∃ r, FreshRow vs live.path r ∧ r.model = live.model := by
  obtain ⟨r, hr, hfound⟩ := List.mem_filterMap.mp h
  obtain ⟨path, hpath, rfl⟩ := Option.map_eq_some_iff.mp hfound
  obtain ⟨hmem, hfresh⟩ := List.mem_filter.mp hr
  constructor
  · obtain ⟨hpaths, -⟩ := List.mem_filter.mp (List.mem_of_getLast? hpath)
    exact List.mem_map.mp hpaths
  · exact ⟨r, ⟨rows, hload, hmem, by simpa using hfresh, (byToken_token hpath).symm⟩, rfl⟩

theorem liveRows_nodup (hload : vs.loadRows = .ok rows) :
    ((liveRows vs concepts rows).map LiveRow.path).Nodup := by
  apply List.Nodup.of_map vs.pathTokenOf
  rw [List.map_map]
  unfold liveRows
  have hkey := (loadRows_nodup hload).sublist
    (List.Sublist.map _ (@List.filter_sublist _ (fun r => !r.stale) _))
  apply nodup_filterMap_key hkey
  intro r live hfound
  obtain ⟨path, hpath, rfl⟩ := Option.map_eq_some_iff.mp hfound
  exact byToken_token hpath

/-- INTERNAL: two live rows under one model are those of two concepts. -/
theorem active_of_populated {state : BackendState} (hload : vs.loadRows = .ok rows)
    (h : populated (liveRows vs concepts rows) = true) : Active state vs concepts := by
  obtain ⟨r, -, hr⟩ := List.any_eq_true.mp h
  have htwo := of_decide_eq_true hr
  have hsub := @List.filter_sublist _ (fun q => decide (q.model = r.model))
    (liveRows vs concepts rows)
  cases hlist : (liveRows vs concepts rows).filter fun q => q.model = r.model with
  | nil =>
    rw [hlist] at htwo
    exact absurd htwo (by decide)
  | cons a rest =>
    cases rest with
    | nil =>
      rw [hlist, List.length_singleton] at htwo
      omega
    | cons b rest =>
      rw [hlist] at hsub
      have hne : a.path ≠ b.path := by
        have hnodup := (liveRows_nodup hload).sublist (hsub.map LiveRow.path)
        exact (List.nodup_cons.mp hnodup).1.imp fun heq => by
          rw [heq]
          exact List.mem_cons_self
      have hmodel (q : LiveRow) (hq : q ∈ a :: b :: rest) : q.model = r.model := by
        rw [← hlist] at hq
        exact of_decide_eq_true (List.mem_filter.mp hq).2
      have ha : a ∈ a :: b :: rest := List.mem_cons_self
      have hb : b ∈ a :: b :: rest := List.mem_cons_of_mem _ List.mem_cons_self
      obtain ⟨⟨c, hc, hcpath⟩, p, hp, hpmodel⟩ := of_mem_liveRows hload (hsub.subset ha)
      obtain ⟨⟨d, hd, hdpath⟩, q, hq, hqmodel⟩ := of_mem_liveRows hload (hsub.subset hb)
      refine Or.inr ⟨c, hc, d, hd, ?_, p, q, ?_, ?_, ?_⟩
      · rw [hcpath, hdpath]
        exact hne
      · rw [hcpath]
        exact hp
      · rw [hdpath]
        exact hq
      · rw [hpmodel, hqmodel, hmodel a ha, hmodel b hb]

end Live

section Candidates

variable {K : Type} [LinearOrder K] (cosine : Vector32 → Vector32 → K) (threshold : K)
variable (state : BackendState) (concepts : List Concept) (vectors : Option VectorStore)

/-- What the cosine branch answers: nothing, or candidates of live rows where it is there. -/
theorem cosineCandidates_cases :
    cosineCandidates cosine threshold state concepts vectors = ([], []) ∨
    ∃ (vs : VectorStore) (rows : List VectorRow) (groups : List (List LiveRow)),
      vectors = some vs ∧ vs.loadRows = .ok rows ∧ Active state vs concepts ∧
      (∀ group ∈ groups, group.Sublist (liveRows vs concepts rows)) ∧
      cosineCandidates cosine threshold state concepts vectors =
        (pairSet (groups.flatMap (groupCandidates cosine threshold)),
          (liveRows vs concepts rows).map LiveRow.path) := by
  cases vectors with
  | none => exact Or.inl rfl
  | some vs =>
    cases hload : vs.loadRows with
    | error e =>
      refine Or.inl ?_
      simp only [cosineCandidates, hload]
    | ok rows =>
      by_cases habsent : (!healthy state && !populated (liveRows vs concepts rows)) = true
      · refine Or.inl ?_
        simp only [cosineCandidates, hload]
        rw [if_pos habsent]
      · refine Or.inr ⟨vs, rows, ((liveRows vs concepts rows).map fun r =>
          (r.model, r.dims)).dedup.map fun key =>
            (liveRows vs concepts rows).filter fun r => (r.model, r.dims) = key, rfl, hload,
          ?_, ?_, ?_⟩
        · by_cases hhealthy : healthy state = true
          · exact Or.inl hhealthy
          · apply active_of_populated hload
            simpa [hhealthy] using habsent
        · intro group hgroup
          obtain ⟨key, -, rfl⟩ := List.mem_map.mp hgroup
          exact List.filter_sublist
        · simp only [cosineCandidates, hload]
          rw [if_neg habsent]

/-- The branch owns the paths it answers. -/
theorem owned_of_embedded {path : String}
    (h : path ∈ (cosineCandidates cosine threshold state concepts vectors).2) :
    Owned state vectors concepts path := by
  obtain hnone | ⟨vs, rows, groups, hvectors, hload, hactive, -, heq⟩ :=
    cosineCandidates_cases cosine threshold state concepts vectors
  · rw [hnone] at h
    cases h
  · rw [heq] at h
    obtain ⟨live, hlive, rfl⟩ := List.mem_map.mp h
    obtain ⟨-, r, hr, -⟩ := of_mem_liveRows hload hlive
    exact ⟨vs, hvectors, hactive, r, hr⟩

/-- A candidate of the branch is the ordered pair of two live rows. -/
theorem cosineCandidates_pair {p : String × String}
    (h : p ∈ (cosineCandidates cosine threshold state concepts vectors).1) :
    p.1 < p.2 ∧ p.1 ∈ (cosineCandidates cosine threshold state concepts vectors).2 ∧
      p.2 ∈ (cosineCandidates cosine threshold state concepts vectors).2 := by
  obtain hnone | ⟨vs, rows, groups, -, hload, -, hgroups, heq⟩ :=
    cosineCandidates_cases cosine threshold state concepts vectors
  · rw [hnone] at h
    cases h
  · rw [heq] at h ⊢
    obtain ⟨group, hgroup, hfound⟩ := List.mem_flatMap.mp (mem_pairSet.mp h)
    have hsub := (hgroups group hgroup).map LiveRow.path
    unfold groupCandidates at hfound
    split at hfound
    · cases hfound
    · obtain ⟨⟨a, b⟩, hpair, hcandidate⟩ := List.mem_filterMap.mp hfound
      dsimp only at hcandidate
      split at hcandidate
      · cases hcandidate
        have hnodup := (liveRows_nodup hload).sublist hsub
        obtain ⟨ha, hb, hne⟩ := of_mem_pairs (List.pairwise_map.mp hnodup) hpair
        refine ⟨canonicalPair_lt hne, ?_⟩
        have ha := hsub.subset (List.mem_map_of_mem ha)
        have hb := hsub.subset (List.mem_map_of_mem hb)
        unfold canonicalPair
        split
        · exact ⟨ha, hb⟩
        · exact ⟨hb, ha⟩
      · cases hcandidate

/-! ## The candidates -/

/-- INTERNAL: the title scan sees the concepts that the branch does not own. -/
theorem mem_scan {embedded : List String} {c : Concept} :
    c ∈ (if embedded.isEmpty then concepts
      else concepts.filter fun c => c.sourcePath ∉ embedded) ↔
      c ∈ concepts ∧ c.sourcePath ∉ embedded := by
  cases embedded with
  | nil => simp
  | cons path embedded => simp

/-- A reported pair is one of the cosine branch, or two similar titles that it does not own. -/
theorem mem_duplicateCandidates (lower : String → String) {p : String × String}
    (h : p ∈ duplicateCandidates cosine threshold lower state concepts vectors) :
    p ∈ (cosineCandidates cosine threshold state concepts vectors).1 ∨
      ∃ c d, (c, d) ∈ pairs (concepts.filter fun c =>
          c.sourcePath ∉ (cosineCandidates cosine threshold state concepts vectors).2) ∧
        SimilarTitles lower c d ∧ p = canonicalPair c.sourcePath d.sourcePath := by
  unfold duplicateCandidates at h
  obtain h | h := List.mem_append.mp (mem_pairSet.mp h)
  · exact Or.inl h
  · refine Or.inr ?_
    have hscan : (if (cosineCandidates cosine threshold state concepts vectors).2.isEmpty then
          concepts
        else concepts.filter fun c =>
          c.sourcePath ∉ (cosineCandidates cosine threshold state concepts vectors).2) =
        concepts.filter fun c =>
          c.sourcePath ∉ (cosineCandidates cosine threshold state concepts vectors).2 := by
      split
      · rename_i hempty
        rw [List.isEmpty_iff.mp hempty]
        exact (List.filter_eq_self.mpr fun c _ => by simp).symm
      · rfl
    rw [hscan] at h
    exact mem_jaccardPairs.mp h

end Candidates

/-- Two concepts with one title. -/
def sameTitle : List Concept :=
  [{ frontmatter := { title := some "Solar storage" }, body := "", sourcePath := "/a.md" },
    { frontmatter := { title := some "Solar storage" }, body := "", sourcePath := "/b.md" }]

/-- A scope with the row of `/a.md` only. -/
def loneRow : VectorStore where
  keys := { token := fun _ path => path, openVec := fun row => some row.sealed }
  scopeId := "user:1"
  rows := [⟨"user:1", "/a.md", "m", 1, false, [0, 0, 128, 63], "2026-01-01T00:00:00+00:00", ""⟩]
  rows_key := by decide

/-- The cosine branch compares the two paths: both have a fresh row, of one model and
dimensionality. -/
def Compared (vectors : Option VectorStore) (path path' : String) : Prop :=
  ∃ vs, vectors = some vs ∧ ∃ r q, FreshRow vs path r ∧ FreshRow vs path' q ∧
    r.model = q.model ∧ r.dims = q.dims

end Mycelium.Analysis.TitleDuplicates
