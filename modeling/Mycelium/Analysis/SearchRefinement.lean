import Mathlib.Analysis.SpecialFunctions.Log.Basic
import Mycelium.Analysis.SearchTables

/-!
# The encrypted index refines the in-memory oracle

Both indexes hold the corpus of the history (`corpusOf`) and both answer a query with its
ranked hits, so they give the same answers and score from the same numbers
(`index_refines_oracle`), for every history of additions to every scope.

The lengths are where they part: the oracle keeps and sums 32-bit lengths and the tables
sum the lengths themselves, so the total length of a corpus with a document of `2 ^ 32`
tokens is not the same (`total_length_differs`).
-/

set_option autoImplicit false

namespace Mycelium.Analysis.SearchRefinement

open Mycelium.Model.Text Mycelium.Model.Concepts Mycelium.Model.Search
open Mycelium.Model.SearchIndex Mycelium.Analysis.SearchOracle Mycelium.Analysis.SearchTables

/-! ## Ranking -/

section Ranking

variable {K : Type} [LinearOrder K]

theorem ranksBefore_total (a b : SearchResult K) : ranksBefore a b ∨ ranksBefore b a := by
  unfold ranksBefore
  rcases lt_trichotomy a.score b.score with hlt | heq | hgt
  · exact Or.inr (Or.inl hlt)
  · rcases String.le_total a.conceptPath b.conceptPath with hle | hge
    · exact Or.inl (Or.inr ⟨heq, hle⟩)
    · exact Or.inr (Or.inr ⟨heq.symm, hge⟩)
  · exact Or.inl (Or.inl hgt)

theorem ranksBefore_trans {a b c : SearchResult K} (hab : ranksBefore a b)
    (hbc : ranksBefore b c) : ranksBefore a c := by
  unfold ranksBefore at *
  rcases hab with hab | ⟨hab, hpab⟩
  · rcases hbc with hbc | ⟨hbc, -⟩
    · exact Or.inl (hbc.trans hab)
    · exact Or.inl (hbc ▸ hab)
  · rcases hbc with hbc | ⟨hbc, hpbc⟩
    · exact Or.inl (hab ▸ hbc)
    · exact Or.inr ⟨hab.trans hbc, String.le_trans hpab hpbc⟩

theorem path_eq_of_ranksBefore {a b : SearchResult K} (hab : ranksBefore a b)
    (hba : ranksBefore b a) : a.conceptPath = b.conceptPath := by
  unfold ranksBefore at *
  rcases hab with hab | ⟨hab, hpab⟩
  · rcases hba with hba | ⟨hba, -⟩
    · exact absurd hab hba.asymm
    · exact absurd hba hab.ne
  · rcases hba with hba | ⟨-, hpba⟩
    · exact absurd hab hba.ne
    · exact String.le_antisymm hpab hpba

/-- INTERNAL: with one result for each path the ranking determines the order. -/
theorem sortResults_eq_of_perm {l l' : List (SearchResult K)} (hperm : l.Perm l')
    (hpaths : (l'.map SearchResult.conceptPath).Nodup) : sortResults l = sortResults l' := by
  have : Std.Total (ranksBefore (K := K)) := ⟨ranksBefore_total⟩
  have : IsTrans (SearchResult K) ranksBefore := ⟨fun _ _ _ => ranksBefore_trans⟩
  have hsorted : (sortResults l).Perm l' := (List.perm_insertionSort _ l).trans hperm
  have hsorted' : (sortResults l').Perm l' := List.perm_insertionSort _ l'
  refine List.Perm.eq_of_pairwise ?_ (List.pairwise_insertionSort ranksBefore l)
    (List.pairwise_insertionSort ranksBefore l') (hsorted.trans hsorted'.symm)
  intro a b ha hb hab hba
  exact List.inj_on_of_nodup_map hpaths (hsorted.mem_iff.mp ha) (hsorted'.mem_iff.mp hb)
    (path_eq_of_ranksBefore hab hba)

end Ranking

/-! ## Histories -/

/-- One addition: the index of a scope, what it adds and the nonce of the sealing. -/
structure Addition where
  index : EncryptedIndex
  concept : Concept
  nonce : ℕ

/-- The additions to a scope. -/
def ofScope (ix : EncryptedIndex) (hist : List Addition) : List Addition :=
  hist.filter fun a => a.index.scopeId = ix.scopeId

def runTables (lower : String → String) (db : Tables) (hist : List Addition) : Tables :=
  hist.foldl (fun db a => a.index.addAsync lower db a.concept a.nonce) db

def runOracle (lower : String → String) (idx : InMemoryIndex) (hist : List Addition) :
    InMemoryIndex :=
  hist.foldl (fun idx a => idx.add lower a.concept) idx

def corpusOf (C : Corpus) (hist : List Addition) : Corpus :=
  hist.foldl (fun C a => C.replace (a.concept, a.nonce)) C

section History

variable {lower : String → String} {ix : EncryptedIndex}

/-- INTERNAL: over a history the tables keep the corpus of their scope. -/
theorem stores_runTables (hist : List Addition)
    (hown : ∀ a ∈ hist, a.index.scopeId = ix.scopeId → a.index = ix) {db : Tables} {C : Corpus}
    (h : Stores lower ix db C) :
    Stores lower ix (runTables lower db hist) (corpusOf C (ofScope ix hist)) := by
  induction hist generalizing db C with
  | nil => exact h
  | cons a hist ih =>
    have hrest : ∀ b ∈ hist, b.index.scopeId = ix.scopeId → b.index = ix :=
      fun b hb => hown b (List.mem_cons_of_mem _ hb)
    by_cases hscope : a.index.scopeId = ix.scopeId
    · have hix : a.index = ix := hown a List.mem_cons_self hscope
      have hstep := ih hrest (stores_add h a.concept a.nonce)
      rw [ofScope, List.filter_cons_of_pos (by simpa using hscope)]
      rw [← hix] at hstep ⊢
      exact hstep
    · rw [ofScope, List.filter_cons_of_neg (by simpa using hscope)]
      exact ih hrest (stores_add_foreign h hscope a.concept a.nonce)

theorem represents_runOracle (hist : List Addition) {idx : InMemoryIndex} {C : Corpus}
    (h : Represents lower idx C) :
    Represents lower (runOracle lower idx hist) (corpusOf C hist) := by
  induction hist generalizing idx C with
  | nil => exact h
  | cons a hist ih => exact ih (represents_add lower h a.concept a.nonce)

/-- INTERNAL: a document of the corpus was added. -/
theorem mem_corpusOf (hist : List Addition) {C : Corpus} {d : Concept × ℕ}
    (hd : d ∈ corpusOf C hist) : d ∈ C ∨ ∃ a ∈ hist, (a.concept, a.nonce) = d := by
  induction hist generalizing C with
  | nil => exact Or.inl hd
  | cons a hist ih =>
    rcases ih hd with hC | ⟨b, hb, hbd⟩
    · rcases List.mem_cons.mp hC with rfl | hold
      · exact Or.inr ⟨a, List.mem_cons_self, rfl⟩
      · exact Or.inl (List.mem_filter.mp hold).1
    · exact Or.inr ⟨b, List.mem_cons_of_mem _ hb, hbd⟩

/-- The two indexes score a query from the same numbers: document count, total length,
document frequency, term frequency and document length. -/
structure SameInputs (lower : String → String) (ix : EncryptedIndex) (db : Tables)
    (idx : InMemoryIndex) (terms : List String) : Prop where
  nDocs : ix.nDocs db = idx.nDocs
  totalLen : ix.sumLen db = idx.totalLen
  df : ∀ term ∈ terms, (ix.stats lower db terms).df (ix.keys.token (lower term)) =
    idx.df (lower term)
  tf : ∀ term ∈ terms, ∀ path, (ix.stats lower db terms).tf path (ix.keys.token (lower term)) =
    idx.tf (lower term) path
  docLen : ∀ r ∈ db.searchDocs, r.scope = ix.scopeId →
    r.length = (idx.doc r.conceptPath).length

theorem mem_sortedTerms {terms : List String} {term : String} (h : term ∈ terms) :
    lower term ∈ sortedTerms lower terms := by
  rw [sortedTerms, List.mem_insertionSort, List.mem_dedup]
  exact List.mem_map_of_mem h

/-- INTERNAL: two indexes of one corpus of documents that 32 bits can count. -/
theorem same_of_corpus {K : Type} [Field K] [LinearOrder K] (ln : K → K) {db : Tables}
    {idx : InMemoryIndex} {C : Corpus} (hkeys : KeysSound ix.keys) (hdb : Stores lower ix db C)
    (hidx : Represents lower idx C) (hlen : ∀ d ∈ C, (toks lower d.1).length < u32)
    (q : SearchQuery) :
    SameInputs lower ix db idx q.terms ∧ ix.search lower ln db q = idx.search lower ln q := by
  have htotal : (C.total fun c => (toks lower c).length) =
      C.total fun c => (toks lower c).length % u32 := by
    unfold Corpus.total
    congr 1
    refine List.map_congr_left ?_
    intro d hd
    exact (Nat.mod_eq_of_lt (hlen d hd)).symm
  constructor
  · refine ⟨?_, ?_, ?_, ?_, ?_⟩
    · rw [nDocs_of_stores hdb, nDocs_of_represents hidx]
    · rw [sumLen_of_stores hdb, totalLen_of_represents hidx, htotal]
    · intro term hterm
      rw [df_of_stores hkeys hdb (mem_sortedTerms hterm), df_of_represents hidx]
    · intro term hterm path
      rw [tf_of_stores hkeys hdb (mem_sortedTerms hterm), tf_of_represents hidx]
    · intro r hr hscope
      have hrow : r ∈ db.searchDocs.filter fun r => r.scope = ix.scopeId :=
        List.mem_filter.mpr ⟨hr, by simpa using hscope⟩
      rw [hdb.docs] at hrow
      obtain ⟨d, hd, rfl⟩ := List.mem_map.mp hrow
      have hdC : d ∈ C := List.mem_reverse.mp hd
      have hdoc := doc_of_represents hidx hdC
      have hmod := Nat.mod_eq_of_lt (hlen d hdC)
      simp only [EncryptedIndex.docRow, hdoc, metaOf, hmod]
      rfl
  · obtain ⟨l, hl, hperm⟩ := search_of_tables ln hkeys hdb q
    obtain ⟨l', hl', hperm'⟩ := search_of_oracle ln hidx q
    rw [htotal] at hperm
    have hpaths : ((hits lower ln C (C.total fun c => (toks lower c).length % u32) q.statusFilter
        (distinctTerms lower q.terms)).map SearchResult.conceptPath).Nodup := by
      rw [hits, List.map_map]
      exact hdb.distinct.sublist (List.filter_sublist.map _)
    rw [hl, hl', sortResults_eq_of_perm hperm hpaths, sortResults_eq_of_perm hperm' hpaths]

end History

/-- For every history of additions, re-additions included, to any scopes of a database
that held nothing of the scope, and for every query, the encrypted index of the scope and
the oracle score from the same numbers and give the same ranked answers. A document has
fewer than `2 ^ 32` tokens. -/
theorem index_refines_oracle {K : Type} [Field K] [LinearOrder K] (ln : K → K)
    (lower : String → String) (ix : EncryptedIndex) (hkeys : KeysSound ix.keys) (db : Tables)
    (hfresh : Fresh ix db) (hist : List Addition)
    (hown : ∀ a ∈ hist, a.index.scopeId = ix.scopeId → a.index = ix)
    (hlen : ∀ a ∈ ofScope ix hist,
      (tokenize lower (searchableText a.concept)).length < u32)
    (q : SearchQuery) :
    SameInputs lower ix (runTables lower db hist)
        (runOracle lower InMemoryIndex.new (ofScope ix hist)) q.terms ∧
      ix.search lower ln (runTables lower db hist) q =
        (runOracle lower InMemoryIndex.new (ofScope ix hist)).search lower ln q := by
  have hdb := stores_runTables hist hown (stores_fresh lower hfresh)
  have hidx := represents_runOracle (ofScope ix hist) (represents_new lower)
  refine same_of_corpus ln hkeys hdb hidx ?_ q
  intro d hd
  rcases mem_corpusOf _ hd with hnil | ⟨a, ha, rfl⟩
  · cases hnil
  · exact hlen a ha

/-! ## A small history -/

def asciiLower (s : String) : String := String.ofList (s.toList.map Char.toLower)

/-- Tokens with a mark, the associated data before the plain text, and the fields of a
payload behind the length of the first. -/
def exampleKeys : IndexKeys where
  token t := String.ofList ('#' :: t.toList)
  toJson x := String.ofList
    (List.replicate x.title.toList.length '1' ++ '0' :: (x.title.toList ++ x.snippet.toList))
  fromJson s :=
    let n := (s.toList.takeWhile (· = '1')).length
    let rest := s.toList.drop (n + 1)
    some { title := String.ofList (rest.take n), snippet := String.ofList (rest.drop n) }
  aeadSeal _ plain aad := String.ofList (aad.toList ++ plain.toList)
  aeadOpen sealed aad := (stripPrefix sealed aad).map String.ofList

theorem exampleKeys_sound : KeysSound exampleKeys := by
  refine ⟨?_, ?_, ?_⟩
  · intro t t' h
    have hlist := congrArg String.toList h
    simp only [exampleKeys, String.toList_ofList, List.cons.injEq, true_and] at hlist
    exact String.toList_inj.mp hlist
  · intro nonce plain aad
    simp [exampleKeys, stripPrefix, startsWith, ← String.length_toList]
  · rintro ⟨title, snippet⟩
    have htake : (List.replicate title.toList.length '1' ++
        '0' :: (title.toList ++ snippet.toList)).takeWhile (· = '1') =
          List.replicate title.toList.length '1' := by
      rw [List.takeWhile_append_of_pos (by simp)]
      simp
    simp only [exampleKeys, String.toList_ofList, htake, List.length_replicate]
    simp [List.drop_append]

def exampleIndex : EncryptedIndex := ⟨"user/1", exampleKeys⟩

def otherIndex : EncryptedIndex := ⟨"user/2", exampleKeys⟩

theorem fresh_empty (ix : EncryptedIndex) : Fresh ix ⟨[], []⟩ := by
  constructor
  · intro r hr
    cases hr
  · intro r hr
    cases hr

def page (path title body : String) (status : Option String) : Concept where
  frontmatter := { conceptType := "Note", title := some title, status }
  body
  sourcePath := path

/-- A page, another scope's page of the same path, a superseded page, and the first page
with a new body. -/
def pages : List Addition :=
  [⟨exampleIndex, page "/port.md" "Port" "the port is 8080" none, 1⟩,
   ⟨otherIndex, page "/port.md" "Port" "a harbour port" none, 2⟩,
   ⟨exampleIndex, page "/old.md" "Old port" "it was 80" (some "superseded"), 3⟩,
   ⟨exampleIndex, page "/port.md" "Port" "the port is 8081" none, 4⟩]

def portQuery : SearchQuery where
  terms := ["Port", "port", "8081"]
  statusFilter := .all

theorem index_refines_oracle_pages :
    SameInputs asciiLower exampleIndex (runTables asciiLower ⟨[], []⟩ pages)
        (runOracle asciiLower InMemoryIndex.new (ofScope exampleIndex pages)) portQuery.terms ∧
      exampleIndex.search asciiLower Real.log (runTables asciiLower ⟨[], []⟩ pages) portQuery =
        (runOracle asciiLower InMemoryIndex.new (ofScope exampleIndex pages)).search asciiLower
          Real.log portQuery := by
  refine index_refines_oracle Real.log asciiLower exampleIndex exampleKeys_sound ⟨[], []⟩
    (fresh_empty _) pages ?_ ?_ portQuery
  · simp [pages, otherIndex, exampleIndex]
  · decide

/-! ## A document of `2 ^ 32` tokens -/

/-- A page whose title is a word of two letters `n` times. -/
def longPage (n : ℕ) : Concept :=
  page "/long.md" (String.ofList (List.replicate n ['a', 'a', ' ']).flatten) "" none

theorem splitBy_words (n : ℕ) (rest : List Char) :
    splitBy (fun c => !isAsciiAlphanumeric c)
        ((List.replicate n ['a', 'a', ' ']).flatten ++ rest) =
      List.replicate n ['a', 'a'] ++ splitBy (fun c => !isAsciiAlphanumeric c) rest := by
  have ha : isAsciiAlphanumeric 'a' = true := by decide
  have hspace : isAsciiAlphanumeric ' ' = false := by decide
  induction n with
  | zero => rfl
  | succ n ih =>
    simp only [List.replicate_succ, List.flatten_cons, List.cons_append, List.nil_append, splitBy,
      ha, hspace, Bool.not_true, Bool.not_false, Bool.false_eq_true, ↓reduceIte, ih]

theorem tokenize_longPage (n : ℕ) :
    tokenize asciiLower (searchableText (longPage n)) = List.replicate n "aa" := by
  have htext : (asciiLower (searchableText (longPage n))).toList =
      (List.replicate n ['a', 'a', ' ']).flatten ++ [' '] := by
    have hlower : ['a', 'a', ' '].map Char.toLower = ['a', 'a', ' '] := by decide
    have hbody : searchableText (longPage n) =
        String.ofList (List.replicate n ['a', 'a', ' ']).flatten ++ "" ++ "" ++ " " ++ "" := rfl
    rw [asciiLower, hbody, String.toList_ofList]
    simp only [String.append_empty, String.toList_append, String.toList_ofList, List.map_append,
      List.map_flatten, List.map_replicate, hlower]
    rfl
  have hend : splitBy (fun c => !isAsciiAlphanumeric c) [' '] = [[], []] := by decide
  have hword : String.ofList ['a', 'a'] = "aa" := by decide
  rw [tokenize, htext, splitBy_words, hend, List.filter_append]
  simp [hword]

/-- The tables sum the length `2 ^ 32`, the oracle a length of zero. -/
theorem total_length_differs :
    exampleIndex.sumLen
        (runTables asciiLower ⟨[], []⟩ [⟨exampleIndex, longPage (2 ^ 32), 1⟩]) ≠
      (runOracle asciiLower InMemoryIndex.new
        [⟨exampleIndex, longPage (2 ^ 32), 1⟩]).totalLen := by
  have hdb := stores_add (stores_fresh asciiLower (fresh_empty exampleIndex)) (longPage (2 ^ 32)) 1
  have hidx := represents_add asciiLower (represents_new asciiLower) (longPage (2 ^ 32)) 1
  have hsum := sumLen_of_stores hdb
  have htotal := totalLen_of_represents hidx
  have hlen := congrArg List.length (tokenize_longPage (2 ^ 32))
  rw [List.length_replicate] at hlen
  simp only [Corpus.total, Corpus.replace, List.filter_nil, List.map_cons, List.map_nil,
    List.sum_cons, List.sum_nil, toks, hlen] at hsum htotal
  intro h
  rw [runTables, runOracle, List.foldl_cons, List.foldl_nil, List.foldl_cons, List.foldl_nil,
    hsum, htotal] at h
  norm_num [u32] at h

end Mycelium.Analysis.SearchRefinement
