import Mycelium.Analysis.SearchRefinement
import Mycelium.Analysis.Tokens
import Mycelium.Model.Fallback

/-!
# What a question finds

A question is cut at blanks and its words go to the index as they are, while the texts of
the concepts are cut into tokens. A word with any other sign in it is therefore not a token
of any text.

1. The search finds the active concepts that have one of the lowercased terms
   (`mem_search_iff`).
2. So every active concept that shares a token with the question is found if and only if
   every token of the question is one of its lowercased words (`recalls_iff`).
3. This holds if and only if each word is plain, or its tokens are words of their own
   (`question_recalled_iff`). The question `which port?` does not find the page `Port`.
-/

set_option autoImplicit false

namespace Mycelium.Analysis.QuestionRecall

open Mycelium.Model.Text Mycelium.Model.Concepts Mycelium.Model.Search
open Mycelium.Model.SearchIndex Mycelium.Model.Fallback
open Mycelium.Analysis.SearchOracle Mycelium.Analysis.SearchTables
open Mycelium.Analysis.SearchRefinement Mycelium.Analysis.Tokens

variable {K : Type} [Field K] [LinearOrder K] (ln : K → K) (lower : String → String)

/-! ## Recall -/

/-- Over every history of additions, the search for the terms of the question finds every
active concept of the scope that shares a token with the question. -/
def Recalls (question : String) : Prop :=
  ∀ (ix : EncryptedIndex) (db : Tables) (hist : List Addition),
    KeysSound ix.keys → Fresh ix db →
    (∀ a ∈ hist, a.index.scopeId = ix.scopeId → a.index = ix) →
    ∀ d ∈ corpusOf [] (ofScope ix hist), isActiveStatus d.1.frontmatter.status = true →
      (∃ t ∈ tokenize lower question, t ∈ tokenize lower (searchableText d.1)) →
      ∃ r ∈ ix.search lower ln (runTables lower db hist) { terms := searchTerms question },
        r.conceptPath = d.1.sourcePath

/-- Every token of the question is one of its terms, as the index takes them. -/
def KeepsTokens (question : String) : Prop :=
  ∀ t ∈ tokenize lower question, t ∈ (searchTerms question).map lower

/-- The word is one token, or too short for one: its small letters and digits are ASCII. -/
def Plain (word : String) : Prop := ∀ c ∈ (lower word).toList, isAsciiAlphanumeric c = true

instance (word : String) : Decidable (Plain lower word) :=
  inferInstanceAs (Decidable (∀ c ∈ (lower word).toList, isAsciiAlphanumeric c = true))

/-- Each word is plain, or each of its tokens is also there as a plain word. -/
def WholeWords (question : String) : Prop :=
  ∀ word ∈ splitWhitespace question.toList, Plain lower (String.ofList word) ∨
    ∀ t ∈ tokenize lower (String.ofList word), ∃ other ∈ splitWhitespace question.toList,
      Plain lower (String.ofList other) ∧ lower (String.ofList other) = t

variable {ln lower}

/-- INTERNAL: what a search over the tables of a history finds. -/
theorem mem_search_iff {ix : EncryptedIndex} {db : Tables} {C : Corpus}
    (hkeys : KeysSound ix.keys) (h : Stores lower ix db C) {d : Concept × ℕ} (hd : d ∈ C)
    (hactive : isActiveStatus d.1.frontmatter.status = true) (terms : List String) :
    (∃ r ∈ ix.search lower ln db { terms }, r.conceptPath = d.1.sourcePath) ↔
      ∃ t ∈ terms.map lower, t ∈ tokenize lower (searchableText d.1) := by
  obtain ⟨l, hl, hperm⟩ := search_of_tables ln hkeys h { terms := terms }
  have hmem (r : SearchResult K) : r ∈ ix.search lower ln db { terms } ↔
      r ∈ hits lower ln C (C.total fun c => (toks lower c).length) .activeOnly
        (distinctTerms lower terms) := by
    rw [hl, ← hperm.mem_iff]
    exact (List.perm_insertionSort ranksBefore l).mem_iff
  have hfound (e : Concept × ℕ) : e ∈ C.found lower .activeOnly (distinctTerms lower terms) ↔
      e ∈ C ∧ visible .activeOnly e.1 = true ∧
        ∃ t ∈ terms.map lower, t ∈ tokenize lower (searchableText e.1) := by
    simp only [Corpus.found, distinctTerms, List.mem_filter, Bool.and_eq_true,
      List.any_eq_true, List.mem_eraseDups, decide_eq_true_eq]
    rfl
  constructor
  · rintro ⟨r, hr, hpath⟩
    obtain ⟨e, he, rfl⟩ := List.mem_map.mp ((hmem r).mp hr)
    obtain ⟨heC, -, hshares⟩ := (hfound e).mp he
    -- one document stands at a path
    have hsame : e = d := List.inj_on_of_nodup_map h.distinct heC hd hpath
    rw [← hsame]
    exact hshares
  · intro hshares
    have hvisible : visible .activeOnly d.1 = true := by
      simp [visible, hactive]
    refine ⟨_, (hmem _).mpr (List.mem_map_of_mem ((hfound d).mpr ⟨hd, hvisible, hshares⟩)), ?_⟩
    rfl

/-! ## One page for each token -/

/-- A page whose text is one token. -/
def tokenPage (t : String) : Concept := page "/page.md" t "" none

theorem tokenize_token (hlower : Lowers lower) {text t : String}
    (ht : t ∈ tokenize lower text) : tokenize lower t = [t] := by
  obtain ⟨hlength, hsmall⟩ := of_mem_tokenize hlower ht
  have hwhole : splitBy (fun c => !isAsciiAlphanumeric c) t.toList = [t.toList] := by
    refine splitBy_whole ?_
    intro c hc
    simp [(hsmall c hc).1]
  have hsame : lower t = t := hlower.settled t hsmall
  simp [tokenize, hsame, hwhole, hlength]

theorem tokenize_tokenPage (hlower : Lowers lower) {text t : String}
    (ht : t ∈ tokenize lower text) : tokenize lower (searchableText (tokenPage t)) = [t] := by
  have htext : searchableText (tokenPage t) = String.ofList (t.toList ++ ' ' :: []) := by
    have hparts : searchableText (tokenPage t) = t ++ "" ++ "" ++ " " ++ "" := rfl
    apply String.toList_inj.mp
    rw [hparts]
    simp
  rw [htext, tokenize_blank hlower t.toList [] rfl, tokenize_empty hlower, List.append_nil,
    String.ofList_toList]
  exact tokenize_token hlower ht

/-- INTERNAL: nothing is lost over all corpora if and only if no token is lost. -/
theorem recalls_iff (hlower : Lowers lower) (question : String) :
    Recalls ln lower question ↔ KeepsTokens lower question := by
  constructor
  · intro hrecalls t ht
    have hown : ∀ a ∈ [(⟨exampleIndex, tokenPage t, 0⟩ : Addition)],
        a.index.scopeId = exampleIndex.scopeId → a.index = exampleIndex := by
      intro a ha _
      rw [List.mem_singleton.mp ha]
    have hstores := stores_runTables _ hown
      (stores_fresh lower (fresh_empty exampleIndex))
    have hcorpus : corpusOf [] (ofScope exampleIndex [⟨exampleIndex, tokenPage t, 0⟩]) =
        [(tokenPage t, 0)] := rfl
    rw [hcorpus] at hstores
    have hmem : (tokenPage t, 0) ∈ [(tokenPage t, 0)] := List.mem_singleton_self _
    have hfound := hrecalls exampleIndex ⟨[], []⟩ _ exampleKeys_sound (fresh_empty _) hown
      (tokenPage t, 0) (by rw [hcorpus]; exact hmem) rfl
      ⟨t, ht, by simp [tokenize_tokenPage hlower ht]⟩
    obtain ⟨term, hterm, hshared⟩ :=
      (mem_search_iff exampleKeys_sound hstores hmem rfl _).mp hfound
    rw [tokenize_tokenPage hlower ht, List.mem_singleton] at hshared
    rw [← hshared]
    exact hterm
  · rintro hkeeps ix db hist hkeys hfresh hown d hd hactive ⟨t, ht, hshared⟩
    have hstores := stores_runTables hist hown (stores_fresh lower hfresh)
    apply (mem_search_iff hkeys hstores hd hactive _).mpr
    exact ⟨t, hkeeps t ht, hshared⟩

/-! ## Words -/

theorem mem_tokenize_words (hlower : Lowers lower) (question t : String) :
    t ∈ tokenize lower question ↔ ∃ word ∈ splitWhitespace question.toList,
      t ∈ tokenize lower (String.ofList word) := by
  have hwords := tokenize_words hlower question.toList
  rw [String.ofList_toList] at hwords
  rw [hwords, List.mem_flatMap]

theorem mem_terms {question : String}
    (hshort : (splitWhitespace question.toList).length ≤ maxSearchTerms) (t : String) :
    t ∈ (searchTerms question).map lower ↔
      ∃ word ∈ splitWhitespace question.toList, lower (String.ofList word) = t := by
  simp [searchTerms, List.take_of_length_le hshort]

/-- INTERNAL: the one token of a plain word is the word, lowercased. -/
theorem eq_of_mem_tokenize_plain {word t : String} (hplain : Plain lower word)
    (ht : t ∈ tokenize lower word) : lower word = t := by
  have hwhole : splitBy (fun c => !isAsciiAlphanumeric c) (lower word).toList =
      [(lower word).toList] := by
    refine splitBy_whole ?_
    intro c hc
    simp [hplain c hc]
  obtain ⟨piece, hpiece, rfl⟩ := List.mem_map.mp ht
  have hmem := (List.mem_filter.mp hpiece).1
  rw [hwhole, List.mem_singleton] at hmem
  rw [hmem, String.ofList_toList]

/-- INTERNAL: no token is lost if and only if the words are whole. -/
theorem keepsTokens_iff (hlower : Lowers lower) {question : String}
    (hshort : (splitWhitespace question.toList).length ≤ maxSearchTerms) :
    KeepsTokens lower question ↔ WholeWords lower question := by
  constructor
  · intro hkeeps word hword
    right
    intro t ht
    have hall := (mem_tokenize_words hlower question t).mpr ⟨word, hword, ht⟩
    obtain ⟨other, hother, heq⟩ := (mem_terms hshort t).mp (hkeeps t hall)
    refine ⟨other, hother, ?_, heq⟩
    intro c hc
    rw [heq] at hc
    exact ((of_mem_tokenize hlower ht).2 c hc).1
  · intro hwhole t ht
    apply (mem_terms hshort t).mpr
    obtain ⟨word, hword, hmem⟩ := (mem_tokenize_words hlower question t).mp ht
    rcases hwhole word hword with hplain | hothers
    · exact ⟨word, hword, eq_of_mem_tokenize_plain hplain hmem⟩
    · obtain ⟨other, hother, -, heq⟩ := hothers t hmem
      exact ⟨other, hother, heq⟩

/-- Let a question have at most 32 words. Its search recalls, over every corpus, every
active concept that shares a token with it, and loses no token, if and only if each of its
words is plain or has only tokens that are words of the question as well. -/
theorem question_recalled_iff (hlower : Lowers lower) (question : String)
    (hshort : (splitWhitespace question.toList).length ≤ maxSearchTerms) :
    (Recalls ln lower question ∧ KeepsTokens lower question) ↔ WholeWords lower question := by
  rw [recalls_iff hlower, and_self]
  exact keepsTokens_iff hlower hshort

theorem toLower_of_not_capital {c : Char} (h : c.toNat < 65 ∨ 90 < c.toNat) :
    c.toLower = c := by
  apply Char.toNat_inj.mp
  rw [toNat_toLower, if_neg]
  omega

theorem lowers_asciiLower : Lowers asciiLower where
  blank := by
    intro x c y hc
    have hfixed : c.toLower = c := by
      apply toLower_of_not_capital
      simp only [isWhitespace, Bool.or_eq_true, Bool.and_eq_true, decide_eq_true_eq,
        beq_iff_eq] at hc
      omega
    simp [asciiLower, hfixed]
  settled := by
    intro s hs
    apply String.toList_inj.mp
    rw [asciiLower, String.toList_ofList, List.map_congr_left fun c hc => (hs c hc).2,
      List.map_id']
  small := by
    intro s c hc
    rw [asciiLower, String.toList_ofList] at hc
    obtain ⟨d, -, rfl⟩ := List.mem_map.mp hc
    apply toLower_of_not_capital
    rw [toNat_toLower]
    split
    · omega
    · omega

theorem question_recalled_which_port :
    (Recalls Real.log asciiLower "which port" ∧ KeepsTokens asciiLower "which port") ↔
      WholeWords asciiLower "which port" :=
  question_recalled_iff lowers_asciiLower "which port" (by decide)

/-- The mark at the end of the question stays on its last word, so the page `Port` is not
found. -/
theorem port_question_loses_page :
    (splitWhitespace "which port?".toList).length ≤ maxSearchTerms ∧
      "port" ∈ tokenize asciiLower "which port?" ∧
      "port" ∈ tokenize asciiLower (searchableText (page "/port.md" "Port" "" none)) ∧
      ¬ KeepsTokens asciiLower "which port?" ∧
      ¬ ∃ r ∈ exampleIndex.search asciiLower Real.log
        (runTables asciiLower ⟨[], []⟩ [⟨exampleIndex, page "/port.md" "Port" "" none, 1⟩])
        { terms := searchTerms "which port?" }, r.conceptPath = "/port.md" := by
  refine ⟨by decide, by decide, by decide, ?_, ?_⟩
  · intro hkeeps
    exact absurd (hkeeps "port" (by decide)) (by decide)
  · intro hfound
    have hstores := stores_add (stores_fresh asciiLower (fresh_empty exampleIndex))
      (page "/port.md" "Port" "" none) 1
    have hterms := (mem_search_iff exampleKeys_sound hstores List.mem_cons_self rfl _).mp hfound
    exact absurd hterms (by decide)

end Mycelium.Analysis.QuestionRecall
