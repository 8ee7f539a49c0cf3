import Mycelium.Analysis.FallbackLanding
import Mycelium.Analysis.QuestionRecall

/-!
# Whether a correction is found

1. *The lines the indexer keeps.* `kept` is the body up to its first `# History` line;
   blanks at the end change nothing (`kept_trimEnd`), and what follows a line break is kept
   if no such line stands before it (`kept_append_newline`).
2. *The update.* Its put leaves the instruction behind the trimmed body
   (`leaves_of_updateRun`).
3. *The tokens.* The instruction is indexed whole if and only if `Findable` holds
   (`addendum_recorded_iff`); an update of a concept with a `# History` section is not found
   (`history_hides_addendum`).
-/

set_option autoImplicit false

namespace Mycelium.Analysis.AddendumRecall

open Mycelium.Model.Text Mycelium.Model.Concepts Mycelium.Model.Search
open Mycelium.Model.ConceptStore Mycelium.Model.StoreTasks Mycelium.Model.Fallback
open Mycelium.Analysis.TextLines Mycelium.Analysis.ConceptRoundTrip
open Mycelium.Analysis.CallCompletion
open Mycelium.Analysis.RestoreReversal Mycelium.Analysis.PutRoundTrip Mycelium.Analysis.Tokens
open Mycelium.Analysis.FallbackLanding (ends_put_accepted)
open Mycelium.Analysis.OrdinaryPaths (Accepts)
open Mycelium.Analysis.SearchRefinement (asciiLower)
open Mycelium.Analysis.QuestionRecall (lowers_asciiLower)
open Completion

/-! ## The lines the indexer keeps -/

def isHistory (line : List Char) : Bool := trimEnd line = "# History".toList

/-- No line of the text opens the history. -/
def HistoryFree (l : List Char) : Prop := ∀ line ∈ splitInclusive l, isHistory line = false

instance (l : List Char) : Decidable (HistoryFree l) :=
  inferInstanceAs (Decidable (∀ line ∈ splitInclusive l, isHistory line = false))

def kept (l : List Char) : List Char :=
  ((splitInclusive l).takeWhile fun line => !isHistory line).flatten

/-- The history: what the indexer leaves out. -/
def leftOut (l : List Char) : List Char :=
  ((splitInclusive l).dropWhile fun line => !isHistory line).flatten

theorem kept_append_leftOut (l : List Char) : kept l ++ leftOut l = l := by
  rw [kept, leftOut, ← List.flatten_append, List.takeWhile_append_dropWhile]
  exact flatten_splitInclusive l

theorem kept_of_free {l : List Char} (h : HistoryFree l) : kept l = l := by
  rw [kept, List.takeWhile_eq_self_iff.mpr]
  · exact flatten_splitInclusive l
  · intro line hline
    rw [h line hline]
    rfl

theorem trimEnd_concat {d : Char} (hd : isWhitespace d = true) (l : List Char) :
    trimEnd (l ++ [d]) = trimEnd l := by
  simp [trimEnd, hd]

theorem isHistory_concat {d : Char} (hd : isWhitespace d = true) (line : List Char) :
    isHistory (line ++ [d]) = isHistory line := by
  rw [isHistory, isHistory, trimEnd_concat hd]

theorem isHistory_blank {d : Char} (hd : isWhitespace d = true) : isHistory [d] = false := by
  have hempty := isHistory_concat hd []
  rw [List.nil_append] at hempty
  rw [hempty]
  rfl

theorem historyFree_concat {d : Char} (hd : isWhitespace d = true) (l : List Char) :
    HistoryFree (l ++ [d]) ↔ HistoryFree l := by
  rcases splitInclusive_concat l d with hown | ⟨lines, last, hl, hld⟩
  · simp [HistoryFree, hown, isHistory_blank hd, or_imp, forall_and]
  · simp [HistoryFree, hl, hld, isHistory_concat hd, or_imp, forall_and]

/-- INTERNAL: nothing behind the history is looked at. -/
theorem takeWhile_append_of_history {lines : List (List Char)}
    (h : ¬ ∀ line ∈ lines, isHistory line = false) (rest : List (List Char)) :
    (lines ++ rest).takeWhile (fun line => !isHistory line) =
      lines.takeWhile fun line => !isHistory line := by
  rw [List.takeWhile_append, if_neg]
  intro hlength
  apply h
  intro line hline
  have hall := List.takeWhile_eq_self_iff.mp
    ((List.takeWhile_prefix (fun line => !isHistory line)).eq_of_length hlength)
  simpa using hall line hline

/-- INTERNAL: a blank behind the history is left out. -/
theorem kept_concat {d : Char} (hd : isWhitespace d = true) {l : List Char}
    (h : ¬ HistoryFree l) : kept (l ++ [d]) = kept l := by
  rcases splitInclusive_concat l d with hown | ⟨lines, last, hl, hld⟩
  · rw [kept, hown, takeWhile_append_of_history h]
    rfl
  · rw [kept, kept, hl, hld]
    by_cases hlines : ∀ line ∈ lines, isHistory line = false
    · -- then the last line opens it
      have hlast : isHistory last = true := by
        by_contra hlast
        apply h
        intro line hline
        rw [hl] at hline
        rcases List.mem_append.mp hline with hline | hline
        · exact hlines line hline
        · rw [List.mem_singleton.mp hline]
          exact eq_false_of_ne_true hlast
      have hall : ∀ line ∈ lines, (!isHistory line) = true := by
        intro line hline
        rw [hlines line hline]
        rfl
      rw [List.takeWhile_append_of_pos hall, List.takeWhile_append_of_pos hall]
      simp [isHistory_concat hd, hlast]
    · rw [takeWhile_append_of_history hlines, takeWhile_append_of_history hlines]

/-- INTERNAL: a text is its trimmed part and blanks. -/
theorem exists_blanks (l : List Char) :
    ∃ blanks, l = trimEnd l ++ blanks ∧ ∀ d ∈ blanks, isWhitespace d = true := by
  refine ⟨l.rtakeWhile isWhitespace, (List.rdropWhile_append_rtakeWhile ..).symm, ?_⟩
  intro d hd
  exact List.mem_rtakeWhile_imp hd

theorem historyFree_blanks {blanks : List Char} (hblanks : ∀ d ∈ blanks, isWhitespace d = true)
    (l : List Char) : HistoryFree (l ++ blanks) ↔ HistoryFree l := by
  induction blanks generalizing l with
  | nil => rw [List.append_nil]
  | cons d blanks ih =>
    rw [List.append_cons, ih (fun e he => hblanks e (List.mem_cons_of_mem d he)) (l ++ [d])]
    exact historyFree_concat (hblanks d List.mem_cons_self) l

theorem kept_blanks {blanks : List Char} (hblanks : ∀ d ∈ blanks, isWhitespace d = true)
    {l : List Char} (h : ¬ HistoryFree l) : kept (l ++ blanks) = kept l := by
  induction blanks generalizing l with
  | nil => rw [List.append_nil]
  | cons d blanks ih =>
    have hd := hblanks d List.mem_cons_self
    rw [List.append_cons, ih (fun e he => hblanks e (List.mem_cons_of_mem d he))
      (mt (historyFree_concat hd l).mp h)]
    exact kept_concat hd h

theorem historyFree_trimEnd (l : List Char) : HistoryFree (trimEnd l) ↔ HistoryFree l := by
  obtain ⟨blanks, hl, hblanks⟩ := exists_blanks l
  have hsame := historyFree_blanks hblanks (trimEnd l)
  rw [← hl] at hsame
  exact hsame.symm

theorem kept_trimEnd {l : List Char} (h : ¬ HistoryFree l) : kept (trimEnd l) = kept l := by
  obtain ⟨blanks, hl, hblanks⟩ := exists_blanks l
  have hsame := kept_blanks hblanks (mt (historyFree_trimEnd l).mp h)
  rw [← hl] at hsame
  exact hsame.symm

theorem historyFree_append_newline (l rest : List Char) :
    HistoryFree (l ++ '\n' :: rest) ↔ HistoryFree l ∧ HistoryFree rest := by
  rw [← historyFree_concat (d := '\n') rfl l]
  simp [HistoryFree, splitInclusive_append l rest, or_imp, forall_and]

/-- INTERNAL: what the indexer keeps of a text behind a line break. -/
theorem kept_append_newline (l rest : List Char) :
    kept (l ++ '\n' :: rest) = if HistoryFree l then l ++ '\n' :: kept rest else kept l := by
  split
  · rename_i hfree
    have hlines : ∀ line ∈ splitInclusive (l ++ ['\n']), (!isHistory line) = true := by
      intro line hline
      rw [(historyFree_concat (d := '\n') rfl l).mpr hfree line hline]
      rfl
    rw [kept, splitInclusive_append l rest, List.takeWhile_append_of_pos hlines,
      List.flatten_append, flatten_splitInclusive, List.append_assoc]
    rfl
  · rename_i hhistory
    -- the history has begun when the rest comes
    have hnewline := mt (historyFree_concat (d := '\n') rfl l).mp hhistory
    rw [← kept_concat (d := '\n') rfl hhistory, kept, kept, splitInclusive_append l rest,
      takeWhile_append_of_history hnewline]

/-! ## Line ends -/

theorem crlfToLf_line {x : List Char} (hx : '\n' ∉ x) : crlfToLf x = x := by
  fun_induction crlfToLf x with
  | case1 x ih => simp at hx
  | case2 c x _ ih => rw [ih fun h => hx (List.mem_cons_of_mem c h)]
  | case3 => rfl

theorem trimEnd_cons_congr (c : Char) {x y : List Char} (h : trimEnd x = trimEnd y) :
    trimEnd (c :: x) = trimEnd (c :: y) := by
  have hdropped := List.reverse_inj.mp h
  simp only [trimEnd, List.rdropWhile, List.reverse_cons, List.dropWhile_append, hdropped]

/-- INTERNAL: the carriage return of a line end is a blank. -/
theorem trimEnd_crlfToLf {x : List Char} (hx : '\n' ∉ x) :
    trimEnd (crlfToLf (x ++ ['\n'])) = trimEnd x := by
  induction x with
  | nil => rfl
  | cons c x ih =>
    have hc : c ≠ '\n' := by
      rintro rfl
      exact hx List.mem_cons_self
    have hrest : '\n' ∉ x := fun h => hx (List.mem_cons_of_mem c h)
    cases x with
    | nil =>
      by_cases hreturn : c = '\r'
      · subst hreturn
        rfl
      · have hkept : crlfToLf ([c] ++ ['\n']) = [c] ++ ['\n'] := by
          simp [crlfToLf, hreturn]
        rw [hkept]
        exact trimEnd_concat rfl [c]
    | cons d x =>
      have hd : d ≠ '\n' := by
        rintro rfl
        exact hrest List.mem_cons_self
      have hkept : crlfToLf (c :: d :: x ++ ['\n']) = c :: crlfToLf (d :: x ++ ['\n']) := by
        rw [List.cons_append, crlfToLf]
        rintro rest rfl heq
        exact hd (List.cons.inj heq).1
      rw [hkept]
      exact trimEnd_cons_congr c (ih hrest)

theorem isHistory_crlfToLf {l line : List Char} (h : line ∈ splitInclusive l) :
    isHistory (crlfToLf line) = isHistory line := by
  obtain ⟨x, hx, rfl | rfl⟩ := line_shape h
  · rw [crlfToLf_line hx]
  · rw [isHistory_concat (d := '\n') rfl, isHistory, isHistory, trimEnd_crlfToLf hx]

theorem takeWhile_congr {α : Type} {p q : α → Bool} {l : List α} (h : ∀ a ∈ l, p a = q a) :
    l.takeWhile p = l.takeWhile q := by
  induction l with
  | nil => rfl
  | cons a l ih =>
    rw [List.takeWhile_cons, List.takeWhile_cons, h a List.mem_cons_self,
      ih fun b hb => h b (List.mem_cons_of_mem a hb)]

/-- INTERNAL: line ends do not change what is kept. -/
theorem kept_crlfToLf (l : List Char) : kept (crlfToLf l) = crlfToLf (kept l) := by
  have hlines : splitInclusive (kept l) =
      (splitInclusive l).takeWhile fun line => !isHistory line := by
    apply splitInclusive_flatten
    exact (List.takeWhile_append_dropWhile ..).symm
  have hsame : (splitInclusive l).takeWhile ((fun line => !isHistory line) ∘ crlfToLf) =
      (splitInclusive l).takeWhile fun line => !isHistory line := by
    apply takeWhile_congr
    intro line hline
    rw [Function.comp_apply, isHistory_crlfToLf hline]
  rw [← flatten_splitInclusive (crlfToLf (kept l)), splitInclusive_crlfToLf, hlines, kept,
    splitInclusive_crlfToLf, List.takeWhile_map, hsame]

/-! ## Tokens -/

variable {lower : String → String}

/-- The tokens of a text, in the characters of the text. -/
def tokensOf (lower : String → String) (l : List Char) : List String :=
  tokenize lower (String.ofList l)

theorem tokensOf_append_blanks (hlower : Lowers lower) {blanks : List Char}
    (hblanks : ∀ d ∈ blanks, isWhitespace d = true) (l : List Char) :
    tokensOf lower (l ++ blanks) = tokensOf lower l := by
  cases blanks with
  | nil => rw [List.append_nil]
  | cons d blanks =>
    have hrest : ∀ e ∈ blanks, isWhitespace e = true :=
      fun e he => hblanks e (List.mem_cons_of_mem d he)
    have hnone : tokensOf lower ([] ++ blanks) = tokensOf lower [] :=
      tokensOf_append_blanks hlower hrest []
    have hempty : tokensOf lower [] = [] := tokenize_empty hlower
    rw [List.nil_append, hempty] at hnone
    have hsplit : tokensOf lower (l ++ d :: blanks) = tokensOf lower l ++ tokensOf lower blanks :=
      tokenize_blank hlower l blanks (hblanks d List.mem_cons_self)
    rw [hsplit, hnone, List.append_nil]

theorem tokensOf_trimEnd (hlower : Lowers lower) (l : List Char) :
    tokensOf lower (trimEnd l) = tokensOf lower l := by
  obtain ⟨blanks, hl, hblanks⟩ := exists_blanks l
  have hsame := tokensOf_append_blanks hlower hblanks (trimEnd l)
  rw [← hl] at hsame
  exact hsame.symm

theorem tokensOf_crlfToLf (hlower : Lowers lower) (l : List Char) :
    tokensOf lower (crlfToLf l) = tokensOf lower l := by
  rcases split_first isWhitespace l with hall | ⟨x, c, y, rfl, hc, hx⟩
  · have hsame : crlfToLf (l ++ []) = l ++ crlfToLf [] := by
      apply crlfToLf_append
      intro hreturn
      exact absurd (hall '\r' hreturn) (by decide)
    rw [List.append_nil] at hsame
    rw [hsame]
    simp [crlfToLf]
  · have hreturn : '\r' ∉ x := by
      intro hmem
      exact absurd (hx '\r' hmem) (by decide)
    have hblank (z : List Char) {d : Char} (hd : isWhitespace d = true) (w : List Char) :
        tokensOf lower (z ++ d :: w) = tokensOf lower z ++ tokensOf lower w :=
      tokenize_blank hlower z w hd
    rw [crlfToLf_append hreturn, hblank x hc y]
    by_cases hcrlf : ∃ z, c = '\r' ∧ y = '\n' :: z
    · obtain ⟨z, rfl, rfl⟩ := hcrlf
      have hempty : tokensOf lower [] = [] := tokenize_empty hlower
      have hfeed := hblank [] (d := '\n') rfl z
      rw [List.nil_append, hempty, List.nil_append] at hfeed
      rw [crlfToLf, hblank x rfl, tokensOf_crlfToLf hlower z, hfeed]
    · have hkept : crlfToLf (c :: y) = c :: crlfToLf y := by
        rw [crlfToLf]
        rintro z rfl rfl
        exact hcrlf ⟨z, rfl, rfl⟩
      rw [hkept, hblank x hc, tokensOf_crlfToLf hlower y]
termination_by l.length

/-- What the indexer puts before the body. -/
def front (c : Concept) : String :=
  titleOf c ++
    (match c.frontmatter.description with
      | some d => " " ++ d
      | none => "") ++
    c.frontmatter.tags.foldl (fun text tag => text ++ " " ++ tag) ""

theorem tokenize_searchableText (hlower : Lowers lower) (c : Concept) :
    tokenize lower (searchableText c) =
      tokenize lower (front c) ++ tokensOf lower (kept c.body.toList) := by
  have htext : searchableText c = String.ofList ((front c).toList ++ ' ' :: kept c.body.toList) := by
    apply String.toList_inj.mp
    rw [searchableText, front, kept]
    simp only [isHistory, decide_not, String.toList_append, String.toList_ofList,
      List.append_assoc]
    rfl
  rw [htext, tokenize_blank hlower _ _ (by decide), String.ofList_toList]
  rfl

/-- INTERNAL: a concept is indexed the same when it is read back. -/
theorem tokenize_readBack (hlower : Lowers lower) (c : Concept) :
    tokenize lower (searchableText (readBack c)) = tokenize lower (searchableText c) := by
  rw [tokenize_searchableText hlower, tokenize_searchableText hlower]
  have hbody : (readBack c).body.toList = crlfToLf c.body.toList := String.toList_ofList
  rw [hbody, kept_crlfToLf, tokensOf_crlfToLf hlower]
  rfl

/-! ## The update -/

variable {cx : Codec} {h : Handle} {instruction : String}

def advance (cx : Codec) (h : Handle) (instruction : String) (x : UpdateState) (ch : Choice) :
    UpdateState where
  store := (updateStep cx h instruction x.store ch x.point).1
  point := (updateStep cx h instruction x.store ch x.point).2

def outcomeOf (x : UpdateState) : Option (Except StoreError String) :=
  match x.point with
  | .returned r => some r
  | _ => none

theorem advance_of_outcome (x : UpdateState) (ch : Choice) (r : Except StoreError String)
    (hr : outcomeOf x = some r) : advance cx h instruction x ch = x := by
  obtain ⟨s, point⟩ := x
  cases point with
  | returned r => rfl
  | _ => cases hr

/-- The concept with the addendum is in the index and in its file. -/
def Leaves (cx : Codec) (h : Handle) (instruction stamp : String) (c : Concept) (t : Store) : Prop :=
  ∃ now, t.index c.sourcePath = some (stampedConcept h now (addendum instruction stamp c)) ∧
    t.get cx c.sourcePath = .ok (readBack (stampedConcept h now (addendum instruction stamp c)))

/-- INTERNAL: a put inside an update. -/
theorem completes_putting {post : UpdateState → Except StoreError String → Prop} {s : Store}
    {path : String} {pc : Pc}
    (hends : Ends cx (fun t x => post { store := t, point := .returned (x.map fun _ => path) }
      (x.map fun _ => path)) s pc) :
    Completes (advance cx h instruction) outcomeOf (Clocked cx) post
      { store := s, point := .putting path pc } := by
  apply hends.embed (fun r => ({ store := r.1, point := .putting path r.2 } : UpdateState))
  · intro r _
    rfl
  · rintro ⟨t, pc⟩ ch hpc
    cases pc with
    | finished x => cases hpc
    | _ => rfl
  · rintro ⟨t, pc⟩ r hpc hpost
    cases pc with
    | finished x =>
      cases hpc
      apply Completes.step rfl
      intro ch _
      cases r with
      | ok u => exact .done rfl hpost
      | error e => exact .done rfl hpost
    | _ => cases hpc

/-- INTERNAL: a concept that was read is at its path and has a type. -/
theorem get_eq_ok {s : Store} {path : String} {c : Concept} (hget : s.get cx path = .ok c) :
    c.sourcePath = path ∧ (trim c.frontmatter.conceptType.toList).isEmpty = false := by
  unfold Store.get at hget
  split at hget
  · cases hget
  · cases hget
  · cases hparse : Concept.parse cx path _ with
    | error e =>
      rw [hparse] at hget
      cases hget
    | ok d =>
      rw [hparse] at hget
      cases hget
      exact parse_eq_ok hparse

/-- INTERNAL: what an update that has read a concept ends with. -/
theorem completes_reading (hcx : Faithful cx) {s : Store} {path : String} {c : Concept}
    (hget : s.get cx path = .ok c) {ch : Choice} (hch : Clocked cx ch) :
    Completes (advance cx h instruction) outcomeOf (Clocked cx)
      (fun x r => ∀ p, r = .ok p → p = path ∧ Leaves cx h instruction (ch.clock 0) c x.store)
      (advance cx h instruction { store := s, point := .reading path } ch) := by
  obtain ⟨hpath, htype⟩ := get_eq_ok hget
  have hnext : advance cx h instruction { store := s, point := .reading path } ch =
      { store := s
        point := .putting path ((Call.put (addendum instruction (ch.clock 0) c)).begin cx h
          fun i => ch.clock (i + 1)) } := by
    simp only [advance, updateStep, hget]
  rw [hnext]
  apply completes_putting
  apply ends_put_or_fails
  · intro t e p hp
    cases hp
  · intro s' markdown hvalid hreserved hmarkdown hput p hp
    have hpath' : path = p := Except.ok.inj hp
    refine ⟨hpath'.symm, ch.clock 1, ?_, ?_⟩
    · rw [(regenerated_fields s' none).2.1, hput.index]
      exact if_pos rfl
    · refine (get_of_put hcx (hch 1) hvalid hreserved hmarkdown hput).trans (if_neg ?_)
      exact Bool.eq_false_iff.mp htype

/-- INTERNAL: what an update leaves that has returned a path where a concept was. -/
theorem leaves_of_updateRun (hcx : Faithful cx) {s t : Store} {pathHint : Option String}
    {hits : List String} {path : String} {c : Concept} (hget : s.get cx path = .ok c)
    {ch : Choice} {chs : List Choice} (hch : Clocked cx ch) (hchs : ∀ ch ∈ chs, Clocked cx ch)
    (hrun : (ch :: chs).foldl (advance cx h instruction) (UpdateState.begin s pathHint hits) =
      { store := t, point := .returned (.ok path) }) :
    Leaves cx h instruction (ch.clock 0) c t := by
  have herror {e : StoreError} (chs : List Choice) :
      chs.foldl (advance cx h instruction) { store := s, point := .returned (.error e) } ≠
        { store := t, point := .returned (.ok path) } := by
    rw [foldl_of_result advance_of_outcome (r := .error e) rfl chs]
    intro heq
    cases heq
  cases htarget : updateTarget pathHint hits with
  | error e =>
    simp only [UpdateState.begin, htarget] at hrun
    exact absurd hrun (herror _)
  | ok target =>
    simp only [UpdateState.begin, htarget] at hrun
    rw [List.foldl_cons] at hrun
    cases hread : s.get cx target with
    | error e =>
      have hnext : advance cx h instruction { store := s, point := .reading target } ch =
          { store := s, point := .returned (.error e) } := by
        simp only [advance, updateStep, hread]
      rw [hnext] at hrun
      exact absurd hrun (herror chs)
    | ok d =>
      have hend := (completes_reading hcx hread hch).post_of_run advance_of_outcome hchs
        (r := .ok path) (by rw [hrun]; rfl)
      rw [hrun] at hend
      obtain ⟨rfl, hleaves⟩ := hend path rfl
      rw [hget] at hread
      cases hread
      exact hleaves

/-! ## The correction in the index -/

/-- The instruction stands behind the trimmed old body, in the index as in the file, and each
of its tokens is indexed. -/
structure Recorded (cx : Codec) (lower : String → String) (c : Concept) (instruction : String)
    (t : Store) : Prop where
  follows : ∃ stored between, t.index c.sourcePath = some stored ∧
    t.get cx c.sourcePath = .ok (readBack stored) ∧
    stored.body.toList = trimEnd c.body.toList ++ between ++ instruction.toList ++ ['\n']
  indexed : ∀ stored, t.index c.sourcePath = some stored ∨ t.get cx c.sourcePath = .ok stored →
    ∀ token ∈ tokenize lower instruction, token ∈ tokenize lower (searchableText stored)

/-- If the body has a history, the tokens of the instruction are indexed already. If only the
instruction has one, the tokens in its history stand in what is indexed before it. -/
def Findable (lower : String → String) (c : Concept) (instruction stamp : String) : Prop :=
  if HistoryFree c.body.toList then
    ∀ token ∈ tokensOf lower (leftOut instruction.toList),
      token ∈ tokenize lower (searchableText c) ∨ token ∈ tokenize lower (updateMarker stamp) ∨
        token ∈ tokensOf lower (kept instruction.toList)
  else ∀ token ∈ tokenize lower instruction, token ∈ tokenize lower (searchableText c)

/-- INTERNAL: the body of an addendum, behind its first line break. -/
theorem body_addendum (stamp : String) (c : Concept) :
    (addendum instruction stamp c).body.toList = trimEnd c.body.toList ++ '\n' :: ([] ++ '\n' ::
      ((updateMarker stamp).toList ++ '\n' :: (instruction.toList ++ '\n' :: []))) := by
  simp [addendum]

theorem marker_free {stamp : String} (hline : '\n' ∉ stamp.toList) :
    HistoryFree (updateMarker stamp).toList := by
  have hchars : (updateMarker stamp).toList =
      "<!-- mycelium2:update:".toList ++ stamp.toList ++ " -->".toList := by
    unfold updateMarker
    rw [String.toList_append, String.toList_append]
  have hone : ∀ c ∈ (updateMarker stamp).toList, c ≠ '\n' := by
    rintro c hc rfl
    rw [hchars] at hc
    rcases List.mem_append.mp hc with hc | hc
    · rcases List.mem_append.mp hc with hc | hc
      · exact absurd hc (by decide)
      · exact hline hc
    · exact absurd hc (by decide)
  rw [← historyFree_concat (d := '\n') rfl, HistoryFree, splitInclusive_line hone]
  intro line hmem
  rw [List.mem_singleton.mp hmem, isHistory_concat (d := '\n') rfl]
  apply decide_eq_false
  intro htrim
  -- the text begins with another character
  obtain ⟨blanks, hshape, -⟩ := exists_blanks (updateMarker stamp).toList
  have hopen : "<!-- mycelium2:update:".toList = '<' :: "!-- mycelium2:update:".toList := by decide
  have hheading : "# History".toList = '#' :: " History".toList := by decide
  rw [htrim, hchars, hopen, hheading] at hshape
  simp only [List.cons_append, List.cons.injEq] at hshape
  exact absurd hshape.1 (by decide)

/-- INTERNAL: the tokens of a text with a line break in it. -/
theorem tokensOf_newline (hlower : Lowers lower) (x y : List Char) :
    tokensOf lower (x ++ '\n' :: y) = tokensOf lower x ++ tokensOf lower y :=
  tokenize_blank hlower x y rfl

/-- INTERNAL: an instruction has the tokens before its history and those in it. -/
theorem mem_tokensOf_kept (hlower : Lowers lower) (l : List Char) (token : String) :
    token ∈ tokensOf lower l ↔
      token ∈ tokensOf lower (kept l) ∨ token ∈ tokensOf lower (leftOut l) := by
  have hempty : tokensOf lower [] = [] := tokenize_empty hlower
  have hsplit := kept_append_leftOut l
  have hlines : (splitInclusive l).takeWhile (fun line => !isHistory line) ++
      (splitInclusive l).dropWhile (fun line => !isHistory line) = splitInclusive l :=
    List.takeWhile_append_dropWhile ..
  cases hrest : (splitInclusive l).dropWhile fun line => !isHistory line with
  | nil =>
    have hnone : leftOut l = [] := by
      rw [leftOut, hrest]
      rfl
    rw [hnone, List.append_nil] at hsplit
    rw [hnone, hempty, hsplit]
    simp
  | cons line after =>
    rw [hrest] at hlines
    rcases flatten_before hlines.symm with hnil | ⟨x, hx⟩
    · have hnone : kept l = [] := by
        rw [kept, hnil]
        rfl
      rw [hnone, List.nil_append] at hsplit
      rw [hnone, hempty, hsplit]
      simp
    · have hkept : kept l = x ++ '\n' :: [] := hx
      rw [hkept, List.append_assoc] at hsplit
      have hwhole : tokensOf lower l = tokensOf lower x ++ tokensOf lower (leftOut l) := by
        rw [← tokensOf_newline hlower]
        exact congrArg _ hsplit.symm
      rw [hwhole, hkept, tokensOf_newline hlower, hempty, List.append_nil, List.mem_append]

/-- INTERNAL: the tokens indexed for a concept with an addendum. -/
theorem mem_searchableText_addendum (hlower : Lowers lower) {stamp : String}
    (hline : '\n' ∉ stamp.toList) (h : Handle) (now : String) (c : Concept) (token : String) :
    token ∈ tokenize lower (searchableText (stampedConcept h now (addendum instruction stamp c))) ↔
      token ∈ tokenize lower (searchableText c) ∨
        (HistoryFree c.body.toList ∧ (token ∈ tokenize lower (updateMarker stamp) ∨
          token ∈ tokensOf lower (kept instruction.toList))) := by
  have hfront : front (stampedConcept h now (addendum instruction stamp c)) = front c := rfl
  have hbody : (stampedConcept h now (addendum instruction stamp c)).body =
      (addendum instruction stamp c).body := rfl
  rw [tokenize_searchableText hlower, tokenize_searchableText hlower, hfront, hbody,
    body_addendum]
  have hempty : tokensOf lower [] = [] := tokenize_empty hlower
  by_cases hfree : HistoryFree c.body.toList
  · -- the old body is kept, and the instruction up to its own history
    have hinstruction : tokensOf lower (kept (instruction.toList ++ '\n' :: [])) =
        tokensOf lower (kept instruction.toList) := by
      rw [kept_append_newline]
      split
      · rename_i hinstruction
        rw [tokensOf_newline hlower, kept_of_free hinstruction]
        simp [kept, splitInclusive, hempty]
      · rfl
    have hmarker : tokensOf lower (updateMarker stamp).toList =
        tokenize lower (updateMarker stamp) := by
      rw [tokensOf, String.ofList_toList]
    rw [kept_append_newline, if_pos ((historyFree_trimEnd _).mpr hfree), kept_append_newline,
      if_pos (by simp [HistoryFree, splitInclusive]), kept_append_newline,
      if_pos (marker_free hline), tokensOf_newline hlower, tokensOf_newline hlower,
      tokensOf_newline hlower, hinstruction, hmarker, hempty, tokensOf_trimEnd hlower,
      kept_of_free hfree]
    simp [hfree, or_assoc]
  · rw [kept_append_newline, if_neg (mt (historyFree_trimEnd _).mp hfree), kept_trimEnd hfree]
    simp [hfree]

/-- **The exact condition.** Let an update return the path of a concept that was there. The
concept stored then begins with the trimmed old body, the instruction follows, and all tokens
of the instruction are indexed, if and only if the correction is findable. The time of the
clock is one line. SOURCE: fallback.rs:72-111, search.rs:103-133 -/
theorem addendum_recorded_iff (hcx : Faithful cx) (hlower : Lowers lower) {s t : Store}
    {pathHint : Option String} {hits : List String} {path : String} {c : Concept}
    (hget : s.get cx path = .ok c) {ch : Choice} {chs : List Choice} (hch : Clocked cx ch)
    (hchs : ∀ ch ∈ chs, Clocked cx ch) (hline : '\n' ∉ (ch.clock 0).toList)
    (hrun : (ch :: chs).foldl (advance cx h instruction) (UpdateState.begin s pathHint hits) =
      { store := t, point := .returned (.ok path) }) :
    Recorded cx lower c instruction t ↔ Findable lower c instruction (ch.clock 0) := by
  obtain ⟨now, hindex, hread⟩ := leaves_of_updateRun hcx hget hch hchs hrun
  have hfollows : (stampedConcept h now (addendum instruction (ch.clock 0) c)).body.toList =
      trimEnd c.body.toList ++ ('\n' :: '\n' :: ((updateMarker (ch.clock 0)).toList ++ ['\n'])) ++
        instruction.toList ++ ['\n'] := by
    show (addendum instruction (ch.clock 0) c).body.toList = _
    rw [body_addendum]
    simp
  have hindexed : Recorded cx lower c instruction t ↔ ∀ token ∈ tokenize lower instruction,
      token ∈ tokenize lower
        (searchableText (stampedConcept h now (addendum instruction (ch.clock 0) c))) := by
    constructor
    · intro hrecorded
      exact hrecorded.indexed _ (.inl hindex)
    · intro hall
      refine ⟨⟨_, _, hindex, hread, hfollows⟩, ?_⟩
      rintro stored (hstored | hstored) token htoken
      · rw [hindex] at hstored
        cases hstored
        exact hall token htoken
      · rw [hread] at hstored
        cases hstored
        rw [tokenize_readBack hlower]
        exact hall token htoken
  rw [hindexed]
  have hwhole (token : String) : token ∈ tokenize lower instruction ↔
      token ∈ tokensOf lower (kept instruction.toList) ∨
        token ∈ tokensOf lower (leftOut instruction.toList) := by
    rw [← mem_tokensOf_kept hlower, tokensOf, String.ofList_toList]
  simp only [mem_searchableText_addendum hlower hline]
  unfold Findable
  split
  · rename_i hfree
    constructor
    · intro hall token htoken
      have hmem := hall token ((hwhole token).mpr (.inr htoken))
      simpa [hfree] using hmem
    · intro hall token htoken
      rcases (hwhole token).mp htoken with hkept | hleft
      · exact .inr ⟨hfree, .inr hkept⟩
      · rcases hall token hleft with hold | hnew
        · exact .inl hold
        · exact .inr ⟨hfree, hnew⟩
  · rename_i hhistory
    simp [hhistory]

/-! ## Updates that return -/

theorem exists_returned {x : UpdateState} {r : Except StoreError String}
    (hr : outcomeOf x = some r) : ∃ t, x = { store := t, point := .returned r } := by
  obtain ⟨t, point⟩ := x
  cases point with
  | returned r' =>
    cases hr
    exact ⟨t, rfl⟩
  | _ => cases hr

/-- An update of a concept that a put accepts returns its path. -/
theorem exists_updateRun (hcx : Faithful cx) {s : Store} {path : String} {c : Concept}
    (hget : s.get cx path = .ok c) (hhint : canonical path = path)
    (hvalid : validPath path = true) (haccepts : Accepts path)
    (hfrontmatter : c.frontmatter.validated cx = .ok ()) (hop : h.revisionOp = none)
    (hentries : ∀ e ∈ s.registry, validPath e.path = true) {ch : Choice} (hch : Clocked cx ch) :
    ∃ n t, (ch :: List.replicate n ch).foldl (advance cx h instruction)
      (UpdateState.begin s (some path) []) = { store := t, point := .returned (.ok path) } := by
  obtain ⟨rfl, -⟩ := get_eq_ok hget
  have hends : Completes (advance cx h instruction) outcomeOf (Clocked cx)
      (fun _ r => r = .ok c.sourcePath)
      (advance cx h instruction (UpdateState.begin s (some c.sourcePath) []) ch) := by
    simp only [UpdateState.begin, updateTarget, hhint, advance, updateStep, hget]
    apply completes_putting
    apply ends_put_accepted (c := addendum instruction (ch.clock 0) c) hcx (hch 1) hvalid haccepts
      hfrontmatter hop hentries
    intro s' markdown _ _
    rfl
  obtain ⟨n, r, hresult, hpost⟩ := hends.exists_result (fun _ => ch) fun _ => hch
  have hchoices : (List.range n).map (fun _ => ch) = List.replicate n ch := by
    rw [List.map_const', List.length_range]
  rw [hchoices] at hresult
  obtain ⟨t, hend⟩ := exists_returned hresult
  refine ⟨n, t, ?_⟩
  rw [List.foldl_cons, hend, hpost]

/-- A store with one note. -/
def noteStore (body : String) : Store :=
  { Store.empty "user:1" with
    files := fun q =>
      if q = "/port.md" then some ("---\n" ++ noteYaml ++ "---\n" ++ body) else none }

def oldNote (body : String) : Concept where
  frontmatter := noteFrontmatter
  body := body
  sourcePath := "/port.md"

/-- INTERNAL: an update of the note returns. -/
theorem exists_noteRun {body : String}
    (hget : (noteStore body).get noteCodec "/port.md" = .ok (oldNote body)) :
    ∃ n t, (noteChoice :: List.replicate n noteChoice).foldl
      (advance noteCodec {} "It is 9090.")
      (UpdateState.begin (noteStore body) (some "/port.md") []) =
        { store := t, point := .returned (.ok "/port.md") } := by
  apply exists_updateRun faithful_noteCodec hget
  · decide
  · decide
  · exact ⟨by decide, by decide⟩
  · rfl
  · rfl
  · simp [noteStore, Store.empty]
  · exact noteChoice_clocked

theorem clocked_replicate (n : ℕ) : ∀ ch ∈ List.replicate n noteChoice, Clocked noteCodec ch := by
  intro ch hch
  rw [List.eq_of_mem_replicate hch]
  exact noteChoice_clocked

theorem addendum_recorded_note :
    ∃ n t, (noteChoice :: List.replicate n noteChoice).foldl
        (advance noteCodec {} "It is 9090.")
        (UpdateState.begin (noteStore "8080\n") (some "/port.md") []) =
          { store := t, point := .returned (.ok "/port.md") } ∧
      (Recorded noteCodec asciiLower (oldNote "8080\n") "It is 9090." t ↔
        Findable asciiLower (oldNote "8080\n") "It is 9090." (noteChoice.clock 0)) := by
  have hget : (noteStore "8080\n").get noteCodec "/port.md" = .ok (oldNote "8080\n") := by decide
  obtain ⟨n, t, hrun⟩ := exists_noteRun hget
  have hline : '\n' ∉ (noteChoice.clock 0).toList := by decide
  refine ⟨n, t, hrun, ?_⟩
  exact addendum_recorded_iff faithful_noteCodec lowers_asciiLower hget noteChoice_clocked
    (clocked_replicate n) hline hrun

/-- The note has a history, and the correction goes behind it. -/
theorem history_hides_addendum :
    ¬ ∀ (cx : Codec) (lower : String → String) (h : Handle) (s t : Store)
      (pathHint : Option String) (hits : List String) (path instruction : String) (c : Concept)
      (ch : Choice) (chs : List Choice), Faithful cx → Lowers lower →
      (trim instruction.toList).isEmpty = false → s.get cx path = .ok c →
      Clocked cx ch → (∀ ch ∈ chs, Clocked cx ch) →
      (ch :: chs).foldl (advance cx h instruction) (UpdateState.begin s pathHint hits) =
        { store := t, point := .returned (.ok path) } →
      Recorded cx lower c instruction t := by
  intro hall
  have hget : (noteStore "# History\n").get noteCodec "/port.md" = .ok (oldNote "# History\n") := by
    decide
  obtain ⟨n, t, hrun⟩ := exists_noteRun hget
  have hrecorded := hall noteCodec asciiLower {} _ t (some "/port.md") [] "/port.md"
    "It is 9090." _ noteChoice _ faithful_noteCodec lowers_asciiLower (by decide) hget
    noteChoice_clocked (clocked_replicate n) hrun
  obtain ⟨now, hindex, -⟩ := leaves_of_updateRun faithful_noteCodec hget noteChoice_clocked
    (clocked_replicate n) hrun
  have hfound := hrecorded.indexed _ (.inl hindex) "9090" (by decide)
  have hline : '\n' ∉ (noteChoice.clock 0).toList := by decide
  rw [mem_searchableText_addendum lowers_asciiLower hline] at hfound
  rcases hfound with hold | ⟨hfree, -⟩
  · exact absurd hold (by decide)
  · exact absurd hfree (by decide)

end Mycelium.Analysis.AddendumRecall
