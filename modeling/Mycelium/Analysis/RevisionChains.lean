import Mathlib.Data.List.Intervals
import Mycelium.Lib.FoldMax
import Mycelium.Lib.StepSystem
import Mycelium.Model.RevisionTable

/-!
# The shape of a revision chain

Numbers are handed out at one end of a chain, as the maximum plus one, and rows are
deleted at the other end, up to a cutoff. So the stored numbers of a chain are an interval
that ends at the last number handed out (`Block`), whatever the retention was when; the
maximum is that number, and numbers never come back. The interval is never empty once a
number was handed out, since the retention is positive.
-/

set_option autoImplicit false

namespace Mycelium.Analysis.RevisionChains

open StepSystem FoldMax
open Mycelium.Model.Revisions (RevisionOp clampRetention clampRetention_pos retentionCutoff)
open Mycelium.Model.RevisionTable

/-! ## Intervals -/

/-- The numbers of a chain: the interval from `lo` to `top`, of which `lo` is 1 or more, and
not empty when a number was handed out. -/
def Block (l : List ℕ) (top : ℕ) : Prop :=
  ∃ lo, l = List.Ico lo (top + 1) ∧ 1 ≤ lo ∧ lo ≤ top + 1 ∧ (top = 0 ∨ lo ≤ top)

theorem block_nil : Block [] 0 := ⟨1, by simp, Nat.le_refl 1, Nat.le_refl 1, Or.inl rfl⟩

/-- INTERNAL: the maximum of a block is its top. -/
theorem Block.foldl_max {l : List ℕ} {top : ℕ} (h : Block l top) : l.foldl max 0 = top := by
  obtain ⟨lo, rfl, hlo, -, htop⟩ := h
  apply foldl_max_eq (Nat.zero_le top)
  · intro n hn
    have := List.Ico.mem.mp hn
    omega
  · rcases htop with h | h
    · exact .inr h
    · left
      exact List.Ico.mem.mpr ⟨h, Nat.lt_succ_self top⟩

/-- INTERNAL: the next number extends a block. -/
theorem Block.snoc {l : List ℕ} {top : ℕ} (h : Block l top) : Block (l ++ [top + 1]) (top + 1) := by
  obtain ⟨lo, rfl, hlo, hle, -⟩ := h
  refine ⟨lo, (List.Ico.succ_top hle).symm, hlo, ?_, Or.inr hle⟩
  omega

/-- INTERNAL: deleting below the top leaves a block. -/
theorem Block.filter_lt {l : List ℕ} {top cutoff : ℕ} (h : Block l top) (hcut : cutoff < top) :
    Block (l.filter fun n => cutoff < n) top := by
  obtain ⟨lo, rfl, hlo, hle, htop⟩ := h
  refine ⟨max lo (cutoff + 1), List.Ico.filter_le lo (top + 1) (cutoff + 1), ?_, ?_, ?_⟩
  · omega
  · omega
  · omega

/-! ## What a prune does to the chains -/

/-- INTERNAL: a row is in one chain only. -/
theorem inChain_eq_false {scope token scope' token' : String} {r : Row}
    (hin : r.scopeId = scope ∧ r.pathToken = token)
    (hne : ¬ (scope' = scope ∧ token' = token)) : r.inChain scope' token' = false := by
  rw [Bool.eq_false_iff]
  intro h
  simp only [Row.inChain, Bool.and_eq_true, decide_eq_true_eq] at h
  apply hne
  rw [← h.1, ← h.2]
  exact hin

/-- INTERNAL: in its own chain a prune deletes the numbers up to the cutoff. -/
theorem numbers_pruneRows (rows : List Row) (scope token : String) (newest retention : ℕ) :
    numbers (pruneRows rows scope token newest retention) scope token =
      (numbers rows scope token).filter fun n => newest - retention < n ∨ newest ≤ retention := by
  unfold pruneRows retentionCutoff
  simp only
  split
  · rename_i hpos
    unfold numbers chain
    rw [List.filter_map, List.filter_filter, List.filter_filter]
    congr 1
    apply List.filter_congr
    intro r _
    by_cases hin : r.inChain scope token
    · have hiff : ¬ (r.rev.revisionNo : ℤ) ≤ (newest : ℤ) - retention ↔
          newest - retention < r.rev.revisionNo ∨ newest ≤ retention := by omega
      simp only [hin, Bool.true_and, Bool.and_true, Function.comp_apply, ← hiff, decide_not]
    · simp [hin]
  · rename_i hpos
    symm
    apply List.filter_eq_self.mpr
    intro n _
    have hle : newest ≤ retention := by omega
    simp [hle]

/-- INTERNAL: the rows of another chain stay as they are. -/
theorem chain_pruneRows_of_ne {scope token scope' token' : String}
    (hne : ¬ (scope' = scope ∧ token' = token)) (rows : List Row) (newest retention : ℕ) :
    chain (pruneRows rows scope token newest retention) scope' token' =
      chain rows scope' token' := by
  unfold pruneRows
  simp only
  split
  · unfold chain
    rw [List.filter_filter]
    apply List.filter_congr
    intro r _
    by_cases hin : r.inChain scope' token'
    · have hout : r.inChain scope token = false := by
        simp only [Row.inChain, Bool.and_eq_true, decide_eq_true_eq] at hin
        apply inChain_eq_false hin
        rintro ⟨hs, ht⟩
        exact hne ⟨hs.symm, ht.symm⟩
      simp [hin, hout]
    · simp [hin]
  · rfl

/-- INTERNAL: a row that is newer than the cutoff stays. -/
theorem mem_pruneRows {rows : List Row} {r : Row} (hr : r ∈ rows) {scope token : String}
    {newest retention : ℕ} (hnew : newest < r.rev.revisionNo + retention) :
    r ∈ pruneRows rows scope token newest retention := by
  unfold pruneRows retentionCutoff
  simp only
  split
  · apply List.mem_filter.mpr
    refine ⟨hr, ?_⟩
    have hnot : ¬ (r.rev.revisionNo : ℤ) ≤ (newest : ℤ) - retention := by omega
    simp [hnot]
  · exact hr

/-- INTERNAL: a prune to a positive retention keeps the shape. -/
theorem block_pruneRows {rows : List Row} {scope token : String} {top : ℕ}
    (h : Block (numbers rows scope token) top) {retention : ℕ} (hpos : 0 < retention) :
    Block (numbers (pruneRows rows scope token top retention) scope token) top := by
  rw [numbers_pruneRows]
  by_cases hle : top ≤ retention
  · have hall : (numbers rows scope token).filter
        (fun n => decide (top - retention < n ∨ top ≤ retention)) = numbers rows scope token := by
      apply List.filter_eq_self.mpr
      intro n _
      simp [hle]
    rw [hall]
    exact h
  · have hsame : (fun n => decide (top - retention < n ∨ top ≤ retention)) =
        fun n => decide (top - retention < n) := by
      funext n
      simp [hle]
    rw [hsame]
    apply h.filter_lt
    omega

/-- INTERNAL: and leaves no more rows than the retention. -/
theorem length_pruneRows_le {rows : List Row} {scope token : String} {top : ℕ}
    (h : Block (numbers rows scope token) top) (retention : ℕ) :
    (numbers (pruneRows rows scope token top retention) scope token).length ≤ retention := by
  rw [numbers_pruneRows]
  obtain ⟨lo, hl, hlo, -, -⟩ := h
  rw [hl]
  by_cases hle : top ≤ retention
  · have hlen : ((List.Ico lo (top + 1)).filter
        (fun n => decide (top - retention < n ∨ top ≤ retention))).length ≤
          (List.Ico lo (top + 1)).length := List.length_filter_le _ _
    rw [List.Ico.length] at hlen
    omega
  · have hsame : (fun n => decide (top - retention < n ∨ top ≤ retention)) =
        fun n => decide (top - retention + 1 ≤ n) := by
      funext n
      simp [hle, Nat.succ_le_iff]
    rw [hsame, List.Ico.filter_le, List.Ico.length]
    omega

/-- INTERNAL: a second prune with the same cutoff finds nothing to delete. -/
theorem pruneRows_idem (rows : List Row) (scope token : String) (newest retention : ℕ) :
    pruneRows (pruneRows rows scope token newest retention) scope token newest retention =
      pruneRows rows scope token newest retention := by
  unfold pruneRows
  simp only
  split
  · rw [List.filter_filter]
    apply List.filter_congr
    intro r _
    simp
  · rfl

/-! ## The invariant -/

/-- The numbers handed out in a chain. -/
def issuedNos (issued : List (String × String × ℕ)) (scope token : String) : List ℕ :=
  (issued.filter fun e => e.1 = scope && e.2.1 = token).map fun e => e.2.2

/-- The largest number ever handed out in a chain, 0 when there is none. -/
def lastIssued (s : State) (scope token : String) : ℕ :=
  (issuedNos s.issued scope token).foldl max 0

structure Inv (s : State) : Prop where
  block : ∀ scope token, Block (numbers s.rows scope token) (lastIssued s scope token)
  bound : ∀ e ∈ s.issued, e.2.2 ≤ lastIssued s e.1 e.2.1
  nodup : s.issued.Nodup

theorem inv_empty : Inv State.empty where
  block := fun _ _ => block_nil
  bound := by
    intro e he
    simp [State.empty] at he
  nodup := List.nodup_nil

/-- INTERNAL: the maximum the code reads is the last number handed out. -/
theorem maxNo_eq {s : State} (h : Inv s) (scope token : String) :
    maxNo s.rows scope token = lastIssued s scope token :=
  (h.block scope token).foldl_max

/-! ## One call -/

section Record

variable (token : String → String → String) {s : State} (scope : String) (args : RecordArgs)
  (op : RevisionOp) (now : String)

/-- INTERNAL: the number a record hands out is the one after the last. -/
theorem recordOnce_no (h : Inv s) :
    (recordOnce token s scope args op now).2 = lastIssued s scope (token scope args.path) + 1 := by
  simp only [recordOnce]
  rw [maxNo_eq h]

/-- INTERNAL: the last number of the chain moves to the one handed out, the others stay. -/
theorem lastIssued_recordOnce (h : Inv s) (scope' tok' : String) :
    lastIssued (recordOnce token s scope args op now).1 scope' tok' =
      if scope' = scope ∧ tok' = token scope args.path then
        lastIssued s scope (token scope args.path) + 1
      else lastIssued s scope' tok' := by
  have hno := maxNo_eq h scope (token scope args.path)
  by_cases hsame : scope' = scope ∧ tok' = token scope args.path
  · obtain ⟨rfl, rfl⟩ := hsame
    rw [if_pos ⟨rfl, rfl⟩]
    apply foldl_max_eq (Nat.zero_le _)
    · intro n hn
      simp only [issuedNos, recordOnce, List.filter_cons, decide_true, Bool.and_self, ↓reduceIte,
        List.map_cons, List.mem_cons] at hn
      rcases hn with hn | hn
      · omega
      · obtain ⟨e, he, rfl⟩ := List.mem_map.mp hn
        simp only [List.mem_filter, Bool.and_eq_true, decide_eq_true_eq] at he
        have hle := h.bound e he.1
        rw [he.2.1, he.2.2] at hle
        omega
    · left
      simp [issuedNos, recordOnce, hno]
  · rw [if_neg hsame]
    have hout : ¬ (scope = scope' ∧ token scope args.path = tok') := by
      rintro ⟨hs, ht⟩
      exact hsame ⟨hs.symm, ht.symm⟩
    simp [lastIssued, issuedNos, recordOnce, hout]

/-- INTERNAL: before the prune, the chain is the old one with the new number. -/
theorem block_insert (h : Inv s) :
    ∃ row : Row, row.inChain scope (token scope args.path) ∧
      row.rev.revisionNo = lastIssued s scope (token scope args.path) + 1 ∧
      (recordOnce token s scope args op now).1.rows =
        pruneRows (s.rows ++ [row]) scope (token scope args.path)
          (lastIssued s scope (token scope args.path) + 1) (clampRetention s.retention) ∧
      Block (numbers (s.rows ++ [row]) scope (token scope args.path))
        (lastIssued s scope (token scope args.path) + 1) := by
  have hno := maxNo_eq h scope (token scope args.path)
  have hnums := (h.block scope (token scope args.path)).snoc
  refine ⟨newRow scope (token scope args.path)
    (lastIssued s scope (token scope args.path) + 1) args op now, ?_, rfl, ?_, ?_⟩
  · simp [Row.inChain, newRow]
  · simp only [recordOnce, hno]
  · simpa [numbers, chain, Row.inChain, newRow] using hnums

/-- INTERNAL: a record leaves the other chains alone. -/
theorem chain_recordOnce_of_ne {scope' tok' : String}
    (hne : ¬ (scope' = scope ∧ tok' = token scope args.path)) :
    chain (recordOnce token s scope args op now).1.rows scope' tok' = chain s.rows scope' tok' := by
  have hout (no : ℕ) : (newRow scope (token scope args.path) no args op now).inChain scope' tok' =
      false := inChain_eq_false ⟨rfl, rfl⟩ hne
  simp only [recordOnce]
  rw [chain_pruneRows_of_ne hne]
  simp [chain, hout]

/-- INTERNAL: the number was never handed out before. -/
theorem recordOnce_fresh (h : Inv s) :
    (scope, token scope args.path, (recordOnce token s scope args op now).2) ∉ s.issued := by
  intro hmem
  have hle := h.bound _ hmem
  rw [recordOnce_no token scope args op now h] at hle
  exact Nat.not_succ_le_self _ hle

theorem inv_recordOnce (h : Inv s) : Inv (recordOnce token s scope args op now).1 where
  block := by
    intro scope' tok'
    rw [lastIssued_recordOnce token scope args op now h]
    by_cases hsame : scope' = scope ∧ tok' = token scope args.path
    · obtain ⟨rfl, rfl⟩ := hsame
      rw [if_pos ⟨rfl, rfl⟩]
      obtain ⟨row, -, -, hrows, hblock⟩ := block_insert token scope' args op now h
      rw [hrows]
      exact block_pruneRows hblock (clampRetention_pos s.retention)
    · rw [if_neg hsame, numbers, chain_recordOnce_of_ne token scope args op now hsame]
      exact h.block scope' tok'
  bound := by
    intro e he
    rw [lastIssued_recordOnce token scope args op now h]
    rcases List.mem_cons.mp he with he | he
    · subst he
      rw [if_pos ⟨rfl, rfl⟩, ← maxNo_eq h]
    · have hle := h.bound e he
      split
      · rename_i hsame
        rw [hsame.1, hsame.2] at hle
        omega
      · exact hle
  nodup := List.nodup_cons.mpr ⟨recordOnce_fresh token scope args op now h, h.nodup⟩

end Record

/-- INTERNAL: a prune keeps the newest number, so it finds the same maximum again. -/
theorem maxNo_prune {s : State} (h : Inv s) (scope tok : String) :
    maxNo (prune s scope tok).1.rows scope tok = maxNo s.rows scope tok := by
  have hmax := maxNo_eq h scope tok
  have hblock := block_pruneRows (h.block scope tok) (clampRetention_pos s.retention)
  rw [hmax]
  simp only [prune, hmax]
  exact hblock.foldl_max

theorem inv_prune {s : State} (h : Inv s) (scope tok : String) : Inv (prune s scope tok).1 where
  block := by
    intro scope' tok'
    show Block (numbers (prune s scope tok).1.rows scope' tok') (lastIssued s scope' tok')
    simp only [prune]
    rw [maxNo_eq h]
    by_cases hsame : scope' = scope ∧ tok' = tok
    · obtain ⟨rfl, rfl⟩ := hsame
      exact block_pruneRows (h.block scope' tok') (clampRetention_pos s.retention)
    · rw [numbers, chain_pruneRows_of_ne hsame]
      exact h.block scope' tok'
  bound := h.bound
  nodup := h.nodup

theorem inv_step (token : String → String → String) (s : State) (a : Action) (s' : State)
    (h : Inv s) (hstep : step token s a = some s') : Inv s' := by
  cases a with
  | setRetention retention =>
    cases hstep
    exact ⟨h.block, h.bound, h.nodup⟩
  | record scope args now =>
    simp only [step, record] at hstep
    cases hop : revisionOp? args.op with
    | none =>
      simp only [hop, Option.some.injEq] at hstep
      exact hstep ▸ h
    | some op =>
      simp only [hop, Option.some.injEq] at hstep
      exact hstep ▸ inv_recordOnce token scope args op now h
  | prune scope tok =>
    cases hstep
    exact inv_prune h scope tok

/-! ## The shape of every chain -/

/-- What a record call does to the table. -/
structure RecordShape (token : String → String → String) (s : State) (scope path : String)
    (r : State × ℕ) : Prop where
  bounded : (numbers r.1.rows scope (token scope path)).length ≤ clampRetention s.retention
  fresh : (scope, token scope path, r.2) ∉ s.issued
  newest : ∃ row ∈ chain r.1.rows scope (token scope path), row.rev.revisionNo = r.2
  others : ∀ scope' tok', ¬ (scope' = scope ∧ tok' = token scope path) →
    chain r.1.rows scope' tok' = chain s.rows scope' tok'

/-- What a prune call does to the table. -/
structure PruneShape (s : State) (scope tok : String) (r : State × ℕ) : Prop where
  newest : ∀ row ∈ chain s.rows scope tok, row.rev.revisionNo = maxNo s.rows scope tok →
    row ∈ chain r.1.rows scope tok
  again : prune r.1 scope tok = (r.1, 0)
  others : ∀ scope' tok', ¬ (scope' = scope ∧ tok' = tok) →
    chain r.1.rows scope' tok' = chain s.rows scope' tok'

/-- INTERNAL: a record from a well-formed table. -/
theorem recordShape {token : String → String → String} {s : State} (h : Inv s) {scope : String}
    {args : RecordArgs} {now : String} {r : State × ℕ}
    (hrec : record token s scope args now = .ok r) : RecordShape token s scope args.path r := by
  simp only [record] at hrec
  cases hop : revisionOp? args.op with
  | none => simp [hop] at hrec
  | some op =>
    simp only [hop, Except.ok.injEq] at hrec
    subst hrec
    obtain ⟨row, hin, hno, hrows, hblock⟩ := block_insert token scope args op now h
    refine ⟨?_, recordOnce_fresh token scope args op now h, ⟨row, ?_, ?_⟩, ?_⟩
    · rw [hrows]
      exact length_pruneRows_le hblock _
    · rw [hrows]
      apply List.mem_filter.mpr
      refine ⟨mem_pruneRows (by simp) ?_, hin⟩
      have hpos := clampRetention_pos s.retention
      omega
    · rw [hno, recordOnce_no token scope args op now h]
    · intro scope' tok' hne
      exact chain_recordOnce_of_ne token scope args op now hne

/-- INTERNAL: a prune of a well-formed table. -/
theorem pruneShape {s : State} (h : Inv s) (scope tok : String) :
    PruneShape s scope tok (prune s scope tok) where
  newest := by
    intro row hrow hno
    have hrow' := List.mem_filter.mp hrow
    apply List.mem_filter.mpr
    refine ⟨mem_pruneRows hrow'.1 ?_, hrow'.2⟩
    have hpos := clampRetention_pos s.retention
    omega
  again := by
    have hmax := maxNo_prune h scope tok
    have hrows : pruneRows (prune s scope tok).1.rows scope tok
        (maxNo (prune s scope tok).1.rows scope tok) (clampRetention s.retention) =
          (prune s scope tok).1.rows := by
      rw [hmax]
      exact pruneRows_idem s.rows scope tok _ _
    show (({ (prune s scope tok).1 with rows := _ } : State), _) = _
    rw [show (prune s scope tok).1.retention = s.retention from rfl, hrows]
    simp
  others := by
    intro scope' tok' hne
    exact chain_pruneRows_of_ne hne s.rows _ _

/-- **The shape of the revision chains.** After any sequence of record and prune calls under
any sequence of retention settings, the numbers of each chain are an interval that ends at
the largest number ever handed out and no number was handed out twice; a further record
leaves at most the retention in force, hands out a new number and keeps its row; a further
prune keeps the newest row and leaves nothing for a second one; and neither touches another
chain. -/
theorem chain_shape (token : String → String → String) {as : List Action} {s : State}
    (hrun : exec (step token) State.empty as = some s) :
    (∀ scope tok, Block (numbers s.rows scope tok) (lastIssued s scope tok)) ∧
      s.issued.Nodup ∧
      (∀ scope args now r, record token s scope args now = .ok r →
        RecordShape token s scope args.path r) ∧
      ∀ scope tok, PruneShape s scope tok (prune s scope tok) := by
  have h : Inv s := exec_invariant Inv (inv_step token) inv_empty hrun
  refine ⟨h.block, h.nodup, ?_, ?_⟩
  · intro scope args now r hrec
    exact recordShape h hrec
  · intro scope tok
    exact pruneShape h scope tok

/-- Two records of one path. -/
def twoRecords : List Action :=
  [.setRetention 3,
    .record "user:1" ⟨"/a.md", "create", "", "concept created", "one"⟩ "2026-01-01T00:00:00+00:00",
    .record "user:1" ⟨"/a.md", "update", "", "concept updated", "one"⟩ "2026-01-01T00:00:01+00:00"]

theorem chain_shape_twoRecords :
    ∃ s, exec (step fun _ path => path) State.empty twoRecords = some s ∧
      numbers s.rows "user:1" "/a.md" = [1, 2] ∧ s.issued.Nodup ∧
      PruneShape s "user:1" "/a.md" (prune s "user:1" "/a.md") := by
  have hrun : exec (step fun _ path => path) State.empty twoRecords =
      some ⟨_, clampRetention 3, _⟩ := rfl
  obtain ⟨-, hnodup, -, hprune⟩ := chain_shape (fun _ path => path) hrun
  exact ⟨_, hrun, by decide, hnodup, hprune "user:1" "/a.md"⟩

end Mycelium.Analysis.RevisionChains
