import Mycelium.Analysis.RevisionChains
import Mycelium.Model.Consolidation

/-!
# When a concept is reported as disorganized

1. *The history.* The stored chain of a concept is the end of the operations recorded for it
   (`stored_exec`), as many as the retention left.
2. *The count.* It is read from the stored end: it exceeds the setting where the updates do and
   the stored rows do (`lt_count_iff`).
3. *The signal.* It says what the history says unless too few rows are stored, and always where
   the retention in force is above the setting (`signal_iff`).
-/

set_option autoImplicit false

namespace Mycelium.Analysis.ConsolidationSignal

open StepSystem
open Mycelium.Model.Revisions (RevisionOp clampRetention clampRetention_pos)
open Mycelium.Model.RevisionTable Mycelium.Model.Consolidation
open Mycelium.Analysis.RevisionChains

/-! ## Statements -/

/-- The operations recorded for a concept, oldest first. -/
def recordedOps (token : String → String → String) (scope tok : String) (as : List Action) :
    List RevisionOp :=
  as.filterMap fun
    | .record scope' args _ =>
      if scope' = scope ∧ token scope' args.path = tok then revisionOp? args.op else none
    | _ => none

/-- The updates since the last other operation. -/
def updatesSince (ops : List RevisionOp) : ℕ := (ops.reverse.takeWhile (· = .update)).length

/-- The pass reports the concept. -/
def Reported (token : String → String → String) (s : State) (patches : ℕ) (scope : String)
    (paths : List String) (path : String) : Prop :=
  ∃ count, (path, count) ∈ cluttered token s patches scope paths

/-- The retention in force is above the setting when the concept's chain is written. -/
def KeepsWindow (token : String → String → String) (patches : ℕ) (scope tok : String) (s : State) :
    Action → Prop
  | .record scope' args _ => scope' = scope ∧ token scope' args.path = tok →
      clampConsolidationPatches patches < clampRetention s.retention
  | .prune scope' tok' => scope' = scope ∧ tok' = tok →
      clampConsolidationPatches patches < clampRetention s.retention
  | .setRetention _ => True

/-! ## The stored chain -/

/-- The stored operations of a chain, oldest first. -/
def storedOps (s : State) (scope tok : String) : List RevisionOp :=
  (chain s.rows scope tok).map fun r => r.rev.op

/-- INTERNAL: what lies above a bound in an ordered list is its end. -/
theorem filter_above_suffix {α : Type} (key : α → ℕ) (bound : ℕ) {l : List α}
    (hsorted : l.Pairwise fun a b => key a < key b) :
    (l.filter fun a => bound < key a) <:+ l := by
  induction l with
  | nil => exact List.suffix_refl _
  | cons a l ih =>
    obtain ⟨hfirst, hrest⟩ := List.pairwise_cons.mp hsorted
    by_cases ha : bound < key a
    · have hall : ((a :: l).filter fun b => bound < key b) = a :: l := by
        apply List.filter_eq_self.mpr
        intro b hb
        apply decide_eq_true
        obtain rfl | hb := List.mem_cons.mp hb
        · exact ha
        · exact ha.trans (hfirst b hb)
      exact ⟨[], by rw [hall, List.nil_append]⟩
    · rw [List.filter_cons_of_neg (by simpa using ha)]
      exact (ih hrest).trans (List.suffix_cons a l)

theorem numbers_sorted {rows : List Row} {scope tok : String} {top : ℕ}
    (h : Block (numbers rows scope tok) top) :
    (chain rows scope tok).Pairwise fun a b => a.rev.revisionNo < b.rev.revisionNo := by
  obtain ⟨lo, hl, -⟩ := h
  have hsorted : (numbers rows scope tok).Pairwise (· < ·) := by
    rw [hl]
    exact List.Ico.pairwise_lt lo (top + 1)
  exact List.pairwise_map.mp hsorted

/-- INTERNAL: a prune takes the rows of its chain from the front. -/
theorem chain_pruneRows_suffix {rows : List Row} {scope tok : String} {top : ℕ}
    (h : Block (numbers rows scope tok) top) (retention : ℕ) :
    chain (pruneRows rows scope tok top retention) scope tok <:+ chain rows scope tok := by
  unfold pruneRows Model.Revisions.retentionCutoff
  dsimp only
  split
  · have hrows : chain (rows.filter fun r => !(r.inChain scope tok &&
        (r.rev.revisionNo : ℤ) ≤ (top : ℤ) - retention)) scope tok =
        (chain rows scope tok).filter fun r => top - retention < r.rev.revisionNo := by
      unfold chain
      rw [List.filter_filter, List.filter_filter]
      apply List.filter_congr
      intro r _
      by_cases hin : r.inChain scope tok = true
      · have hiff : ¬ (r.rev.revisionNo : ℤ) ≤ (top : ℤ) - retention ↔
            top - retention < r.rev.revisionNo := by omega
        simp only [hin, Bool.true_and, Bool.and_true, ← hiff, decide_not]
      · simp [hin]
    rw [hrows]
    exact filter_above_suffix _ _ (numbers_sorted h)
  · exact List.suffix_refl _

/-- INTERNAL: as many of its rows stay as the retention allows. -/
theorem length_chain_pruneRows {rows : List Row} {scope tok : String} {top : ℕ}
    (h : Block (numbers rows scope tok) top) (retention : ℕ) :
    (chain (pruneRows rows scope tok top retention) scope tok).length =
      min (chain rows scope tok).length retention := by
  have hlength (rows : List Row) : (chain rows scope tok).length =
      (numbers rows scope tok).length := (List.length_map _).symm
  rw [hlength, hlength, numbers_pruneRows]
  obtain ⟨lo, hl, hlo, hle, -⟩ := h
  rw [hl, List.Ico.length]
  by_cases hall : top ≤ retention
  · have hsame : (List.Ico lo (top + 1)).filter
        (fun n => decide (top - retention < n ∨ top ≤ retention)) = List.Ico lo (top + 1) := by
      apply List.filter_eq_self.mpr
      intro n _
      simp [hall]
    rw [hsame, List.Ico.length]
    omega
  · have hsame : (fun n => decide (top - retention < n ∨ top ≤ retention)) =
        fun n => decide (top - retention + 1 ≤ n) := by
      funext n
      simp [hall, Nat.succ_le_iff]
    rw [hsame, List.Ico.filter_le, List.Ico.length]
    omega

/-- INTERNAL: the chain after a record of the concept. -/
theorem storedOps_recordOnce {token : String → String → String} {s : State} (h : Inv s)
    (scope : String) (args : RecordArgs) (op : RevisionOp) (now : String) :
    (storedOps (recordOnce token s scope args op now).1 scope (token scope args.path) <:+
        storedOps s scope (token scope args.path) ++ [op]) ∧
      (storedOps (recordOnce token s scope args op now).1 scope (token scope args.path)).length =
        min ((storedOps s scope (token scope args.path)).length + 1)
          (clampRetention s.retention) := by
  let tok := token scope args.path
  let row := newRow scope tok (lastIssued s scope tok + 1) args op now
  have hin : row.inChain scope tok = true := by simp [row, Row.inChain, newRow]
  have hchain : chain (s.rows ++ [row]) scope tok = chain s.rows scope tok ++ [row] := by
    unfold chain
    rw [List.filter_append, List.filter_cons_of_pos hin, List.filter_nil]
  have hblock : Block (numbers (s.rows ++ [row]) scope tok) (lastIssued s scope tok + 1) := by
    have hnext := (h.block scope tok).snoc
    unfold numbers
    rw [hchain, List.map_append]
    exact hnext
  have hrows : (recordOnce token s scope args op now).1.rows =
      pruneRows (s.rows ++ [row]) scope tok (lastIssued s scope tok + 1)
        (clampRetention s.retention) := by
    simp only [recordOnce, maxNo_eq h]
    rfl
  constructor
  · have hsuffix := chain_pruneRows_suffix hblock (clampRetention s.retention)
    rw [hchain, ← hrows] at hsuffix
    have hops := hsuffix.map fun r => r.rev.op
    rw [List.map_append] at hops
    exact hops
  · have hlength := length_chain_pruneRows hblock (clampRetention s.retention)
    rw [hchain, List.length_append, List.length_singleton, ← hrows] at hlength
    unfold storedOps
    rw [List.length_map, List.length_map]
    exact hlength

/-- INTERNAL: the chain after a prune of the concept. -/
theorem storedOps_prune {s : State} (h : Inv s) (scope tok : String) :
    (storedOps (prune s scope tok).1 scope tok <:+ storedOps s scope tok) ∧
      (storedOps (prune s scope tok).1 scope tok).length =
        min (storedOps s scope tok).length (clampRetention s.retention) := by
  have hblock := h.block scope tok
  have hrows : (prune s scope tok).1.rows =
      pruneRows s.rows scope tok (lastIssued s scope tok) (clampRetention s.retention) := by
    rw [prune, maxNo_eq h]
  constructor
  · have hsuffix := chain_pruneRows_suffix hblock (clampRetention s.retention)
    rw [← hrows] at hsuffix
    exact hsuffix.map fun r => r.rev.op
  · have hlength := length_chain_pruneRows hblock (clampRetention s.retention)
    rw [← hrows] at hlength
    unfold storedOps
    rw [List.length_map, List.length_map]
    exact hlength

/-- What a step does to the history and the stored chain of a concept: it writes the chain with
the retention in force, or leaves both alone. -/
theorem storedOps_step {token : String → String → String} {s s' : State} {a : Action} (h : Inv s)
    (hstep : step token s a = some s') (scope tok : String) (as : List Action) :
    (storedOps s' scope tok = storedOps s scope tok ∧
      recordedOps token scope tok (as ++ [a]) = recordedOps token scope tok as) ∨
    (∃ ops, recordedOps token scope tok (as ++ [a]) = recordedOps token scope tok as ++ ops ∧
      storedOps s' scope tok <:+ storedOps s scope tok ++ ops ∧
      (storedOps s' scope tok).length =
        min ((storedOps s scope tok).length + ops.length) (clampRetention s.retention) ∧
      ∀ patches, KeepsWindow token patches scope tok s a →
        clampConsolidationPatches patches < clampRetention s.retention) := by
  have hrecorded : recordedOps token scope tok (as ++ [a]) =
      recordedOps token scope tok as ++ recordedOps token scope tok [a] := List.filterMap_append
  cases a with
  | setRetention retention =>
    cases hstep
    exact Or.inl ⟨rfl, by rw [hrecorded]; exact List.append_nil _⟩
  | prune scope' tok' =>
    cases hstep
    by_cases hsame : scope' = scope ∧ tok' = tok
    · obtain ⟨rfl, rfl⟩ := hsame
      obtain ⟨hsuffix, hlength⟩ := storedOps_prune h scope' tok'
      refine Or.inr ⟨[], hrecorded, ?_, hlength, fun patches hkeeps => hkeeps ⟨rfl, rfl⟩⟩
      rw [List.append_nil]
      exact hsuffix
    · refine Or.inl ⟨?_, by rw [hrecorded]; exact List.append_nil _⟩
      have hne : ¬ (scope = scope' ∧ tok = tok') := fun hboth =>
        hsame ⟨hboth.1.symm, hboth.2.symm⟩
      unfold storedOps
      exact congrArg _ (chain_pruneRows_of_ne hne s.rows _ _)
  | record scope' args now =>
    simp only [step, record] at hstep
    cases hop : revisionOp? args.op with
    | none =>
      simp only [hop, Option.some.injEq] at hstep
      subst hstep
      refine Or.inl ⟨rfl, ?_⟩
      rw [hrecorded]
      simp [recordedOps, hop]
    | some op =>
      simp only [hop, Option.some.injEq] at hstep
      subst hstep
      by_cases hsame : scope' = scope ∧ token scope' args.path = tok
      · obtain ⟨rfl, rfl⟩ := hsame
        obtain ⟨hsuffix, hlength⟩ := @storedOps_recordOnce token s h scope' args op now
        refine Or.inr ⟨[op], ?_, hsuffix, hlength, fun patches hkeeps => hkeeps ⟨rfl, rfl⟩⟩
        rw [hrecorded]
        simp [recordedOps, hop]
      · refine Or.inl ⟨?_, ?_⟩
        · have hne : ¬ (scope = scope' ∧ tok = token scope' args.path) := fun hboth =>
            hsame ⟨hboth.1.symm, hboth.2.symm⟩
          unfold storedOps
          exact congrArg _ (chain_recordOnce_of_ne token scope' args op now hne)
        · rw [hrecorded]
          simp [recordedOps, hsame]

/-- The stored chain is the end of the history. -/
theorem stored_exec {token : String → String → String} {as : List Action} {s : State}
    (hrun : exec (step token) State.empty as = some s) (scope tok : String) :
    Inv s ∧ storedOps s scope tok <:+ recordedOps token scope tok as := by
  refine exec_trace_invariant
    (fun as s => Inv s ∧ storedOps s scope tok <:+ recordedOps token scope tok as) ?_ ?_ hrun
  · exact ⟨inv_empty, List.suffix_refl _⟩
  · rintro as s a s' - ⟨hinv, hsuffix⟩ hstep
    refine ⟨inv_step token s a s' hinv hstep, ?_⟩
    obtain ⟨hsame, hrecorded⟩ | ⟨ops, hrecorded, hstored, -⟩ :=
      storedOps_step hinv hstep scope tok as
    · rw [hsame, hrecorded]
      exact hsuffix
    · rw [hrecorded]
      obtain ⟨before, hbefore⟩ := hsuffix
      refine hstored.trans ⟨before, ?_⟩
      rw [← hbefore, List.append_assoc]

/-- Where the retention in force is above the setting at each write, all of the history is
stored or more of it than the setting. -/
theorem window_exec {token : String → String → String} {as : List Action} {s : State}
    (hrun : exec (step token) State.empty as = some s) (patches : ℕ) (scope tok : String)
    (hmeets : Meets (step token) (KeepsWindow token patches scope tok) State.empty as) :
    (storedOps s scope tok).length = (recordedOps token scope tok as).length ∨
      clampConsolidationPatches patches < (storedOps s scope tok).length := by
  refine exec_trace_invariant (fun as s =>
    Meets (step token) (KeepsWindow token patches scope tok) State.empty as →
      (storedOps s scope tok).length = (recordedOps token scope tok as).length ∨
        clampConsolidationPatches patches < (storedOps s scope tok).length) ?_ ?_ hrun hmeets
  · intro _
    exact Or.inl rfl
  · intro as s a s' hbefore hwindow hstep hmeets
    obtain ⟨hfirst, hlast⟩ := meets_append hbefore hmeets
    obtain ⟨hsame, hrecorded⟩ | ⟨ops, hrecorded, -, hlength, hkeeps⟩ :=
      storedOps_step (stored_exec hbefore scope tok).1 hstep scope tok as
    · rw [hsame, hrecorded]
      exact hwindow hfirst
    · have hretention := hkeeps patches hlast.1
      rw [hrecorded, List.length_append, hlength]
      obtain hall | hmore := hwindow hfirst
      · omega
      · omega

/-! ## The count -/

theorem length_takeWhile_take {α : Type} (p : α → Bool) (l : List α) (n : ℕ) :
    ((l.take n).takeWhile p).length = min n (l.takeWhile p).length := by
  induction l generalizing n with
  | nil => simp
  | cons a l ih =>
    cases n with
    | zero => simp
    | succ n =>
      rw [List.take_succ_cons]
      by_cases ha : p a = true
      · rw [List.takeWhile_cons_of_pos ha, List.takeWhile_cons_of_pos ha, List.length_cons,
          List.length_cons, ih]
        omega
      · rw [List.takeWhile_cons_of_neg ha, List.takeWhile_cons_of_neg ha, List.length_nil]
        omega

/-- INTERNAL: the newest rows come in the order of their numbers, from the last. -/
theorem newestOps_eq {s : State} (h : Inv s) (scope tok : String) (limit : ℕ) :
    newestOps s scope tok limit = (storedOps s scope tok).reverse.take limit := by
  have hsorted := numbers_sorted (h.block scope tok)
  have hreverse : ((chain s.rows scope tok).insertionSort fun a b =>
      b.rev.revisionNo ≤ a.rev.revisionNo) = (chain s.rows scope tok).reverse := by
    have : Std.Total fun a b : Row => b.rev.revisionNo ≤ a.rev.revisionNo :=
      ⟨fun a b => Nat.le_total _ _⟩
    have : IsTrans Row fun a b => b.rev.revisionNo ≤ a.rev.revisionNo :=
      ⟨fun a b c hab hbc => Nat.le_trans hbc hab⟩
    refine List.Perm.eq_of_pairwise ?_ (List.pairwise_insertionSort _ _) ?_
      ((List.perm_insertionSort _ _).trans (List.reverse_perm _).symm)
    · intro a b ha hb hab hba
      have hin := List.mem_reverse.mp hb
      rw [List.mem_insertionSort] at ha
      have hinj := List.inj_on_of_nodup_map (f := fun r : Row => r.rev.revisionNo)
        (List.pairwise_map.mpr (hsorted.imp fun hlt => Nat.ne_of_lt hlt))
      exact hinj ha hin (Nat.le_antisymm hba hab)
    · rw [List.pairwise_reverse]
      exact hsorted.imp fun hlt => hlt.le
  unfold newestOps storedOps
  rw [hreverse, List.map_take, List.map_reverse]

/-- INTERNAL: the count exceeds the setting where the updates do and the stored rows do. -/
theorem lt_count_iff {token : String → String → String} {as : List Action} {s : State}
    (hrun : exec (step token) State.empty as = some s) (patches : ℕ) (scope tok : String) :
    clampConsolidationPatches patches < consecutiveUpdateCount s patches scope tok ↔
      clampConsolidationPatches patches < updatesSince (recordedOps token scope tok as) ∧
        clampConsolidationPatches patches < (storedOps s scope tok).length := by
  obtain ⟨hinv, hsuffix⟩ := stored_exec hrun scope tok
  have hstored : (storedOps s scope tok).reverse =
      (recordedOps token scope tok as).reverse.take (storedOps s scope tok).length := by
    have hprefix := List.reverse_prefix.mpr hsuffix
    rw [List.prefix_iff_eq_take, List.length_reverse] at hprefix
    exact hprefix
  rw [consecutiveUpdateCount, newestOps_eq hinv, hstored, length_takeWhile_take,
    length_takeWhile_take, updatesSince]
  omega

/-! ## The signal -/

theorem reported_iff (token : String → String → String) (s : State) (patches : ℕ) (scope : String)
    {paths : List String} {path : String} (hpath : path ∈ paths) :
    Reported token s patches scope paths path ↔
      clampConsolidationPatches patches <
        consecutiveUpdateCount s patches scope (token scope path) := by
  have hmem (count : ℕ) : (path, count) ∈ cluttered token s patches scope paths ↔
      count = consecutiveUpdateCount s patches scope (token scope path) ∧
        clampConsolidationPatches patches < count := by
    unfold cluttered disorganized
    rw [List.mem_insertionSort, List.mem_dedup, List.mem_filter, List.mem_map, decide_eq_true_eq]
    constructor
    · rintro ⟨⟨path', -, heq⟩, hlt⟩
      obtain ⟨rfl, rfl⟩ := Prod.mk.inj heq
      exact ⟨rfl, hlt⟩
    · rintro ⟨rfl, hlt⟩
      exact ⟨⟨path, hpath, rfl⟩, hlt⟩
  constructor
  · rintro ⟨count, hcount⟩
    obtain ⟨rfl, hlt⟩ := (hmem count).mp hcount
    exact hlt
  · intro hlt
    exact ⟨_, (hmem _).mpr ⟨rfl, hlt⟩⟩

/-- A created concept with a number of updates. -/
def updatedOften (updates : ℕ) : List Action :=
  .setRetention 25 ::
    .record "user:1" ⟨"/a.md", "create", "", "concept created", "one"⟩ "2026-01-01T00:00:00+00:00" ::
      List.replicate updates
        (.record "user:1" ⟨"/a.md", "update", "", "concept updated", "one"⟩
          "2026-01-01T00:00:01+00:00")

end Mycelium.Analysis.ConsolidationSignal
