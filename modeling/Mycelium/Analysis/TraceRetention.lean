import Mycelium.Lib.Retention
import Mycelium.Lib.StepSystem
import Mycelium.Model.Traces

/-!
# Pruning the traces is invisible to who lists them

1. *One table.* A deletion leaves a scope its newest rows (`newest_pruned`) and other scopes
   what they have (`newest_pruned_of_ne`).
2. *A history* of what the database took and of the deletions. The newest rows of a scope are
   the newest ones ever taken (`Kept`), whatever the calls' statements do to each other.
3. *The listing* in terms of that history (`listing_as_if_kept`).
-/

set_option autoImplicit false

namespace Mycelium.Analysis.TraceRetention

open StepSystem Mycelium.Model.Traces

/-! ## One table -/

instance total_newer : Std.Total fun a b : TraceRow => Newer a.key b.key :=
  ⟨fun a b => le_total (toLex b.key) (toLex a.key)⟩

instance trans_newer : IsTrans TraceRow fun a b => Newer a.key b.key :=
  ⟨fun _ _ _ hab hbc => le_trans hbc hab⟩

/-- The rows of a scope, in the order of the table. -/
def rowsOf (rows : List TraceRow) (scopeId : String) : List TraceRow :=
  rows.filter fun row => row.scope = scopeId

theorem newest_cons_of_eq (row : TraceRow) (rows : List TraceRow) {scopeId : String}
    (h : row.scope = scopeId) : newest (row :: rows) scopeId =
      (newest rows scopeId).orderedInsert (fun a b => Newer a.key b.key) row := by
  unfold newest
  rw [List.filter_cons_of_pos (by simpa using h), List.insertionSort_cons]

theorem newest_cons_of_ne (row : TraceRow) (rows : List TraceRow) {scopeId : String}
    (h : row.scope ≠ scopeId) : newest (row :: rows) scopeId = newest rows scopeId := by
  unfold newest
  rw [List.filter_cons_of_neg (by simpa using h)]

/-- INTERNAL: the identifiers of a scope's rows differ like those of the table. -/
theorem nodup_newest {rows : List TraceRow} (hnodup : (rows.map TraceRow.id).Nodup)
    (scopeId : String) : ((newest rows scopeId).map TraceRow.id).Nodup := by
  have hperm : (newest rows scopeId).Perm (rowsOf rows scopeId) := List.perm_insertionSort _ _
  exact ((hperm.map _).nodup_iff).mpr (hnodup.sublist (List.filter_sublist.map _))

/-- A deletion leaves the scope its newest rows. -/
theorem newest_pruned {rows : List TraceRow} (hnodup : (rows.map TraceRow.id).Nodup)
    (scopeId : String) :
    newest (pruned rows scopeId) scopeId = (newest rows scopeId).take maxTraces := by
  have hrows : rowsOf (pruned rows scopeId) scopeId = (rowsOf rows scopeId).filter fun row =>
      row.id ∈ ((newest rows scopeId).take maxTraces).map TraceRow.id := by
    unfold rowsOf pruned
    rw [List.filter_filter, List.filter_filter]
    congr 1
    funext row
    by_cases hscope : row.scope = scopeId
    · simp [hscope]
    · simp [hscope]
  calc newest (pruned rows scopeId) scopeId
      = ((rowsOf rows scopeId).filter fun row =>
          row.id ∈ ((newest rows scopeId).take maxTraces).map TraceRow.id).insertionSort
          fun a b => Newer a.key b.key := congrArg (List.insertionSort _) hrows
    _ = (newest rows scopeId).filter fun row =>
          row.id ∈ ((newest rows scopeId).take maxTraces).map TraceRow.id :=
        (Retention.filter_insertionSort _ _ _).symm
    _ = (newest rows scopeId).take maxTraces :=
        Retention.filter_mem_take TraceRow.id (nodup_newest hnodup scopeId) maxTraces

theorem newest_pruned_of_ne (rows : List TraceRow) {scopeId other : String}
    (h : other ≠ scopeId) : newest (pruned rows scopeId) other = newest rows other := by
  unfold newest pruned
  rw [List.filter_filter]
  congr 2
  funext row
  by_cases hscope : row.scope = other
  · have hne : row.scope ≠ scopeId := fun heq => h (hscope.symm.trans heq)
    simp [hscope, h]
  · simp [hscope]

/-! ## The history -/

/-- What goes through of a step: the database takes a trace, or it deletes. -/
inductive Event where
  | saved (scopeId : String) (trace : AgentTrace)
  | cut (scopeId : String)
  deriving DecidableEq

def events (encode : AgentTrace → Option String) (s : State) : Action → List Event
  | .insert scopeId trace fails =>
    if (insertedBody encode s trace fails).isSome then [.saved scopeId trace] else []
  | .prune scopeId fails => if fails then [] else [.cut scopeId]
  | .leave _ => []

def Event.saved? : Event → Option (String × AgentTrace)
  | .saved scopeId trace => some (scopeId, trace)
  | .cut _ => none

/-- The traces the database took for a scope, newest first. -/
def savedTraces (history : List Event) (scopeId : String) : List AgentTrace :=
  (((history.filterMap Event.saved?).filter fun p => p.1 = scopeId).map Prod.snd).insertionSort
    fun a b => Newer (a.startedAt, a.id) (b.startedAt, b.id)

/-- How many it took for a scope since it last deleted there. -/
def sinceCut (history : List Event) (scopeId : String) : ℕ :=
  (((history.takeWhile (· ≠ .cut scopeId)).filterMap Event.saved?).filter
    fun p => p.1 = scopeId).length

/-- The row of a trace, by the text that was written for it. -/
def rowOf (encode : AgentTrace → Option String) (p : String × AgentTrace) : TraceRow :=
  p.2.row p.1 ((encode p.2).getD "")

/-- The table that was never pruned. -/
def allRows (encode : AgentTrace → Option String) (history : List Event) : List TraceRow :=
  (history.filterMap Event.saved?).map (rowOf encode)

/-- The table against its history. -/
structure Kept (encode : AgentTrace → Option String) (rows : List TraceRow)
    (history : List Event) : Prop where
  nodup : (rows.map TraceRow.id).Nodup
  encoded : ∀ p ∈ history.filterMap Event.saved?, (encode p.2).isSome
  newest : ∀ scopeId, (newest rows scopeId).take maxTraces =
    (newest (allRows encode history) scopeId).take maxTraces
  few : ∀ scopeId, (rowsOf rows scopeId).length ≤ maxTraces + sinceCut history scopeId

section Steps

variable {encode : AgentTrace → Option String}

theorem kept_saved {s : State} {history : List Event} {scopeId : String} {trace : AgentTrace}
    {fails : Bool} {body : String} (h : Kept encode s.rows history)
    (hbody : insertedBody encode s trace fails = some body) :
    Kept encode (trace.row scopeId body :: s.rows) (.saved scopeId trace :: history) := by
  unfold insertedBody at hbody
  split at hbody
  · cases hbody
  · rename_i hfree
    obtain ⟨-, hfree⟩ := not_or.mp (by simpa only [Bool.or_eq_true] using hfree)
    have hrow : trace.row scopeId body = rowOf encode (scopeId, trace) := by
      unfold rowOf
      rw [hbody]
      rfl
    have hall : allRows encode (.saved scopeId trace :: history) =
        trace.row scopeId body :: allRows encode history := by
      rw [hrow]
      rfl
    refine ⟨?_, ?_, ?_, ?_⟩
    · rw [List.map_cons, List.nodup_cons]
      refine ⟨?_, h.nodup⟩
      intro hmem
      obtain ⟨row, hin, hid⟩ := List.mem_map.mp hmem
      exact hfree (List.any_eq_true.mpr ⟨row, hin, decide_eq_true hid⟩)
    · intro p hp
      obtain rfl | hp := List.mem_cons.mp hp
      · rw [hbody]
        rfl
      · exact h.encoded p hp
    · intro other
      rw [hall]
      by_cases hscope : scopeId = other
      · rw [newest_cons_of_eq _ _ hscope, newest_cons_of_eq _ _ hscope]
        exact Retention.take_orderedInsert_congr _ (h.newest other) _
      · rw [newest_cons_of_ne _ _ hscope, newest_cons_of_ne _ _ hscope]
        exact h.newest other
    · intro other
      have hfew := h.few other
      have hsince : sinceCut (.saved scopeId trace :: history) other =
          sinceCut history other + if scopeId = other then 1 else 0 := by
        unfold sinceCut
        rw [List.takeWhile_cons_of_pos (by simp)]
        by_cases hscope : scopeId = other
        · simp [Event.saved?, hscope]
        · simp [Event.saved?, hscope]
      have hlen : (rowsOf (trace.row scopeId body :: s.rows) other).length =
          (rowsOf s.rows other).length + if scopeId = other then 1 else 0 := by
        unfold rowsOf
        by_cases hscope : scopeId = other
        · simp [AgentTrace.row, hscope]
        · simp [AgentTrace.row, hscope]
      omega

theorem kept_cut {rows : List TraceRow} {history : List Event} (h : Kept encode rows history)
    (scopeId : String) : Kept encode (pruned rows scopeId) (.cut scopeId :: history) := by
  refine ⟨h.nodup.sublist (List.filter_sublist.map _), h.encoded, ?_, ?_⟩
  · intro other
    have hall : allRows encode (.cut scopeId :: history) = allRows encode history := rfl
    rw [hall, ← h.newest other]
    by_cases hscope : other = scopeId
    · rw [hscope, newest_pruned h.nodup, List.take_take, Nat.min_self]
    · rw [newest_pruned_of_ne rows hscope]
  · intro other
    have hlen : ∀ l : List TraceRow, (rowsOf l other).length = (newest l other).length :=
      fun l => (List.perm_insertionSort _ _).length_eq.symm
    by_cases hscope : other = scopeId
    · rw [hlen, hscope, newest_pruned h.nodup, List.length_take]
      omega
    · have hsince : sinceCut (.cut scopeId :: history) other = sinceCut history other := by
        unfold sinceCut
        rw [List.takeWhile_cons_of_pos (by simpa using fun heq => hscope heq.symm)]
        rfl
      rw [hlen, newest_pruned_of_ne rows hscope, ← hlen, hsince]
      exact h.few other

/-- Every step keeps the table in accord with its history. -/
theorem kept_step {s s' : State} {history : List Event} {a : Action}
    (h : Kept encode s.rows history) (hstep : step encode s a = some s') :
    Kept encode s'.rows (events encode s a ++ history) := by
  cases a with
  | insert scopeId trace fails =>
    cases hbody : insertedBody encode s trace fails with
    | none =>
      simp only [step, hbody, Option.some.injEq] at hstep
      subst hstep
      simpa [events, hbody] using h
    | some body =>
      simp only [step, hbody, Option.some.injEq] at hstep
      subst hstep
      simpa [events, hbody] using kept_saved h hbody
  | prune scopeId fails =>
    simp only [step, Option.ite_none_right_eq_some, Option.some.injEq] at hstep
    obtain ⟨-, rfl⟩ := hstep
    cases fails
    · exact kept_cut h scopeId
    · exact h
  | leave scopeId =>
    simp only [step, Option.ite_none_right_eq_some, Option.some.injEq] at hstep
    obtain ⟨-, rfl⟩ := hstep
    exact h

theorem kept_exec {s : State} {history : List Event} {as : List Action}
    (hrun : exec (recorded (step encode) (events encode)) ({}, []) as = some (s, history)) :
    Kept encode s.rows history := by
  have hinit : Kept encode [] [] :=
    ⟨List.nodup_nil, fun _ hp => absurd hp List.not_mem_nil, fun _ => rfl, fun _ => Nat.zero_le _⟩
  refine exec_invariant (fun t : State × List Event => Kept encode t.1.rows t.2) ?_ hinit hrun
  intro t a t' h hstep
  obtain ⟨hstep, hhistory⟩ := recorded_eq_some.mp hstep
  rw [hhistory]
  exact kept_step h hstep

end Steps

/-! ## The listing -/

/-- INTERNAL: the rows of a scope that was never pruned are those of its traces. -/
theorem newest_allRows (encode : AgentTrace → Option String) (history : List Event)
    (scopeId : String) : ∃ pairs : List (String × AgentTrace),
      newest (allRows encode history) scopeId = pairs.map (rowOf encode) ∧
      savedTraces history scopeId = pairs.map Prod.snd ∧
      ∀ p ∈ pairs, p ∈ history.filterMap Event.saved? := by
  let order := fun p q : String × AgentTrace =>
    Newer (p.2.startedAt, p.2.id) (q.2.startedAt, q.2.id)
  have hfilter : (allRows encode history).filter (fun row => row.scope = scopeId) =
      ((history.filterMap Event.saved?).filter fun p => p.1 = scopeId).map (rowOf encode) := by
    unfold allRows
    rw [List.filter_map]
    rfl
  refine ⟨((history.filterMap Event.saved?).filter fun p => p.1 = scopeId).insertionSort order,
    ?_, ?_, ?_⟩
  · unfold newest
    rw [hfilter]
    exact (List.map_insertionSort order _ (rowOf encode) _ fun _ _ _ _ => Iff.rfl).symm
  · exact (List.map_insertionSort order _ Prod.snd _ fun _ _ _ _ => Iff.rfl).symm
  · intro p hp
    exact (List.mem_filter.mp ((List.mem_insertionSort _).mp hp)).1

/-- **Pruning is invisible.** However the statements of any number of calls for any scopes
interleave, fail or stay away, a listing of at most as many traces as are kept gives the newest
of all the traces the database ever took for the scope, and the scope has no more rows than are
kept and came since its last deletion. -/
theorem listing_as_if_kept {encode : AgentTrace → Option String}
    {decode : String → Option AgentTrace}
    (hcodec : ∀ trace body, encode trace = some body → decode body = some trace)
    {as : List Action} {s : State} {history : List Event}
    (hrun : exec (recorded (step encode) (events encode)) ({}, []) as = some (s, history))
    (scopeId : String) :
    (∀ limit ≤ maxTraces, listTraces decode s.rows scopeId limit =
      (savedTraces history scopeId).take limit) ∧
    (rowsOf s.rows scopeId).length ≤ maxTraces + sinceCut history scopeId := by
  have hkept := kept_exec hrun
  refine ⟨?_, hkept.few scopeId⟩
  intro limit hlimit
  obtain ⟨pairs, hrows, htraces, hmem⟩ := newest_allRows encode history scopeId
  have hcut : (newest s.rows scopeId).take limit = (pairs.take limit).map (rowOf encode) := by
    have h := congrArg (List.take limit) (hkept.newest scopeId)
    rw [List.take_take, List.take_take, Nat.min_eq_left hlimit, hrows] at h
    rw [h, List.map_take]
  have hdecode : ∀ p ∈ pairs.take limit, decode (rowOf encode p).body = some p.2 := by
    intro p hp
    obtain ⟨body, hbody⟩ := Option.isSome_iff_exists.mp
      (hkept.encoded p (hmem p (List.mem_of_mem_take hp)))
    have htext : (rowOf encode p).body = body := by
      change (encode p.2).getD "" = body
      rw [hbody]
      rfl
    rw [htext]
    exact hcodec p.2 body hbody
  rw [listTraces, hcut, htraces, List.filterMap_map, ← List.map_take, ← List.filterMap_eq_map]
  exact List.filterMap_congr hdecode

/-- Two runs of one user, the second of which ends while the first has yet to delete. -/
theorem listing_as_if_kept_of_two :
    let trace (id startedAt : String) : AgentTrace :=
      { id := id, kind := .query, input := "q", startedAt := startedAt, durationMs := 7
        steps := [], answer := "a", notationLine := "✓", outcome := .success }
    let text (id startedAt : String) : String :=
      "\x7b\"id\":\"" ++ id ++ "\",\"kind\":\"query\",\"input\":\"q\",\"started_at\":\"" ++
        startedAt ++ "\",\"duration_ms\":7,\"steps\":[],\"answer\":\"a\",\"notation\":\"✓\"," ++
        "\"outcome\":\"success\"\x7d"
    let first := trace "1-0000" "2026-01-01T00:00:00+00:00"
    let second := trace "2-0001" "2026-01-01T00:00:09+00:00"
    let firstText := text "1-0000" "2026-01-01T00:00:00+00:00"
    let secondText := text "2-0001" "2026-01-01T00:00:09+00:00"
    let encode := fun t => if t = first then some firstText else
      if t = second then some secondText else none
    let decode := fun body => if body = firstText then some first else
      if body = secondText then some second else none
    ∃ s, exec (step encode) {} [.insert "user:u" first false, .insert "user:u" second false,
        .prune "user:u" false, .prune "user:u" true] = some s ∧
      listTraces decode s.rows "user:u" 1 = [second] := by
  intro trace text first second firstText secondText encode decode
  have hcodec : ∀ t body, encode t = some body → decode body = some t := by
    intro t body h
    by_cases hfirst : t = first
    · simp only [encode, if_pos hfirst, Option.some.injEq] at h
      rw [← h, hfirst]
      exact if_pos rfl
    · by_cases hsecond : t = second
      · simp only [encode, if_neg hfirst, if_pos hsecond, Option.some.injEq] at h
        have hne : secondText ≠ firstText := by decide
        rw [← h, hsecond]
        simp only [decode, if_neg hne, if_true]
      · simp only [encode, if_neg hfirst, if_neg hsecond] at h
        cases h
  let s : State :=
    { rows := [second.row "user:u" secondText, first.row "user:u" firstText], saving := [] }
  let history : List Event :=
    [.cut "user:u", .saved "user:u" second, .saved "user:u" first]
  have hrun : exec (recorded (step encode) (events encode)) ({}, [])
      [.insert "user:u" first false, .insert "user:u" second false, .prune "user:u" false,
        .prune "user:u" true] = some (s, history) := by decide +kernel
  have hlist := (listing_as_if_kept hcodec hrun "user:u").1 1 (by decide)
  refine ⟨s, ?_, ?_⟩
  · rw [← exec_recorded (step encode) (events encode) ({}, []), hrun]
    rfl
  · rw [hlist]
    decide

end Mycelium.Analysis.TraceRetention
