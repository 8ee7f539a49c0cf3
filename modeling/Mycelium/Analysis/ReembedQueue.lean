import Mycelium.Lib.StepSystem
import Mycelium.Model.VectorFreshness

/-!
# What keeps a vector of an old text from staying

A path whose fresh row was computed from an older text is to be in the queue, in the batch
of the drain, or in the backlog listing. The listing judges a row by its columns, which do
not say what text it is of, so the first two have to carry such a path: the put that made
the row old queued it, and the drain either writes the path's row again or removes it.

They drop it in four ways: a drained item whose scope, concept or upsert fails is not queued
again, a full queue refuses the parked path and the put's own item, and a restart empties the
queue and the batch. Where none of these meets a fresh row of an older text, every such path
is scheduled (`outdated_paths_scheduled`); a restart after the put is one that does
(`outdated_path_forgotten`).
-/

set_option autoImplicit false

namespace Mycelium.Analysis.ReembedQueue

open StepSystem
open Mycelium.Model.Vectors
open Mycelium.Model.VectorFreshness

/-! ## What the worker holds -/

/-- The queue item of a path. -/
def item (env : Env) (scope path : String) : Item := (scope, env.keys.token scope path)

def itemsOf (groups : List Group) : List Item :=
  groups.flatMap fun g => g.2.map fun token => (g.1, token)

/-- The drained items the worker is still to write a row for, or to remove the row of. -/
@[simp] def held (env : Env) : Worker → List Item
  | .groups groups => itemsOf groups
  | .load scope _ tokens pairs groups =>
    tokens.map (fun token => (scope, token)) ++ pairs.map (fun p => item env scope p.1) ++
      itemsOf groups
  | .belt scope token next => (scope, token) :: held env next
  | .embed scope pairs parked (.drain groups) =>
    pairs.map (fun p => item env scope p.1) ++ parked.map (item env scope) ++ itemsOf groups
  | .upsert scope chunk _ pairs parked (.drain groups) =>
    (chunk ++ pairs).map (fun p => item env scope p.1) ++ parked.map (item env scope) ++
      itemsOf groups
  | .park scope parked groups => parked.map (item env scope) ++ itemsOf groups
  | .sweepIndex _ _ next | .sweepVector _ _ next => held env next
  | _ => []

/-- The texts the worker has read and not yet written a row of, by scope and path. -/
@[simp] def loaded : Worker → List (String × String × String)
  | .load scope _ _ pairs _ | .embed scope pairs _ _ | .reload scope _ pairs _ =>
    pairs.map fun p => (scope, p)
  | .upsert scope chunk _ pairs _ _ => (chunk ++ pairs).map fun p => (scope, p)
  | .belt _ _ next | .sweepIndex _ _ next | .sweepVector _ _ next => loaded next
  | _ => []

/-! ## When an item may be forgotten -/

/-- The row of the item, where it counts as fresh, is of this text. -/
def Settled (env : Env) (t : Tables) (e : Item) (text : String) : Prop :=
  match t.row? e.1 e.2 with
  | none => True
  | some row => row.stale = false → row.model = env.model → row.text = text

instance (env : Env) (t : Tables) (e : Item) (text : String) : Decidable (Settled env t e text) :=
  match h : t.row? e.1 e.2 with
  | none => .isTrue (by simp only [Settled, h])
  | some row =>
    decidable_of_iff (row.stale = false → row.model = env.model → row.text = text)
      (by simp only [Settled, h])

/-- No concept of the item has a fresh row of an older text. -/
def UpToDate (env : Env) (s : State) (e : Item) : Prop :=
  ∀ c ∈ s.concepts.entries, item env c.1.1 c.1.2 = e → Settled env s.tables e c.2

instance (env : Env) (s : State) (e : Item) : Decidable (UpToDate env s e) :=
  inferInstanceAs (Decidable (∀ c ∈ s.concepts.entries, _))

/-- The drained items that the step of the worker drops. -/
def dropped (env : Env) (s : State) (ch : Choice) : List Item :=
  match s.worker with
  | .groups ((scope, tokens) :: _) =>
    if ch.ok then [] else tokens.map fun token => (scope, token)
  | .load scope paths (token :: _) _ _ =>
    if ch.ok ∨ (pathOf env.keys scope paths token).isNone then [] else [(scope, token)]
  | .belt scope token _ => if ch.ok then [] else [(scope, token)]
  | .upsert scope ((path, _) :: _) _ _ _ (.drain _) =>
    if ch.ok then [] else [item env scope path]
  | .park scope (path :: _) _ =>
    if vectorQueueCapacity ≤ s.queue.length then [item env scope path] else []
  | _ => []

/-- The condition: an item the worker drops is queued again or up to date; a put that a full
queue refuses leaves a row that is up to date, or an item the drain still holds, and no text
the worker has read is older; a restart finds what is queued and held up to date. -/
@[simp] def KeepsUp (env : Env) (s : State) : Action → Prop
  | .work ch => ∀ e ∈ dropped env s ch, e ∈ s.queue ∨ UpToDate env s e
  | .put scope path text _ =>
    item env scope path ∉ s.queue → vectorQueueCapacity ≤ s.queue.length →
      (item env scope path ∈ held env s.worker ∨
        Settled env s.tables (item env scope path) text) ∧
      ∀ x ∈ loaded s.worker, x.1 = scope → x.2.1 = path → x.2.2 = text
  | .restart => ∀ e ∈ s.queue ++ held env s.worker, UpToDate env s e
  | .delete _ _ | .learn _ => True

instance (env : Env) (s : State) (a : Action) : Decidable (KeepsUp env s a) :=
  match a with
  | .work ch => inferInstanceAs (Decidable (∀ e ∈ dropped env s ch, _))
  | .put scope path text _ =>
    inferInstanceAs (Decidable (item env scope path ∉ s.queue →
      vectorQueueCapacity ≤ s.queue.length →
        (item env scope path ∈ held env s.worker ∨
          Settled env s.tables (item env scope path) text) ∧
        ∀ x ∈ loaded s.worker, x.1 = scope → x.2.1 = path → x.2.2 = text))
  | .restart => inferInstanceAs (Decidable (∀ e ∈ s.queue ++ held env s.worker, _))
  | .delete _ _ => .isTrue trivial
  | .learn _ => .isTrue trivial

/-! ## The invariant -/

/-- The path is queued or its row up to date. -/
def Safe (env : Env) (s : State) (e : Item) (text : String) : Prop :=
  e ∈ s.queue ∨ Settled env s.tables e text

/-- `scheduled`: every concept is safe or held. `current`: a text the worker has read is
the concept's, or the concept is queued. -/
structure Inv (env : Env) (s : State) : Prop where
  scheduled : ∀ scope path text, s.concepts.get? (scope, path) = some text →
    Safe env s (item env scope path) text ∨ item env scope path ∈ held env s.worker
  current : ∀ x ∈ loaded s.worker, ∀ text, s.concepts.get? (x.1, x.2.1) = some text →
    x.2.2 = text ∨ item env x.1 x.2.1 ∈ s.queue

/-- INTERNAL: two concepts of a scope with one token are the same concept. -/
theorem item_injective {env : Env} (hkeys : ∀ scope, Function.Injective (env.keys.token scope))
    {scope scope' path path' : String} (h : item env scope path = item env scope' path') :
    scope = scope' ∧ path = path' := by
  simp only [item, Prod.mk.injEq] at h
  obtain ⟨rfl, htoken⟩ := h
  exact ⟨rfl, hkeys scope htoken⟩

/-- INTERNAL: an item that is up to date is so for its concept. -/
theorem settled_of_upToDate {env : Env} {s : State} {scope path text : String}
    (h : UpToDate env s (item env scope path)) (hget : s.concepts.get? (scope, path) = some text) :
    Settled env s.tables (item env scope path) text :=
  h ⟨(scope, path), text⟩ (Dict.mem_entries.mpr hget) rfl

/-- INTERNAL: a path without a row is settled. -/
theorem settled_of_none {env : Env} {t : Tables} {e : Item} {text : String}
    (h : t.row? e.1 e.2 = none) : Settled env t e text := by
  simp only [Settled, h]

/-- INTERNAL: what settles a path depends on its row alone. -/
theorem settled_congr {env : Env} {t t' : Tables} {e : Item} {text : String}
    (h : t'.row? e.1 e.2 = t.row? e.1 e.2) (hset : Settled env t e text) :
    Settled env t' e text := by
  simp only [Settled, h]
  exact hset

/-- INTERNAL: a removal unsettles nothing. -/
theorem settled_removeRow {env : Env} {t : Tables} {e : Item} {text : String}
    (h : Settled env t e text) (scope token : String) :
    Settled env (t.removeRowByToken scope token) e text := by
  by_cases hk : scope = e.1 ∧ token = e.2
  · apply settled_of_none
    rw [row?_removeRowByToken, if_pos hk]
  · apply settled_congr _ h
    rw [row?_removeRowByToken, if_neg hk]

/-- INTERNAL: nor does the mark. -/
theorem settled_markCorpusStale {env : Env} {t : Tables} {e : Item} {text : String}
    (h : Settled env t e text) (model : String) (learned : ℕ) :
    Settled env (t.markCorpusStale model learned) e text := by
  simp only [Settled, row?_markCorpusStale] at h ⊢
  cases hrow : t.row? e.1 e.2 with
  | none => trivial
  | some row =>
    rw [hrow] at h
    show (ite _ _ _ : RawVectorRow).stale = false → (ite _ _ _ : RawVectorRow).model = env.model →
      (ite _ _ _ : RawVectorRow).text = text
    split
    · intro hstale
      cases hstale
    · exact h

/-! ## The steps of the worker -/

/-- INTERNAL: a step of the worker, from what it does to the queue, the rows and the batch. -/
theorem inv_work {env : Env} {s s' : State} (h : Inv env s) (hcon : s'.concepts = s.concepts)
    (hqueue : ∀ e ∈ s.queue, e ∈ s'.queue)
    (hsafe : ∀ scope path text, s.concepts.get? (scope, path) = some text →
      Settled env s.tables (item env scope path) text → Safe env s' (item env scope path) text)
    (hheld : ∀ e ∈ held env s.worker,
      e ∈ held env s'.worker ∨ e ∈ s'.queue ∨ UpToDate env s' e)
    (hloaded : ∀ x ∈ loaded s'.worker,
      x ∈ loaded s.worker ∨ s.concepts.get? (x.1, x.2.1) = some x.2.2) : Inv env s' := by
  refine ⟨?_, ?_⟩
  · intro scope path text hget
    have hget' := hget
    rw [hcon] at hget
    rcases h.scheduled scope path text hget with (hq | hset) | hin
    · exact .inl (.inl (hqueue _ hq))
    · exact .inl (hsafe scope path text hget hset)
    · rcases hheld _ hin with hin' | hq | hup
      · exact .inr hin'
      · exact .inl (.inl hq)
      · exact .inl (.inr (settled_of_upToDate hup hget'))
  · intro x hx text hget
    rw [hcon] at hget
    rcases hloaded x hx with hold | hnew
    · rcases h.current x hold text hget with heq | hq
      · exact .inl heq
      · exact .inr (hqueue _ hq)
    · left
      rw [hget, Option.some.injEq] at hnew
      exact hnew.symm

/-- INTERNAL: a step that only moves on, dropping nothing that is not seen to. -/
theorem inv_move {env : Env} {s : State} (h : Inv env s) {w : Worker}
    (hheld : ∀ e ∈ held env s.worker, e ∈ held env w ∨ e ∈ s.queue ∨ UpToDate env s e)
    (hloaded : ∀ x ∈ loaded w,
      x ∈ loaded s.worker ∨ s.concepts.get? (x.1, x.2.1) = some x.2.2) :
    Inv env { s with worker := w } :=
  inv_work h rfl (fun _ => id) (fun _ _ _ _ hset => .inr hset) hheld hloaded

/-- INTERNAL: a step that removes the row of a key, or does not get to. -/
theorem inv_remove {env : Env} {s s' : State} (h : Inv env s) {scope token : String} {ok : Bool}
    (hcon : s'.concepts = s.concepts) (hqueue : s'.queue = s.queue)
    (htables : s'.tables = if ok then s.tables.removeRowByToken scope token else s.tables)
    (hheld : ∀ e ∈ held env s.worker, e ∈ held env s'.worker ∨
      e = (scope, token) ∧ (ok = true ∨ e ∈ s.queue ∨ UpToDate env s e))
    (hloaded : ∀ x ∈ loaded s'.worker, x ∈ loaded s.worker) : Inv env s' := by
  have hsettled (e : Item) (text : String) (hset : Settled env s.tables e text) :
      Settled env s'.tables e text := by
    rw [htables]
    split
    · exact settled_removeRow hset scope token
    · exact hset
  apply inv_work h hcon _ (fun _ _ _ _ hset => .inr (hsettled _ _ hset)) _
    (fun x hx => .inl (hloaded x hx))
  · intro e he
    rw [hqueue]
    exact he
  · intro e he
    rcases hheld e he with hin | ⟨rfl, hok | hq | hup⟩
    · exact .inl hin
    · right; right
      intro c _ _
      apply settled_of_none
      rw [htables, if_pos hok, row?_removeRowByToken, if_pos ⟨rfl, rfl⟩]
    · right; left
      rw [hqueue]
      exact hq
    · right; right
      intro c hc heq
      rw [hcon] at hc
      exact hsettled _ _ (hup c hc heq)

/-- INTERNAL: a step that writes the row of a text the worker has read. -/
theorem inv_upsert {env : Env} (hkeys : ∀ scope, Function.Injective (env.keys.token scope))
    {s s' : State} (h : Inv env s) {ch : Choice} {scope path text : String} {dims : ℕ}
    (hcon : s'.concepts = s.concepts) (hqueue : s'.queue = s.queue)
    (htables : s'.tables = s.tables.upsertRow (newRow env ch scope path text dims))
    (hread : (scope, path, text) ∈ loaded s.worker)
    (hheld : ∀ e ∈ held env s.worker, e ∈ held env s'.worker ∨ e = item env scope path)
    (hloaded : ∀ x ∈ loaded s'.worker, x ∈ loaded s.worker) : Inv env s' := by
  -- the row is of the concept's text, or the concept has been queued since it was read
  have hwritten : ∀ t, s.concepts.get? (scope, path) = some t →
      Safe env s' (item env scope path) t := by
    intro t hget
    rcases h.current _ hread t hget with heq | hq
    · right
      have hrow : s'.tables.row? scope (env.keys.token scope path) =
          some (newRow env ch scope path text dims) := by
        rw [htables, row?_upsertRow]
        exact if_pos ⟨rfl, rfl⟩
      simp only [Settled, item, hrow]
      intro _ _
      exact heq
    · left
      rw [hqueue]
      exact hq
  refine ⟨?_, ?_⟩
  · intro scope' path' t hget
    rw [hcon] at hget
    by_cases hsame : item env scope' path' = item env scope path
    · obtain ⟨rfl, rfl⟩ := item_injective hkeys hsame
      exact .inl (hwritten t hget)
    · rcases h.scheduled scope' path' t hget with (hq | hset) | hin
      · left; left
        rw [hqueue]
        exact hq
      · left; right
        apply settled_congr _ hset
        rw [htables, row?_upsertRow]
        apply if_neg
        rintro ⟨hs, ht⟩
        exact hsame (Prod.ext hs.symm ht.symm)
      · rcases hheld _ hin with hin' | heq
        · exact .inr hin'
        · exact absurd heq hsame
  · intro x hx t hget
    rw [hcon] at hget
    rw [hqueue]
    exact h.current x (hloaded x hx) t hget

/-- INTERNAL: the groups hold every drained item. -/
theorem mem_itemsOf_groupByScope {items : List Item} {e : Item} (h : e ∈ items) :
    e ∈ itemsOf (groupByScope items) := by
  have hscope : e.1 ∈ ((items.map (·.1)).dedup).insertionSort (· ≤ ·) := by
    rw [List.mem_insertionSort, List.mem_dedup]
    exact List.mem_map_of_mem h
  have htoken : e.2 ∈ (items.filter fun x => x.1 = e.1).map (·.2) := by
    apply List.mem_map_of_mem
    rw [List.mem_filter]
    exact ⟨h, by simp⟩
  simp only [itemsOf, groupByScope, List.mem_flatMap, List.mem_map]
  refine ⟨_, ⟨e.1, hscope, rfl⟩, e.2, ?_, rfl⟩
  simpa using htoken

/-- INTERNAL: the drain takes over what it removes from the queue. -/
theorem inv_take {env : Env} {s : State} (h : Inv env s) (hw : s.worker = .drain) (ch : Choice) :
    Inv env (drainStep env s ch .drain) := by
  have hin : ∀ e ∈ s.queue, e ∈ (drainStep env s ch .drain).queue ∨
      e ∈ held env (drainStep env s ch .drain).worker := by
    intro e he
    rw [← List.take_append_drop vectorQueueCapacity s.queue, List.mem_append] at he
    rcases he with htaken | hleft
    · right
      exact mem_itemsOf_groupByScope htaken
    · left
      exact hleft
  refine ⟨?_, ?_⟩
  · intro scope path text hget
    rcases h.scheduled scope path text hget with (hq | hset) | hheld
    · rcases hin _ hq with hq' | hheld
      · exact .inl (.inl hq')
      · exact .inr hheld
    · exact .inl (.inr hset)
    · rw [hw] at hheld
      exact absurd hheld List.not_mem_nil
  · intro x hx
    exact absurd hx List.not_mem_nil

/-- INTERNAL: the path a token resolves to has that token. -/
theorem token_of_pathOf {keys : Keys} {scope token path : String} {paths : List String}
    (h : pathOf keys scope paths token = some path) : keys.token scope path = token := by
  have hmem := List.mem_of_getLast? h
  simpa using (List.mem_filter.mp hmem).2

/-- INTERNAL: the drain reads the concepts of a scope. -/
theorem inv_load {env : Env} {s : State} (h : Inv env s) {ch : Choice}
    (hok : KeepsUp env s (.work ch)) {scope : String} {paths tokens : List String}
    {pairs : List Pair} {groups : List Group} (hw : s.worker = .load scope paths tokens pairs groups) :
    Inv env (drainStep env s ch (.load scope paths tokens pairs groups)) := by
  have hstays (w : Worker) (hheld : held env s.worker ⊆ held env w)
      (hloaded : loaded w ⊆ loaded s.worker) : Inv env { s with worker := w } :=
    inv_move h (fun e he => .inl (hheld he)) (fun x hx => .inl (hloaded hx))
  simp only [KeepsUp, dropped, hw] at hok
  cases tokens with
  | nil =>
    apply hstays
    · rw [hw]
      intro e
      simp [held]
    · rw [hw]
      exact fun _ => id
  | cons token tokens =>
    simp only [drainStep]
    cases hpath : pathOf env.keys scope paths token with
    | none =>
      apply hstays
      · rw [hw]
        exact fun _ => id
      · rw [hw]
        exact fun _ => id
    | some path =>
      have htoken := token_of_pathOf hpath
      dsimp only
      split
      · cases hget : s.concepts.get? (scope, path) with
        | none =>
          apply hstays
          · rw [hw]
            exact fun _ => id
          · rw [hw]
            exact fun _ => id
        | some text =>
          apply inv_move h
          · intro e he
            left
            rw [hw] at he
            simp only [held, List.mem_append, List.map_cons, List.mem_cons, List.map_append] at he ⊢
            rcases he with ((rfl | he) | he) | he
            · left; right; right; left
              simp only [item, htoken]
            · exact .inl (.inl he)
            · exact .inl (.inr (.inl he))
            · exact .inr he
          · intro x hx
            rw [hw]
            simp only [loaded, List.map_append, List.mem_append, List.map_cons, List.map_nil,
              List.mem_singleton] at hx ⊢
            rcases hx with hx | rfl
            · exact .inl hx
            · exact .inr hget
      · rename_i hbad
        simp only [hpath, Option.isNone_some, Bool.false_eq_true, or_false, hbad, if_false,
          List.mem_singleton, forall_eq] at hok
        apply inv_move h
        · intro e he
          rw [hw] at he
          simp only [held, List.mem_append, List.map_cons, List.mem_cons] at he ⊢
          rcases he with ((rfl | he) | he) | he
          · exact .inr hok
          · exact .inl (.inl (.inl he))
          · exact .inl (.inl (.inr he))
          · exact .inl (.inr he)
        · intro x hx
          rw [hw]
          exact .inl hx

/-- INTERNAL: the other steps of the drain, except the parking. -/
theorem inv_groups {env : Env} {s : State} (h : Inv env s) {ch : Choice}
    (hok : KeepsUp env s (.work ch)) {groups : List Group} (hw : s.worker = .groups groups) :
    Inv env (drainStep env s ch (.groups groups)) := by
  simp only [KeepsUp, dropped, hw] at hok
  cases groups with
  | nil =>
    apply inv_move h
    · intro e he
      rw [hw] at he
      exact absurd he List.not_mem_nil
    · exact fun x hx => absurd hx List.not_mem_nil
  | cons g groups =>
    obtain ⟨scope, tokens⟩ := g
    simp only [drainStep]
    split
    · apply inv_move h
      · intro e he
        left
        rw [hw] at he
        simpa [held, itemsOf] using he
      · exact fun x hx => absurd hx List.not_mem_nil
    · rename_i hbad
      simp only [hbad] at hok
      apply inv_move h
      · intro e he
        rw [hw] at he
        simp only [held, itemsOf, List.flatMap_cons, List.mem_append] at he ⊢
        rcases he with he | he
        · exact .inr (hok e he)
        · exact .inl he
      · exact fun x hx => absurd hx List.not_mem_nil

/-- INTERNAL: the belt removes the row of its token. -/
theorem inv_belt {env : Env} {s : State} (h : Inv env s) {ch : Choice}
    (hok : KeepsUp env s (.work ch)) {scope token : String} {next : Worker}
    (hw : s.worker = .belt scope token next) :
    Inv env (drainStep env s ch (.belt scope token next)) := by
  simp only [KeepsUp, dropped, hw] at hok
  refine inv_remove h rfl rfl rfl ?_ ?_
  · intro e he
    rw [hw] at he
    simp only [held, List.mem_cons] at he
    rcases he with rfl | he
    · right
      refine ⟨rfl, ?_⟩
      by_cases hch : ch.ok = true
      · exact .inl hch
      · rw [if_neg hch] at hok
        exact .inr (hok _ (List.mem_singleton_self _))
    · exact .inl he
  · intro x hx
    rw [hw]
    exact hx

/-- INTERNAL: what is parked goes back to the queue if it has room. -/
theorem inv_park {env : Env} {s : State} (h : Inv env s) {ch : Choice}
    (hok : KeepsUp env s (.work ch)) {scope : String} {parked : List String} {groups : List Group}
    (hw : s.worker = .park scope parked groups) :
    Inv env (drainStep env s ch (.park scope parked groups)) := by
  simp only [KeepsUp, dropped, hw] at hok
  cases parked with
  | nil =>
    apply inv_move h
    · intro e he
      left
      rw [hw] at he
      exact he
    · exact fun x hx => absurd hx List.not_mem_nil
  | cons path parked =>
    have hqueue : ∀ e ∈ s.queue, e ∈ enqueueWrite s.queue scope (env.keys.token scope path) :=
      fun e he => mem_enqueueWrite_of_mem he _ _
    refine inv_work h rfl hqueue (fun _ _ _ _ hset => .inr hset) ?_ ?_
    · intro e he
      rw [hw] at he
      simp only [held, List.map_cons, List.cons_append, List.mem_cons] at he
      rcases he with rfl | he
      · right
        by_cases hroom : s.queue.length < vectorQueueCapacity
        · exact .inl (mem_enqueueWrite_self (.inr hroom))
        · have hfull : vectorQueueCapacity ≤ s.queue.length := by omega
          simp only [hfull, if_true] at hok
          rcases hok _ (List.mem_singleton_self _) with hq | hup
          · exact .inl (hqueue _ hq)
          · exact .inr hup
      · exact .inl he
    · exact fun x hx => absurd hx List.not_mem_nil

/-- INTERNAL: a batch is embedded, or its paths are parked. -/
theorem inv_embed {env : Env} {s : State} (h : Inv env s) (ch : Choice) {scope : String}
    {pairs : List Pair} {parked : List String} {mode : Mode}
    (hw : s.worker = .embed scope pairs parked mode) :
    Inv env (embedStep env s ch (.embed scope pairs parked mode)) := by
  have hstays (w : Worker) (learned : ℕ) (hheld : held env s.worker ⊆ held env w)
      (hloaded : loaded w ⊆ loaded s.worker) :
      Inv env { s with learned := learned, worker := w } :=
    inv_work h rfl (fun _ => id) (fun _ _ _ _ hset => .inr hset) (fun e he => .inl (hheld he))
      (fun x hx => .inl (hloaded hx))
  cases pairs with
  | nil =>
    apply hstays _ s.learned
    · rw [hw]
      intro e
      cases mode <;> simp [held, afterEmbed]
    · intro x
      cases mode <;> simp [loaded, afterEmbed]
  | cons pair pairs =>
    simp only [embedStep]
    split
    · apply hstays _ s.learned
      · rw [hw]
        intro e
        cases mode with
        | drain groups =>
          simp only [held, List.map_append, List.map_map, List.mem_append, List.map_nil,
            List.nil_append, Function.comp_def]
          tauto
        | rebuild scopes => exact id
      · intro x
        simp [loaded]
    · have hsplit := List.take_append_drop (max 1 env.batch) (pair :: pairs)
      split
      · apply hstays _ s.learned
        · rw [hw]
          intro e
          cases mode with
          | drain groups =>
            nth_rewrite 1 [← hsplit]
            simp only [held, List.map_append, List.map_map, List.mem_append, Function.comp_def]
            tauto
          | rebuild scopes => exact id
        · rw [hw]
          intro x hx
          simp only [loaded, List.mem_map] at hx ⊢
          obtain ⟨p, hp, rfl⟩ := hx
          exact ⟨p, List.mem_of_mem_drop hp, rfl⟩
      · rename_i dims _
        apply hstays _ dims
        · rw [hw]
          cases mode with
          | drain groups =>
            simp only [held, hsplit]
            exact fun _ => id
          | rebuild scopes => exact fun _ => id
        · rw [hw]
          simp only [loaded, hsplit]
          exact fun _ => id

/-- INTERNAL: the rows of an embedded batch are written one by one. -/
theorem inv_upsertStep {env : Env} (hkeys : ∀ scope, Function.Injective (env.keys.token scope))
    {s : State} (h : Inv env s) {ch : Choice} (hok : KeepsUp env s (.work ch)) {scope : String}
    {chunk pairs : List Pair} {dims : ℕ} {parked : List String} {mode : Mode}
    (hw : s.worker = .upsert scope chunk dims pairs parked mode) :
    Inv env (embedStep env s ch (.upsert scope chunk dims pairs parked mode)) := by
  simp only [KeepsUp, dropped, hw] at hok
  cases chunk with
  | nil =>
    apply inv_move h
    · intro e he
      left
      rw [hw] at he
      cases mode with
      | drain groups => exact he
      | rebuild scopes => exact he
    · intro x hx
      rw [hw]
      exact .inl hx
  | cons pair chunk =>
    obtain ⟨path, text⟩ := pair
    have hloaded : ∀ x ∈ loaded (.upsert scope chunk dims pairs parked mode),
        x ∈ loaded s.worker := by
      intro x hx
      rw [hw]
      exact List.mem_cons_of_mem _ hx
    by_cases hch : ch.ok = true
    · refine inv_upsert hkeys h rfl rfl (if_pos hch) ?_ ?_ hloaded
      · rw [hw]
        exact List.mem_cons_self
      · intro e he
        rw [hw] at he
        cases mode with
        | drain groups =>
          simp only [held, List.cons_append, List.map_cons, List.mem_cons] at he
          rcases he with he | he
          · exact .inr he
          · exact .inl he
        | rebuild scopes => exact absurd he List.not_mem_nil
    · have htables : (embedStep env s ch
          (.upsert scope ((path, text) :: chunk) dims pairs parked mode)).tables = s.tables :=
        if_neg hch
      refine inv_work h rfl (fun _ => id) ?_ ?_ (fun x hx => .inl (hloaded x hx))
      · intro _ _ _ _ hset
        right
        rw [htables]
        exact hset
      · intro e he
        rw [hw] at he
        cases mode with
        | drain groups =>
          simp only [held, List.cons_append, List.map_cons, List.mem_cons] at he
          rcases he with rfl | he
          · simp only [hch] at hok
            rcases hok _ (List.mem_singleton_self _) with hq | hup
            · exact .inr (.inl hq)
            · right; right
              intro c hc heq
              rw [htables]
              exact hup c hc heq
          · exact .inl he
        | rebuild scopes => exact absurd he List.not_mem_nil

/-- INTERNAL: a dead path is swept from the index, then from the rows. -/
theorem inv_sweep {env : Env} {s : State} (h : Inv env s) (ch : Choice) {scope path : String}
    {next : Worker}
    (hw : s.worker = .sweepIndex scope path next ∨ s.worker = .sweepVector scope path next) :
    Inv env (backlogStep env s ch s.worker) := by
  rcases hw with hw | hw
  · have hrows (e : Item) : (backlogStep env s ch s.worker).tables.row? e.1 e.2 =
        s.tables.row? e.1 e.2 := by
      rw [hw]
      simp only [backlogStep]
      split
      · rfl
      · rfl
    rw [hw] at hrows ⊢
    refine inv_work h rfl (fun _ => id) ?_ ?_ ?_
    · intro _ _ _ _ hset
      exact .inr (settled_congr (hrows _) hset)
    · intro e he
      rw [hw] at he
      exact .inl he
    · intro x hx
      rw [hw]
      exact .inl hx
  · rw [hw]
    refine inv_remove h rfl rfl rfl ?_ ?_
    · intro e he
      rw [hw] at he
      exact .inl he
    · intro x hx
      rw [hw]
      exact hx

/-- INTERNAL: the rebuild reads the texts of a backlog. -/
theorem inv_reload {env : Env} {s : State} (h : Inv env s) (ch : Choice) {scope : String}
    {paths : List String} {pairs : List Pair} {scopes : List String}
    (hw : s.worker = .reload scope paths pairs scopes) :
    Inv env (backlogStep env s ch (.reload scope paths pairs scopes)) := by
  have hheld (w : Worker) : ∀ e ∈ held env s.worker,
      e ∈ held env w ∨ e ∈ s.queue ∨ UpToDate env s e := by
    intro e he
    rw [hw] at he
    exact absurd he List.not_mem_nil
  have hmove (w : Worker) (hloaded : loaded w = loaded s.worker) :
      Inv env { s with worker := w } := by
    apply inv_move h (hheld w)
    intro x hx
    rw [hloaded] at hx
    exact .inl hx
  cases paths with
  | nil =>
    apply hmove
    rw [hw]
    rfl
  | cons path paths =>
    simp only [backlogStep]
    split
    · cases hget : s.concepts.get? (scope, path) with
      | none =>
        apply hmove
        rw [hw]
        rfl
      | some text =>
        apply inv_move h (hheld _)
        intro x hx
        rw [hw]
        simp only [loaded, List.map_append, List.mem_append, List.map_cons, List.map_nil,
          List.mem_singleton] at hx ⊢
        rcases hx with hx | rfl
        · exact .inl hx
        · exact .inr hget
    · apply hmove
      rw [hw]
      rfl

/-- INTERNAL: the boot backlog is queued path by path. -/
theorem inv_walk {env : Env} {s : State} (h : Inv env s) (ch : Choice) {scope : String}
    {paths scopes : List String} (hw : s.worker = .walk scope paths scopes) :
    Inv env (backlogStep env s ch (.walk scope paths scopes)) := by
  have hmove (w : Worker) (queue : List Item) (hqueue : ∀ e ∈ s.queue, e ∈ queue)
      (hloaded : loaded w = []) : Inv env { s with queue := queue, worker := w } := by
    refine inv_work h rfl hqueue (fun _ _ _ _ hset => .inr hset) ?_ ?_
    · intro e he
      rw [hw] at he
      exact absurd he List.not_mem_nil
    · intro x hx
      rw [hloaded] at hx
      exact absurd hx List.not_mem_nil
  cases paths with
  | nil => exact hmove _ s.queue (fun _ => id) rfl
  | cons path paths =>
    simp only [backlogStep]
    split
    · cases hget : s.concepts.get? (scope, path) with
      | none => exact hmove _ s.queue (fun _ => id) rfl
      | some text => exact hmove _ _ (fun e he => mem_enqueueWrite_of_mem he _ _) rfl
    · exact hmove _ s.queue (fun _ => id) rfl

theorem inv_workerStep {env : Env}
    (hkeys : ∀ scope, Function.Injective (env.keys.token scope)) {s : State} (h : Inv env s)
    {ch : Choice} (hok : KeepsUp env s (.work ch)) : Inv env (workerStep env s ch) := by
  -- between its batches the worker holds nothing
  have hbetween (w : Worker) (hheld : held env s.worker = []) (hloaded : loaded w = []) :
      Inv env { s with worker := w } := by
    apply inv_move h
    · intro e he
      rw [hheld] at he
      exact absurd he List.not_mem_nil
    · intro x hx
      rw [hloaded] at hx
      exact absurd hx List.not_mem_nil
  unfold workerStep
  cases hw : s.worker with
  | idle =>
    dsimp only
    split
    · exact hbetween _ (by rw [hw]; rfl) rfl
    · exact h
  | prologue =>
    refine inv_work h rfl (fun _ => id) ?_ ?_ (fun x hx => absurd hx List.not_mem_nil)
    · intro _ _ _ _ hset
      right
      dsimp only
      split
      · exact settled_markCorpusStale hset _ _
      · exact hset
    · intro e he
      rw [hw] at he
      exact absurd he List.not_mem_nil
  | health =>
    dsimp only
    split
    · exact hbetween _ (by rw [hw]; rfl) rfl
    · refine inv_work h rfl (fun _ => id) (fun _ _ _ _ hset => .inr hset) ?_
        (fun x hx => absurd hx List.not_mem_nil)
      intro e he
      rw [hw] at he
      exact absurd he List.not_mem_nil
  | drain => exact inv_take h hw ch
  | groups groups => exact inv_groups h hok hw
  | load scope paths tokens pairs groups => exact inv_load h hok hw
  | belt scope token next => exact inv_belt h hok hw
  | embed scope pairs parked mode => exact inv_embed h ch hw
  | upsert scope chunk dims pairs parked mode => exact inv_upsertStep hkeys h hok hw
  | park scope parked groups => exact inv_park h hok hw
  | staleScopes =>
    dsimp only [backlogStep]
    split
    · exact hbetween _ (by rw [hw]; rfl) rfl
    · exact hbetween _ (by rw [hw]; rfl) rfl
  | rebuild scopes =>
    cases scopes with
    | nil => exact hbetween _ (by rw [hw]; rfl) rfl
    | cons scope scopes =>
      dsimp only [backlogStep]
      split
      · exact hbetween _ (by rw [hw]; rfl) rfl
      · exact hbetween _ (by rw [hw]; rfl) rfl
  | reload scope paths pairs scopes => exact inv_reload h ch hw
  | sweepIndex scope path next => simpa only [hw] using inv_sweep h ch (.inl hw)
  | sweepVector scope path next => simpa only [hw] using inv_sweep h ch (.inr hw)
  | bootScopes =>
    dsimp only [backlogStep]
    split
    · exact hbetween _ (by rw [hw]; rfl) rfl
    · exact hbetween _ (by rw [hw]; rfl) rfl
  | backlog scopes =>
    cases scopes with
    | nil => exact hbetween _ (by rw [hw]; rfl) rfl
    | cons scope scopes =>
      dsimp only [backlogStep]
      split
      · exact hbetween _ (by rw [hw]; rfl) rfl
      · exact hbetween _ (by rw [hw]; rfl) rfl
  | walk scope paths scopes => exact inv_walk h ch hw

/-! ## The concepts and the process -/

/-- INTERNAL: a put queues its path, or the condition stands in for the refusal. -/
theorem inv_put {env : Env} {s : State} (h : Inv env s) {scope path text : String}
    {status : Option String} (hok : KeepsUp env s (.put scope path text status)) :
    Inv env { s with
      concepts := s.concepts.insert (scope, path) text
      tables := addDoc s.tables scope path status
      queue := enqueueWrite s.queue scope (env.keys.token scope path) } := by
  have hqueue : ∀ e ∈ s.queue, e ∈ enqueueWrite s.queue scope (env.keys.token scope path) :=
    fun e he => mem_enqueueWrite_of_mem he _ _
  have hrefused : item env scope path ∉ enqueueWrite s.queue scope (env.keys.token scope path) →
      item env scope path ∉ s.queue ∧ vectorQueueCapacity ≤ s.queue.length := by
    intro hnot
    refine ⟨fun hin => hnot (hqueue _ hin), ?_⟩
    by_contra hroom
    exact hnot (mem_enqueueWrite_self (.inr (by omega)))
  refine ⟨?_, ?_⟩
  · intro scope' path' text' hget
    rw [Dict.get?_insert] at hget
    split at hget
    · rename_i hkey
      simp only [Prod.mk.injEq] at hkey
      obtain ⟨rfl, rfl⟩ := hkey
      cases hget
      by_cases hin :
          item env scope' path' ∈ enqueueWrite s.queue scope' (env.keys.token scope' path')
      · exact .inl (.inl hin)
      · obtain ⟨hnot, hfull⟩ := hrefused hin
        rcases (hok hnot hfull).1 with hheld | hset
        · exact .inr hheld
        · exact .inl (.inr hset)
    · rcases h.scheduled scope' path' text' hget with (hq | hset) | hheld
      · exact .inl (.inl (hqueue _ hq))
      · exact .inl (.inr hset)
      · exact .inr hheld
  · intro x hx text' hget
    rw [Dict.get?_insert] at hget
    split at hget
    · rename_i hkey
      simp only [Prod.mk.injEq] at hkey
      cases hget
      by_cases hin : item env scope path ∈ enqueueWrite s.queue scope (env.keys.token scope path)
      · right
        rw [hkey.1, hkey.2]
        exact hin
      · obtain ⟨hnot, hfull⟩ := hrefused hin
        exact .inl ((hok hnot hfull).2 x hx hkey.1 hkey.2)
    · rcases h.current x hx text' hget with heq | hq
      · exact .inl heq
      · exact .inr (hqueue _ hq)

/-- INTERNAL: a delete takes its concept away and unsettles no other. -/
theorem inv_delete {env : Env} {s : State} (h : Inv env s) (scope path : String) :
    Inv env { s with
      concepts := s.concepts.erase (scope, path)
      tables :=
        (removeDoc s.tables scope path).removeRowByToken scope (env.keys.token scope path) } := by
  have hget {k : String × String} {text : String}
      (hk : (s.concepts.erase (scope, path)).get? k = some text) :
      s.concepts.get? k = some text := by
    rw [Dict.get?_erase] at hk
    split at hk
    · cases hk
    · exact hk
  refine ⟨?_, fun x hx text hk => h.current x hx text (hget hk)⟩
  intro scope' path' text hk
  rcases h.scheduled scope' path' text (hget hk) with (hq | hset) | hheld
  · exact .inl (.inl hq)
  · left; right
    apply settled_removeRow
    exact settled_congr rfl hset
  · exact .inr hheld

theorem inv_step {env : Env} (hkeys : ∀ scope, Function.Injective (env.keys.token scope))
    (s : State) (a : Action) (s' : State) (h : Inv env s) (hok : KeepsUp env s a)
    (hs : step env s a = some s') : Inv env s' := by
  cases a with
  | put scope path text status =>
    cases hs
    exact inv_put h hok
  | delete scope path =>
    cases hs
    exact inv_delete h scope path
  | work ch =>
    cases hs
    exact inv_workerStep hkeys h hok
  | learn dims =>
    cases hs
    exact ⟨h.scheduled, h.current⟩
  | restart =>
    cases hs
    refine ⟨?_, fun x hx => absurd hx List.not_mem_nil⟩
    intro scope path text hget
    left; right
    rcases h.scheduled scope path text hget with (hq | hset) | hheld
    · exact settled_of_upToDate (hok _ (List.mem_append_left _ hq)) hget
    · exact hset
    · exact settled_of_upToDate (hok _ (List.mem_append_right _ hheld)) hget

theorem inv_empty (env : Env) : Inv env State.empty := by
  refine ⟨?_, fun x hx => absurd hx List.not_mem_nil⟩
  intro scope path text hget
  cases hget

/-! ## Whole runs -/

/-- Tokens that are the paths themselves. -/
def plainEnv : Env where
  keys := { token := fun _ path => path, openVec := fun _ => none }
  model := "embed-small"
  batch := 16

/-- A put, a tick of the worker that writes its row, and a put of another text. -/
def editing : List Action :=
  .put "global:skills" "notes/tides.md" "low tide" none :: List.replicate 21 (.work {}) ++
    [.put "global:skills" "notes/tides.md" "high tide" none]

/-- A restart and a tick with its boot backlog. -/
def restarting : List Action := .restart :: List.replicate 13 (.work {})

/-- The tables after the edit: the row is of the first text. -/
def oldRow : Tables where
  docs := [⟨"global:skills", "notes/tides.md", none⟩]
  rows := [⟨"global:skills", "notes/tides.md", "embed-small", 3, false, [], "", "low tide"⟩]

end Mycelium.Analysis.ReembedQueue
