import Mycelium.Model.HotMemory
import Mycelium.Lib.StepSystem

/-!
# What hot memory keeps

1. *What should be there.* `writtenAt` and `standingQas` read off a scope's events what was
   recorded and has not been taken out since; `Kept` says that a set holds all of it that has
   not expired.
2. *The records* keep it (`kept_apply`): what the bounds push out is an event of its own.
3. *The calls.* A record holds the set between its two locks, so no other one may come in
   between; a lookup does not put back what it took, so it may only take what has expired
   (`Careful`). Where all calls are careful every set stays complete (`hot_set_kept`).
4. *Without the condition* one lookup empties the set (`lookup_loses_concept`), and of two
   writes at once one is lost (`second_write_lost`).
-/

set_option autoImplicit false

namespace Mycelium.Analysis.HotSetKeeping

open StepSystem
open Mycelium.Model.HotMemory Mycelium.Model.Concepts

/-! ## What should be there -/

def Fresh (now time : ℕ) : Prop := now - time ≤ ttl

instance (now time : ℕ) : Decidable (Fresh now time) := Nat.decLe _ _

/-- What an event says about a path: when it was written, or that it is gone. -/
def concern (path : String) (known : Option ℕ) : Event → Option ℕ
  | .wrote q time => if q = path then some time else known
  | .evicted q | .deleted q | .unreadable q => if q = path then none else known
  | .asked _ | .qaEvicted _ | .purged => known

/-- When the path was last written, if nothing has taken it out since. -/
def writtenAt (log : List Event) (path : String) : Option ℕ := log.foldl (concern path) none

def standing (qas : List HotQa) : Event → List HotQa
  | .asked qa => qas ++ [qa]
  | .qaEvicted qa => qas.erase qa
  | .purged => []
  | .wrote .. | .evicted _ | .deleted _ | .unreadable _ => qas

/-- The pairs recorded and neither evicted nor purged since. -/
def standingQas (log : List Event) : List HotQa := log.foldl standing []

/-- The set holds what should be there and has not expired, a pair as often as it stands. -/
structure Kept (now : ℕ) (log : List Event) (st : HotScopeState) : Prop where
  concepts : ∀ path time, writtenAt log path = some time → Fresh now time →
    (path, time) ∈ st.concepts
  qas : ((standingQas log).filter fun qa => Fresh now qa.time).Sublist st.qas

theorem kept_init (now : ℕ) : Kept now [] {} := by
  refine ⟨?_, List.Sublist.refl _⟩
  intro path time h
  cases h

/-- INTERNAL: what has expired stays so. -/
theorem Fresh.of_le {now now' time : ℕ} (hle : now ≤ now') (h : Fresh now' time) :
    Fresh now time := by
  unfold Fresh at *
  omega

theorem kept_mono {now now' : ℕ} (hle : now ≤ now') {log : List Event} {st : HotScopeState}
    (h : Kept now log st) : Kept now' log st where
  concepts path time hwritten hfresh := h.concepts path time hwritten (hfresh.of_le hle)
  qas := by
    have hfewer : ((standingQas log).filter fun qa => Fresh now' qa.time).Sublist
        ((standingQas log).filter fun qa => Fresh now qa.time) := by
      apply List.monotone_filter_right
      intro qa hqa
      have hqa' : Fresh now' qa.time := of_decide_eq_true hqa
      exact decide_eq_true (hqa'.of_le hle)
    exact hfewer.trans h.qas

/-- A set is complete as well when it is empty and the other one has expired. -/
theorem kept_of_expired {now : ℕ} {log : List Event} {st : HotScopeState} (h : Kept now log st)
    (hconcepts : ∀ e ∈ st.concepts, ¬ Fresh now e.2) (hqas : ∀ qa ∈ st.qas, ¬ Fresh now qa.time) :
    Kept now log {} where
  concepts path time hwritten hfresh :=
    absurd hfresh (hconcepts _ (h.concepts path time hwritten hfresh))
  qas := by
    have hnone : ((standingQas log).filter fun qa => Fresh now qa.time) = [] := by
      apply List.filter_eq_nil_iff.mpr
      intro qa hqa hfresh
      have hin := h.qas.subset (List.mem_filter.mpr ⟨hqa, hfresh⟩)
      exact hqas qa hin (of_decide_eq_true hfresh)
    rw [hnone]

/-! ## The records -/

/-- INTERNAL: what evictions leave of a path. -/
theorem foldl_evicted {path : String} {known : Option ℕ} {gone : List (String × ℕ)} {time : ℕ}
    (h : (gone.map fun e => Event.evicted e.1).foldl (concern path) known = some time) :
    known = some time ∧ ∀ e ∈ gone, e.1 ≠ path := by
  induction gone generalizing known with
  | nil => exact ⟨h, by simp⟩
  | cons e gone ih =>
    rw [List.map_cons, List.foldl_cons] at h
    obtain ⟨hknown, hrest⟩ := ih h
    by_cases he : e.1 = path
    · simp only [concern, he, if_true] at hknown
      cases hknown
    · simp only [concern, he, if_false] at hknown
      refine ⟨hknown, ?_⟩
      intro e' he'
      rcases List.mem_cons.mp he' with rfl | he'
      · exact he
      · exact hrest e' he'

/-- INTERNAL: evictions and purges say nothing else. -/
theorem foldl_standing_evicted (qas : List HotQa) (gone : List (String × ℕ)) :
    (gone.map fun e => Event.evicted e.1).foldl standing qas = qas := by
  induction gone with
  | nil => rfl
  | cons e gone ih => exact ih

theorem kept_recordHotWrite {now : ℕ} {log : List Event} {st : HotScopeState}
    (h : Kept now log st) (path : String) (time : ℕ) :
    Kept now (log ++ (recordHotWrite st path time).2) (recordHotWrite st path time).1 where
  concepts q touched hwritten hfresh := by
    simp only [recordHotWrite] at hwritten ⊢
    simp only [writtenAt, List.foldl_append, List.foldl_cons, List.foldl_nil] at hwritten
    obtain ⟨hknown, hgone⟩ := foldl_evicted (show _ = some touched from hwritten)
    -- the entry is among those before the eviction, and the eviction does not take it
    have hall : (q, touched) ∈ st.concepts.filter (fun e => e.1 ≠ path) ++ [(path, time)] := by
      by_cases hq : path = q
      · simp only [concern, hq, if_true] at hknown
        cases hknown
        simp [hq]
      · simp only [concern, hq, if_false] at hknown
        apply List.mem_append_left
        have hne : decide (q ≠ path) = true := decide_eq_true (Ne.symm hq)
        exact List.mem_filter.mpr ⟨h.concepts q touched hknown hfresh, hne⟩
    rw [← List.take_append_drop ((st.concepts.filter (fun e => e.1 ≠ path) ++
      [(path, time)]).length - maxConcepts) (st.concepts.filter (fun e => e.1 ≠ path) ++
      [(path, time)])] at hall
    apply (List.mem_append.mp hall).resolve_left
    intro hin
    exact hgone _ hin rfl
  qas := by
    have hpurged : standingQas (log ++ (recordHotWrite st path time).2) = [] := by
      simp only [standingQas, recordHotWrite, List.foldl_append, List.foldl_cons, List.foldl_nil,
        standing]
    rw [hpurged]
    exact List.nil_sublist _

theorem kept_recordHotDelete {now : ℕ} {log : List Event} {st : HotScopeState}
    (h : Kept now log st) (path : String) :
    Kept now (log ++ (recordHotDelete st path).2) (recordHotDelete st path).1 where
  concepts q touched hwritten hfresh := by
    simp only [recordHotDelete] at hwritten ⊢
    simp only [writtenAt, List.foldl_append, List.foldl_cons, List.foldl_nil, concern] at hwritten
    split at hwritten
    · cases hwritten
    · rename_i hq
      have hne : decide (q ≠ path) = true := decide_eq_true (Ne.symm hq)
      exact List.mem_filter.mpr ⟨h.concepts q touched hwritten hfresh, hne⟩
  qas := by
    have hpurged : standingQas (log ++ (recordHotDelete st path).2) = [] := by
      simp only [standingQas, recordHotDelete, List.foldl_append, List.foldl_cons, List.foldl_nil,
        standing]
    rw [hpurged]
    exact List.nil_sublist _

/-- INTERNAL: what stands after evictions is in what they leave of the set. -/
theorem sublist_evicted {p : HotQa → Bool} {stand gone rest : List HotQa}
    (h : (stand.filter p).Sublist (gone ++ rest)) :
    (((gone.map Event.qaEvicted).foldl standing stand).filter p).Sublist rest := by
  induction gone generalizing stand with
  | nil => exact h
  | cons qa gone ih =>
    apply ih
    have herased := h.erase qa
    rw [List.cons_append, List.erase_cons_head, List.erase_filter] at herased
    exact herased

/-- INTERNAL: evicted pairs say nothing about the paths. -/
theorem foldl_qaEvicted (path : String) (known : Option ℕ) (gone : List HotQa) :
    (gone.map Event.qaEvicted).foldl (concern path) known = known := by
  induction gone with
  | nil => rfl
  | cons qa gone ih => exact ih

theorem kept_recordHotQuery {now : ℕ} {log : List Event} {st : HotScopeState}
    (h : Kept now log st) (question answer : String) (time : ℕ) :
    Kept now (log ++ (recordHotQuery st question answer time).2)
      (recordHotQuery st question answer time).1 where
  concepts path touched hwritten hfresh := by
    simp only [recordHotQuery] at hwritten ⊢
    simp only [writtenAt, List.foldl_append, List.foldl_cons, concern, foldl_qaEvicted] at hwritten
    exact h.concepts path touched hwritten hfresh
  qas := by
    simp only [recordHotQuery, standingQas, List.foldl_append, List.foldl_cons]
    apply sublist_evicted
    rw [List.take_append_drop, standing, List.filter_append]
    exact h.qas.append List.filter_sublist

/-- **One record** leaves out nothing that its events do not tell of. -/
theorem kept_apply {now : ℕ} {log : List Event} {st : HotScopeState} (h : Kept now log st)
    (r : Record) (time : ℕ) : Kept now (log ++ (r.apply st time).2) (r.apply st time).1 := by
  cases r with
  | write path => exact kept_recordHotWrite h path time
  | delete path => exact kept_recordHotDelete h path
  | query question answer => exact kept_recordHotQuery h question answer time

/-! ## The calls -/

/-- The set that a recording call has in its hands. -/
def holds : Task → Option (String × HotScopeState)
  | .holding scope _ held | .stamped scope _ held _ => some (scope, held)
  | _ => none

/-- No recording call has the set of the scope in its hands. -/
def Unheld (s : State) (scope : String) : Prop := ∀ i st, holds (s.tasks i) ≠ some (scope, st)

/-- The set of a scope: what a recording call has in its hands, or what is in the map. -/
def HotSet (s : State) (scope : String) (st : HotScopeState) : Prop :=
  (∃ i, holds (s.tasks i) = some (scope, st)) ∨ (Unheld s scope ∧ st = s.stateFor scope)

/-- A record comes when no other one of its scope is between its two locks, and a lookup when
all that it takes has expired. -/
def Careful (s : State) : Action → Prop
  | .record _ scope _ => Unheld s scope
  | .lookup _ scope _ =>
    (∀ e ∈ (s.stateFor scope).concepts, ¬ Fresh s.now e.2) ∧
      ∀ qa ∈ (s.stateFor scope).qas, ¬ Fresh s.now qa.time
  | _ => True

/-- What a lookup that took what has expired has still to do. -/
def Idling (now : ℕ) : Task → Prop
  | .reading _ _ todo qas _ =>
    (∀ e ∈ todo, ¬ Fresh now e.2) ∧ ∀ qa ∈ qas, ¬ Fresh now qa.time
  | .dropping .. | .dropped .. => False
  | _ => True

structure Inv (s : State) : Prop where
  kept : ∀ scope st, HotSet s scope st → Kept s.now (s.log scope) st
  alone : ∀ i j scope st st', holds (s.tasks i) = some (scope, st) →
    holds (s.tasks j) = some (scope, st') → i = j
  idling : ∀ i, Idling s.now (s.tasks i)

/-! ### One step -/

/-- INTERNAL: the set of a scope is told by the map and by what is in the hands of the calls. -/
theorem hotSet_congr {s s' : State} (hholds : ∀ j, holds (s'.tasks j) = holds (s.tasks j))
    {scope : String} (hhot : s'.hot scope = s.hot scope) {st : HotScopeState} :
    HotSet s' scope st ↔ HotSet s scope st := by
  unfold HotSet Unheld State.stateFor
  simp only [hholds, hhot]

theorem idling_mono {now now' : ℕ} (hle : now ≤ now') {task : Task} (h : Idling now task) :
    Idling now' task := by
  cases task with
  | reading scope question todo qas sections =>
    refine ⟨fun e he hfresh => h.1 e he (hfresh.of_le hle), ?_⟩
    exact fun qa hqa hfresh => h.2 qa hqa (hfresh.of_le hle)
  | dropping => cases h
  | dropped => cases h
  | _ => trivial

theorem inv_init : Inv State.init where
  kept scope st hst := by
    have hempty : st = {} := by
      rcases hst with ⟨i, hi⟩ | ⟨-, hst⟩
      · cases hi
      · exact hst
    rw [hempty]
    exact kept_init _
  alone _ _ _ _ _ hi := by cases hi
  idling _ := trivial

theorem inv_tick {s : State} (h : Inv s) (d : ℕ) : Inv { s with now := s.now + d } where
  kept scope st hst := kept_mono (Nat.le_add_right _ _) (h.kept scope st hst)
  alone := h.alone
  idling i := idling_mono (Nat.le_add_right _ _) (h.idling i)

/-- INTERNAL: a call goes on with the same in its hands. -/
theorem inv_setTask {s : State} (h : Inv s) {i : ℕ} {task : Task}
    (hholds : holds task = holds (s.tasks i)) (hidling : Idling s.now task) :
    Inv (s.setTask i task) := by
  have hsame : ∀ j, holds ((s.setTask i task).tasks j) = holds (s.tasks j) := by
    intro j
    by_cases hj : j = i
    · subst hj
      simpa [State.setTask] using hholds
    · simp [State.setTask, hj]
  refine ⟨?_, ?_, ?_⟩
  · intro scope st hst
    exact h.kept scope st ((hotSet_congr hsame rfl).mp hst)
  · intro j k scope st st' hj hk
    rw [hsame] at hj hk
    exact h.alone j k scope st st' hj hk
  · intro j
    by_cases hj : j = i
    · subst hj
      simpa [State.setTask] using hidling
    · simpa [State.setTask, hj] using h.idling j

/-- INTERNAL: a call that does not run has nothing in its hands. -/
theorem holds_of_free {task : Task} (h : task = .idle ∨ ∃ answer, task = .finished answer) :
    holds task = none := by
  rcases h with rfl | ⟨answer, rfl⟩ <;> rfl

/-- **A record takes the set.** -/
theorem inv_record {s : State} (h : Inv s) {i : ℕ} {scope : String} (r : Record)
    (hfree : s.tasks i = .idle ∨ ∃ answer, s.tasks i = .finished answer)
    (hunheld : Unheld s scope) :
    Inv ((s.take scope).setTask i (.holding scope r (s.stateFor scope))) := by
  have hnone := holds_of_free hfree
  have hholds (j : ℕ) : holds (((s.take scope).setTask i
      (.holding scope r (s.stateFor scope))).tasks j) =
        if j = i then some (scope, s.stateFor scope) else holds (s.tasks j) := by
    by_cases hj : j = i
    · simp [State.setTask, hj, holds]
    · simp [State.setTask, State.take, hj]
  refine ⟨?_, ?_, ?_⟩
  · intro k st hst
    by_cases hk : k = scope
    · -- the set of the scope is what the call has taken
      subst hk
      have htaken : st = s.stateFor k := by
        rcases hst with ⟨j, hj⟩ | ⟨hno, -⟩
        · rw [hholds] at hj
          split at hj
          · cases hj
            rfl
          · exact absurd hj (hunheld j st)
        · exact absurd (hholds i) (by simpa using hno i (s.stateFor k))
      rw [htaken]
      exact h.kept k _ (.inr ⟨hunheld, rfl⟩)
    · -- the sets of the others are as they were
      apply h.kept k st
      rcases hst with ⟨j, hj⟩ | ⟨hno, hst⟩
      · rw [hholds] at hj
        split at hj
        · cases hj
          exact absurd rfl hk
        · exact .inl ⟨j, hj⟩
      · refine .inr ⟨?_, ?_⟩
        · intro j st' hj
          apply hno j st'
          rw [hholds]
          split
          · rename_i heq
            rw [heq, hnone] at hj
            cases hj
          · exact hj
        · rw [hst]
          simp [State.stateFor, State.setTask, State.take, hk]
  · intro j k key st st' hj hk
    rw [hholds] at hj hk
    split at hj
    · rename_i hji
      cases hj
      split at hk
      · rename_i hki
        rw [hji, hki]
      · exact absurd hk (hunheld k st')
    · split at hk
      · cases hk
        exact absurd hj (hunheld j st)
      · exact h.alone j k key st st' hj hk
  · intro j
    by_cases hj : j = i
    · simp [State.setTask, hj, Idling]
    · simpa [State.setTask, State.take, hj] using h.idling j

/-- **A lookup takes a set that has expired.** -/
theorem inv_lookup {s : State} (h : Inv s) {i : ℕ} {scope : String} (question : String)
    (hfree : s.tasks i = .idle ∨ ∃ answer, s.tasks i = .finished answer)
    (hconcepts : ∀ e ∈ (s.stateFor scope).concepts, ¬ Fresh s.now e.2)
    (hqas : ∀ qa ∈ (s.stateFor scope).qas, ¬ Fresh s.now qa.time) :
    Inv ((s.take scope).setTask i (.reading scope question (s.stateFor scope).concepts
      (s.stateFor scope).qas [])) := by
  have htake : Inv (s.take scope) := by
    refine ⟨?_, h.alone, h.idling⟩
    intro k st hst
    by_cases hk : k = scope
    · subst hk
      rcases hst with hheld | ⟨hno, hst⟩
      · exact h.kept k st (.inl hheld)
      · have hempty : st = {} := by simpa [State.take, State.stateFor] using hst
        rw [hempty]
        exact kept_of_expired (h.kept k _ (.inr ⟨hno, rfl⟩)) hconcepts hqas
    · have hhot : (s.take scope).hot k = s.hot k := by simp [State.take, hk]
      have hsame := @hotSet_congr s (s.take scope) (fun _ => rfl) k hhot st
      exact h.kept k st (hsame.mp hst)
  apply inv_setTask htake
  · have hnone : holds ((s.take scope).tasks i) = none := holds_of_free hfree
    rw [hnone]
    rfl
  · exact ⟨hconcepts, hqas⟩

/-- **A record puts the set back.** -/
theorem inv_put {s : State} (h : Inv s) {i : ℕ} {scope : String} {r : Record}
    {held : HotScopeState} {time : ℕ} (htask : s.tasks i = .stamped scope r held time) :
    Inv ((s.put scope (r.apply held time).1 (r.apply held time).2).setTask i (.finished none)) := by
  have hheld : holds (s.tasks i) = some (scope, held) := by
    rw [htask]
    rfl
  have hholds (j : ℕ) : holds (((s.put scope (r.apply held time).1
      (r.apply held time).2).setTask i (.finished none)).tasks j) =
        if j = i then none else holds (s.tasks j) := by
    by_cases hj : j = i
    · simp [State.setTask, hj, holds]
    · simp [State.setTask, State.put, hj]
  refine ⟨?_, ?_, ?_⟩
  · intro k st hst
    by_cases hk : k = scope
    · -- no other call has the set, so it is the one put back
      subst hk
      have hback : st = (r.apply held time).1 := by
        rcases hst with ⟨j, hj⟩ | ⟨-, hst⟩
        · rw [hholds] at hj
          split at hj
          · cases hj
          · rename_i hji
            exact absurd (h.alone j i k st held hj hheld) hji
        · simpa [State.stateFor, State.setTask, State.put] using hst
      rw [hback]
      show Kept s.now (if k = k then s.log k ++ (r.apply held time).2 else s.log k) _
      rw [if_pos rfl]
      exact kept_apply (h.kept k held (.inl ⟨i, hheld⟩)) r time
    · have hlog : ((s.put scope (r.apply held time).1 (r.apply held time).2).setTask i
          (.finished none)).log k = s.log k := by
        simp [State.setTask, State.put, hk]
      rw [hlog]
      apply h.kept k st
      rcases hst with ⟨j, hj⟩ | ⟨hno, hst⟩
      · rw [hholds] at hj
        split at hj
        · cases hj
        · exact .inl ⟨j, hj⟩
      · refine .inr ⟨?_, ?_⟩
        · intro j st' hj
          apply hno j st'
          rw [hholds]
          split
          · rename_i heq
            rw [heq, hheld] at hj
            cases hj
            exact absurd rfl hk
          · exact hj
        · rw [hst]
          simp [State.stateFor, State.setTask, State.put, hk]
  · intro j k key st st' hj hk
    rw [hholds] at hj hk
    split at hj
    · cases hj
    · split at hk
      · cases hk
      · exact h.alone j k key st st' hj hk
  · intro j
    by_cases hj : j = i
    · simp [State.setTask, hj, Idling]
    · simpa [State.setTask, State.put, hj] using h.idling j

/-- INTERNAL: the next step of a call. -/
theorem inv_taskStep {s : State} (h : Inv s) (i : ℕ) (ch : Choice) :
    Inv ((taskStep s ch (s.tasks i)).1.setTask i (taskStep s ch (s.tasks i)).2) := by
  have hidling := h.idling i
  cases htask : s.tasks i with
  | idle => exact inv_setTask h (by rw [htask]; rfl) trivial
  | holding scope r held => exact inv_setTask h (by rw [htask]; rfl) trivial
  | stamped scope r held time => exact inv_put h htask
  | reading scope question todo qas sections =>
    rw [htask] at hidling
    cases todo with
    | nil => exact inv_setTask h (by rw [htask]; rfl) trivial
    | cons e todo =>
      obtain ⟨path, touched⟩ := e
      -- the entry has expired, so it is passed over
      have hexpired : ttl < s.now - touched := by
        have hstale := hidling.1 (path, touched) List.mem_cons_self
        unfold Fresh at hstale
        omega
      simp only [taskStep, hexpired, if_true]
      apply inv_setTask h
      · rw [htask]
        rfl
      · exact ⟨fun e he => hidling.1 e (List.mem_cons_of_mem _ he), hidling.2⟩
  | dropping scope question path todo qas sections =>
    rw [htask] at hidling
    cases hidling
  | dropped scope question path held todo qas sections =>
    rw [htask] at hidling
    cases hidling
  | pairs question qas sections =>
    cases qas with
    | nil =>
      simp only [taskStep]
      split
      · exact inv_setTask h (by rw [htask]; rfl) trivial
      · exact inv_setTask h (by rw [htask]; rfl) trivial
    | cons qa qas =>
      simp only [taskStep]
      split
      · exact inv_setTask h (by rw [htask]; rfl) trivial
      · exact inv_setTask h (by rw [htask]; rfl) trivial
  | asking prompt => exact inv_setTask h (by rw [htask]; rfl) trivial
  | finished answer => exact inv_setTask h (by rw [htask]; rfl) trivial

theorem inv_step (s : State) (a : Action) (s' : State) (h : Inv s) (hok : Careful s a)
    (hs : step s a = some s') : Inv s' := by
  cases a with
  | tick d =>
    cases hs
    exact inv_tick h d
  | record i scope r =>
    simp only [step] at hs
    split at hs
    · rename_i hidle
      cases hs
      exact inv_record h r (.inl hidle) hok
    · rename_i answer hdone
      cases hs
      exact inv_record h r (.inr ⟨answer, hdone⟩) hok
    · cases hs
  | lookup i scope question =>
    simp only [step] at hs
    split at hs
    · rename_i hidle
      cases hs
      exact inv_lookup h question (.inl hidle) hok.1 hok.2
    · rename_i answer hdone
      cases hs
      exact inv_lookup h question (.inr ⟨answer, hdone⟩) hok.1 hok.2
    · cases hs
  | step i ch =>
    cases hs
    exact inv_taskStep h i ch
  | abandon i =>
    simp only [step] at hs
    split at hs
    · rename_i htask
      cases hs
      exact inv_setTask h (by rw [htask]; rfl) trivial
    · rename_i htask
      cases hs
      exact inv_setTask h (by rw [htask]; rfl) trivial
    · cases hs

/-- **Hot memory keeps what it was given**, in every run whose records of one scope do not
overlap and whose lookups only take what has expired. SOURCE: hot_memory.rs:48-181 -/
theorem hot_set_kept {as : List Action} {s : State} (hrun : exec step State.init as = some s)
    (hok : Meets step Careful State.init as) {scope : String} {st : HotScopeState}
    (hst : HotSet s scope st) : Kept s.now (s.log scope) st :=
  (exec_invariant_of_meets Inv inv_step inv_init hrun hok).kept scope st hst

/-! ## Runs -/

/-- The call an action belongs to. -/
def callOf : Action → Option ℕ
  | .tick _ => none
  | .record i .. | .lookup i .. | .step i _ | .abandon i => some i

theorem tasks_taskStep (s : State) (ch : Choice) (task : Task) :
    (taskStep s ch task).1.tasks = s.tasks := by
  unfold taskStep
  split
  all_goals first
    | rfl
    | (split
       · rfl
       · first | rfl | (split <;> rfl))

/-- INTERNAL: a step changes its own call. -/
theorem tasks_step {s s' : State} {a : Action} (hs : step s a = some s') {j : ℕ}
    (hj : callOf a ≠ some j) : s'.tasks j = s.tasks j := by
  have hset {s : State} {i : ℕ} (task : Task) (hi : some i ≠ some j) :
      (s.setTask i task).tasks j = s.tasks j := by
    have hne : j ≠ i := fun h => hi (congrArg some h.symm)
    simp [State.setTask, hne]
  cases a with
  | tick d =>
    cases hs
    rfl
  | step i ch =>
    cases hs
    rw [hset _ hj, tasks_taskStep]
  | record i scope r =>
    simp only [step] at hs
    split at hs
    · cases hs
      exact hset _ hj
    · cases hs
      exact hset _ hj
    · cases hs
  | lookup i scope question =>
    simp only [step] at hs
    split at hs
    · cases hs
      exact hset _ hj
    · cases hs
      exact hset _ hj
    · cases hs
  | abandon i =>
    simp only [step] at hs
    split at hs
    · cases hs
      exact hset _ hj
    · cases hs
      exact hset _ hj
    · cases hs

/-- INTERNAL: the calls of a run that are over, or were never made, hold nothing. -/
theorem unheld_of_exec {as : List Action} {s : State} (hrun : exec step State.init as = some s)
    (n : ℕ) (hcalls : ∀ a ∈ as, ∀ j, callOf a = some j → j < n)
    (hover : ∀ j < n, holds (s.tasks j) = none) (scope : String) : Unheld s scope := by
  have hidle (as : List Action) (s₀ : State) (hrun : exec step s₀ as = some s)
      (hcalls : ∀ a ∈ as, ∀ j, callOf a = some j → j < n) (j : ℕ) (hj : ¬ j < n) :
      s.tasks j = s₀.tasks j := by
    induction as generalizing s₀ with
    | nil =>
      cases hrun
      rfl
    | cons a as ih =>
      obtain ⟨s₁, hs, hrest⟩ := exec_cons_eq_some.mp hrun
      rw [ih s₁ hrest fun b hb => hcalls b (List.mem_cons_of_mem a hb)]
      apply tasks_step hs
      intro h
      exact hj (hcalls a List.mem_cons_self j h)
  intro j st hj
  by_cases h : j < n
  · rw [hover j h] at hj
    cases hj
  · rw [hidle as State.init hrun hcalls j h] at hj
    cases hj

def port : Concept where
  frontmatter := {}
  body := "8080"
  sourcePath := "/port.md"

/-- What a step of the lookup finds: the note, and a model that answers. -/
def found : Choice where
  read := fun _ => some port
  reply := some "8080"

/-- A write of the note, and a lookup that answers from it. -/
def writeThenLookup : List Action :=
  [.record 0 "user:1" (.write "/port.md"), .step 0 found, .step 0 found,
    .lookup 0 "user:1" "port?", .step 0 found, .step 0 found, .step 0 found, .step 0 found]

/-- What a run leaves of a scope, when the calls 0 and 1 are over. -/
def outcome (s : State) : Option (ℕ × List Event × HotScopeState) :=
  if (holds (s.tasks 0)).isSome || (holds (s.tasks 1)).isSome then none
  else some (s.now, s.log "user:1", s.stateFor "user:1")

theorem hotSet_of_outcome {as : List Action} {s : State} {now : ℕ} {log : List Event}
    {st : HotScopeState} (hrun : exec step State.init as = some s)
    (hcalls : ∀ a ∈ as, ∀ j, callOf a = some j → j < 2) (hout : outcome s = some (now, log, st)) :
    s.now = now ∧ s.log "user:1" = log ∧ HotSet s "user:1" st := by
  unfold outcome at hout
  split at hout
  · cases hout
  · rename_i hover
    simp only [Bool.or_eq_true, not_or, Bool.not_eq_true, Option.isSome_eq_false_iff,
      Option.isNone_iff_eq_none] at hover
    cases hout
    refine ⟨rfl, rfl, .inr ⟨?_, rfl⟩⟩
    apply unheld_of_exec hrun 2 hcalls
    intro j hj
    have hcases : j = 0 ∨ j = 1 := by omega
    rcases hcases with rfl | rfl
    · exact hover.1
    · exact hover.2

theorem lookup_loses_concept :
    ¬ ∀ (as : List Action) (s : State) (scope : String) (st : HotScopeState),
      exec step State.init as = some s → HotSet s scope st → Kept s.now (s.log scope) st := by
  intro hall
  obtain ⟨s, hrun, hout⟩ := Option.bind_eq_some_iff.mp
    (show (exec step State.init writeThenLookup).bind outcome =
      some (0, [.wrote "/port.md" 0, .purged], {}) by decide +kernel)
  obtain ⟨hnow, hlog, hst⟩ := hotSet_of_outcome hrun (by decide) hout
  have hkept := hall _ s "user:1" _ hrun hst
  rw [hnow, hlog] at hkept
  have hin := hkept.concepts "/port.md" 0 (by decide) (by decide)
  cases hin

/-- Two writes of one scope at once. -/
def overlappingWrites : List Action :=
  [.record 0 "user:1" (.write "/port.md"), .record 1 "user:1" (.write "/host.md"),
    .step 0 found, .step 0 found, .step 1 found, .step 1 found]

/-- Of two writes at once the one that is put back last stays. -/
theorem second_write_lost : ∃ s st, exec step State.init overlappingWrites = some s ∧
    HotSet s "user:1" st ∧ writtenAt (s.log "user:1") "/port.md" = some s.now ∧
      ∀ time, ("/port.md", time) ∉ st.concepts := by
  obtain ⟨s, hrun, hout⟩ := Option.bind_eq_some_iff.mp
    (show (exec step State.init overlappingWrites).bind outcome =
      some (0, [.wrote "/port.md" 0, .purged, .wrote "/host.md" 0, .purged],
        { concepts := [("/host.md", 0)] }) by decide +kernel)
  obtain ⟨hnow, hlog, hst⟩ := hotSet_of_outcome hrun (by decide) hout
  refine ⟨s, _, hrun, hst, ?_, ?_⟩
  · rw [hnow, hlog]
    decide
  · intro time hin
    have hpath : "/port.md" = "/host.md" := congrArg Prod.fst (List.mem_singleton.mp hin)
    exact absurd hpath (by decide)

/-- A write, and meanwhile a lookup in a scope that holds nothing. -/
def writeApart : List Action :=
  [.record 0 "user:1" (.write "/port.md"), .lookup 1 "user:2" "port?", .step 0 found,
    .step 1 found, .step 1 found, .step 0 found]

theorem hot_set_kept_apart : ∃ s st, exec step State.init writeApart = some s ∧
    HotSet s "user:1" st ∧ ("/port.md", 0) ∈ st.concepts := by
  obtain ⟨s, hrun, hout⟩ := Option.bind_eq_some_iff.mp
    (show (exec step State.init writeApart).bind outcome =
      some (0, [.wrote "/port.md" 0, .purged], { concepts := [("/port.md", 0)] }) by
        decide +kernel)
  obtain ⟨hnow, hlog, hst⟩ := hotSet_of_outcome hrun (by decide) hout
  have hcareful : Meets step Careful State.init writeApart := by
    refine ⟨?_, ⟨?_, ?_⟩, trivial, trivial, trivial, trivial, trivial⟩
    · intro i st hi
      cases hi
    · intro e he
      cases he
    · intro qa hqa
      cases hqa
  have hkept := hot_set_kept hrun hcareful hst
  rw [hnow, hlog] at hkept
  exact ⟨s, _, hrun, hst, hkept.concepts "/port.md" 0 (by decide) (by decide)⟩

end Mycelium.Analysis.HotSetKeeping
