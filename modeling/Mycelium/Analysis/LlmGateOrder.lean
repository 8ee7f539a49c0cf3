import Mycelium.Lib.StepSystem
import Mycelium.Model.LlmGate

/-!
# Work conservation, fairness and positions of the LLM gate

Every critical section that frees a slot, changes a limit or takes a waiter out ends in a
dispatch, in a renumbering, or with an empty queue. What a dispatch leaves behind is
stated once (`ordered_dispatch`); the other sections only shorten a queue that was in
order already.
-/

set_option autoImplicit false

namespace Mycelium.Analysis.LlmGateOrder

open Mycelium.Model.LlmGate StepSystem

/-! ## The property -/

/-- A slot is free only if every queued waiter's user is at its cap. -/
def Conserving (g : Inner) : Prop :=
  g.active < g.capacity → ∀ w ∈ g.queue, g.atUserCap w.user = true

/-- Every queued waiter was last told its index. -/
def Numbered (queue : List Waiter) : Prop :=
  ∀ (i : ℕ) (w : Waiter), queue[i]? = some w → w.lastPosition = some i

/-- The slot was there to be taken: the gate had one free, the user was below its cap and
nobody ahead could take it; the fast path and `try_enter` found nobody queued. -/
def Rightful : Admission → Prop
  | .entered before user =>
    before.active < before.capacity ∧ before.atUserCap user = false ∧ before.queue = []
  | .tried before => before.active < before.capacity ∧ before.queue = []
  | .dispatched before idx =>
    before.active < before.capacity ∧
      (∃ w, before.queue[idx]? = some w ∧ before.atUserCap w.user = false) ∧
      ∀ (j : ℕ) (v : Waiter), j < idx → before.queue[j]? = some v → before.atUserCap v.user = true

structure Ordered (s : State) : Prop where
  conserving : Conserving s.inner
  numbered : Numbered s.inner.queue
  rightful : ∀ e ∈ s.log, Rightful e

/-! ## Dispatch -/

/-- INTERNAL: the waiter a round picks is the first one below its user's cap. -/
theorem rightful_of_findIdx {g : Inner} {idx : ℕ} {w : Waiter} (hfree : g.active < g.capacity)
    (hidx : g.queue.findIdx? (fun w => !g.atUserCap w.user) = some idx)
    (hw : g.queue[idx]? = some w) : Rightful (.dispatched g idx) := by
  obtain ⟨hlt, hsat, hbefore⟩ := List.findIdx?_eq_some_iff_getElem.mp hidx
  refine ⟨hfree, ⟨w, hw, ?_⟩, ?_⟩
  · have hget : g.queue[idx] = w := by
      rw [List.getElem?_eq_getElem hlt] at hw
      exact Option.some.inj hw
    rw [hget] at hsat
    simpa using hsat
  · intro j v hj hv
    have hjlt : j < g.queue.length := hj.trans hlt
    have hget : g.queue[j] = v := by
      rw [List.getElem?_eq_getElem hjlt] at hv
      exact Option.some.inj hv
    have hnot := hbefore j hj
    rw [hget] at hnot
    simpa using hnot

/-- INTERNAL: the loop stops when no slot is free or no waiter may take it. -/
theorem admitLoop_spec (fuel : ℕ) {s : State} (hfuel : s.inner.queue.length ≤ fuel)
    (hlog : ∀ e ∈ s.log, Rightful e) :
    Conserving (s.admitLoop fuel).inner ∧ ∀ e ∈ (s.admitLoop fuel).log, Rightful e := by
  induction fuel generalizing s with
  | zero =>
    have hnil : s.inner.queue = [] := List.length_eq_zero_iff.mp (Nat.le_zero.mp hfuel)
    refine ⟨?_, hlog⟩
    intro _ w hw
    simp only [State.admitLoop] at hw
    rw [hnil] at hw
    cases hw
  | succ fuel ih =>
    unfold State.admitLoop
    split
    · rename_i hfree
      split
      · rename_i hnone
        refine ⟨?_, hlog⟩
        intro _ w hw
        have hall := List.findIdx?_eq_none_iff.mp hnone w hw
        simpa using hall
      · rename_i idx hidx
        split
        · rename_i hget
          have hlt := (List.findIdx?_eq_some_iff_getElem.mp hidx).1
          rw [List.getElem?_eq_getElem hlt] at hget
          cases hget
        · rename_i w hw
          have hlt := (List.findIdx?_eq_some_iff_getElem.mp hidx).1
          have hlen : (s.inner.queue.eraseIdx idx).length ≤ fuel := by
            rw [List.length_eraseIdx_of_lt hlt]
            omega
          have hlog' : ∀ e ∈ Admission.dispatched s.inner idx :: s.log, Rightful e := by
            intro e he
            rcases List.mem_cons.mp he with rfl | he
            · exact rightful_of_findIdx hfree hidx hw
            · exact hlog e he
          simp only
          split
          · exact ih hlen hlog'
          · exact ih hlen hlog'
    · rename_i hfull
      exact ⟨fun hfree => absurd hfree hfull, hlog⟩

theorem numbered_notifyPositions (g : Inner) : Numbered g.notifyPositions.queue := by
  intro i w hw
  simp only [Inner.notifyPositions, List.getElem?_mapIdx, Option.map_eq_some_iff] at hw
  obtain ⟨v, -, rfl⟩ := hw
  rfl

/-- INTERNAL: renumbering changes no user, so it keeps work conservation. -/
theorem conserving_notifyPositions {g : Inner} (h : Conserving g) :
    Conserving g.notifyPositions := by
  intro hfree w hw
  obtain ⟨i, hi, rfl⟩ := List.mem_mapIdx.mp hw
  exact h hfree g.queue[i] (List.getElem_mem hi)

/-- INTERNAL: a dispatch leaves the queue in order, whatever it was before. -/
theorem ordered_dispatch {s : State} (hlog : ∀ e ∈ s.log, Rightful e) : Ordered s.dispatch := by
  let queue := s.inner.queue.filter fun w => !s.isClosed w.chan
  have hspec := admitLoop_spec queue.length
    (s := { s with inner := { s.inner with queue } }) (le_refl _) hlog
  exact ⟨conserving_notifyPositions hspec.1, numbered_notifyPositions _, hspec.2⟩

/-! ## The other critical sections -/

/-- INTERNAL: the order reads nothing of the callers. -/
theorem ordered_congr {s s' : State} (h : Ordered s) (hi : s'.inner = s.inner)
    (hl : s'.log = s.log) : Ordered s' := by
  refine ⟨?_, ?_, ?_⟩
  · rw [hi]
    exact h.conserving
  · rw [hi]
    exact h.numbered
  · rw [hl]
    exact h.rightful

/-- INTERNAL: nothing is wrong with an empty queue. -/
theorem ordered_of_empty {s : State} (hq : s.inner.queue = []) (hlog : ∀ e ∈ s.log, Rightful e) :
    Ordered s := by
  refine ⟨?_, ?_, hlog⟩
  · intro _ w hw
    rw [hq] at hw
    cases hw
  · intro i w hw
    rw [hq] at hw
    cases hw

theorem ordered_resolve {s : State} (h : Ordered s) (i : ℕ) (r : Received) :
    Ordered (s.resolve i r) := by
  cases r with
  | message o => cases o <;> exact ordered_congr h rfl rfl
  | pending => exact ordered_congr h rfl rfl
  | senderGone => exact ordered_congr h rfl rfl

/-- INTERNAL: a shorter queue still conserves work. -/
theorem conserving_unqueue {s s' : State} {id : ℕ} (h : Ordered s)
    (hu : s.unqueue id = some s') : Conserving s'.inner ∧ s'.log = s.log := by
  unfold State.unqueue at hu
  split at hu
  · rename_i pos hpos
    cases hu
    refine ⟨?_, rfl⟩
    intro hfree w hw
    have hmem : w ∈ s.inner.queue := List.mem_of_mem_eraseIdx hw
    exact h.conserving hfree w hmem
  · cases hu

theorem close_fields (s : State) : s.close.inner.queue = [] ∧ s.close.log = s.log := by
  unfold State.close
  simp only
  generalize s.inner.queue.length = n
  generalize s.inner.queue = waiters
  have hfold : ∀ (ws : List Waiter) (t : State), t.inner.queue = [] ∧ t.log = s.log →
      (ws.foldl (fun s w => if s.isClosed w.chan then s else s.send w.chan .closed) t).inner.queue
          = [] ∧
        (ws.foldl (fun s w => if s.isClosed w.chan then s else s.send w.chan .closed) t).log
          = s.log := by
    intro ws
    induction ws with
    | nil => exact fun t ht => ht
    | cons w ws ih =>
      intro t ht
      simp only [List.foldl_cons]
      refine ih _ ?_
      split
      · exact ht
      · exact ht
  exact hfold waiters _ ⟨rfl, rfl⟩

/-- INTERNAL: a move of a caller keeps the order. -/
theorem ordered_moveStep {s s' : State} {i : ℕ} {c : Caller} {m : Move} (h : Ordered s)
    (hs : moveStep s i c m = some s') : Ordered s' := by
  cases m with
  | collect =>
    simp only [moveStep] at hs
    split at hs
    · cases hs
      exact ordered_resolve h i _
    · cases hs
      exact ordered_resolve h i _
    · cases hs
  | elapse =>
    simp only [moveStep] at hs
    split at hs
    · cases hs
      exact ordered_congr h rfl rfl
    · cases hs
  | timeoutLock =>
    simp only [moveStep] at hs
    split at hs
    · split at hs
      · rename_i t hu
        obtain ⟨hc, hl⟩ := conserving_unqueue h hu
        cases hs
        refine ⟨conserving_notifyPositions hc, numbered_notifyPositions _, ?_⟩
        show ∀ e ∈ t.log, Rightful e
        rw [hl]
        exact h.rightful
      · cases hs
        exact ordered_congr h rfl rfl
    · cases hs
  | lateRecv =>
    simp only [moveStep] at hs
    split at hs
    · cases hs
      exact ordered_resolve h i _
    · cases hs
  | cancel =>
    simp only [moveStep] at hs
    split at hs
    · cases hs
      exact ordered_congr h rfl rfl
    · cases hs
  | dropLock =>
    simp only [moveStep] at hs
    split at hs
    · split at hs
      · rename_i t hu
        obtain ⟨-, hl⟩ := conserving_unqueue h hu
        cases hs
        have hlog : ∀ e ∈ t.log, Rightful e := by
          rw [hl]
          exact h.rightful
        exact ordered_congr (ordered_dispatch hlog) rfl rfl
      · cases hs
        exact ordered_congr h rfl rfl
    · cases hs
  | handBack =>
    simp only [moveStep] at hs
    split at hs
    · split at hs
      · cases hs
        exact ordered_dispatch h.rightful
      · cases hs
        exact ordered_congr h rfl rfl
    · cases hs
  | dropPermit =>
    simp only [moveStep] at hs
    split at hs
    · cases hs
      exact h
    · cases hs
      exact ordered_dispatch h.rightful
    · cases hs

theorem ordered_enter {s : State} (h : Ordered s) (user : Option Uuid) :
    Ordered (s.enter user) := by
  unfold State.enter
  simp only
  split
  · rename_i hroom
    simp only [Inner.hasRoomFor, Bool.and_eq_true, decide_eq_true_eq, Bool.not_eq_true'] at hroom
    obtain ⟨⟨hempty, hfree⟩, hcap⟩ := hroom
    have hq : s.inner.queue = [] := List.isEmpty_iff.mp hempty
    refine ordered_of_empty hq ?_
    intro e he
    rcases List.mem_cons.mp he with rfl | he
    · exact ⟨hfree, hcap, hq⟩
    · exact h.rightful e he
  · exact ordered_dispatch h.rightful

theorem ordered_tryEnter {s : State} (h : Ordered s) : Ordered s.tryEnter := by
  unfold State.tryEnter
  simp only
  split
  · rename_i hfast
    obtain ⟨hempty, hfree⟩ := hfast
    have hq : s.inner.queue = [] := List.isEmpty_iff.mp hempty
    refine ordered_of_empty hq ?_
    intro e he
    rcases List.mem_cons.mp he with rfl | he
    · exact ⟨hfree, hq⟩
    · exact h.rightful e he
  · exact h

theorem ordered_step {s s' : State} {a : Action} (h : Ordered s) (hs : step s a = some s') :
    Ordered s' := by
  cases a with
  | enter user =>
    cases hs
    exact ordered_enter h user
  | tryEnter =>
    cases hs
    exact ordered_tryEnter h
  | close =>
    cases hs
    obtain ⟨hq, hl⟩ := close_fields s
    refine ordered_of_empty hq ?_
    rw [hl]
    exact h.rightful
  | setCapacity n =>
    cases hs
    exact ordered_dispatch h.rightful
  | setPerUserActive n =>
    cases hs
    exact ordered_dispatch h.rightful
  | caller i m =>
    simp only [step] at hs
    split at hs
    · exact ordered_moveStep h hs
    · cases hs

/-- In every state reachable by any sequence of enter, try_enter, permit drop,
cancellation, timeout, close and resize: a free slot means that every queued waiter's
user is at its cap; every slot was taken rightfully, a waiter's only past waiters whose
users were at their caps and `try_enter`'s only with nobody queued; and each queued
waiter was last told its current index. SOURCE: llm_gate.rs:175-205, 263-287, 319-444 -/
theorem gate_ordered (capacity : ℕ) (as : List Action) (s : State)
    (hrun : exec step (State.init capacity) as = some s) :
    Conserving s.inner ∧ Numbered s.inner.queue ∧ ∀ e ∈ s.log, Rightful e := by
  have hinit : Ordered (State.init capacity) := by
    refine ordered_of_empty rfl ?_
    intro e he
    cases he
  have h := exec_invariant Ordered (fun _ _ _ h hs => ordered_step h hs) hinit hrun
  exact ⟨h.conserving, h.numbered, h.rightful⟩

/-- User 1 holds both its slots and queues a third run; user 2, behind it, takes the slot
that is left when the gate grows. -/
def bypassRun : List Action :=
  [.setCapacity 2, .enter (some 1), .enter (some 1), .enter (some 1), .enter (some 2),
    .setCapacity 4]

/-- The capped waiter keeps its place at the head with a slot still free. -/
theorem gate_ordered_bypassRun :
    ∃ s, exec step (State.init 1) bypassRun = some s ∧ s.inner.active = 3 ∧
      s.inner.queue = [{ id := 0, user := some 1, lastPosition := some 0, chan := 2 }] ∧
      Conserving s.inner ∧ Numbered s.inner.queue ∧ ∀ e ∈ s.log, Rightful e := by
  refine ⟨_, rfl, by decide, by decide, ?_⟩
  exact gate_ordered 1 bypassRun _ rfl

end Mycelium.Analysis.LlmGateOrder
