import Mycelium.Lib.StepSystem
import Mycelium.Model.LlmGate

/-!
# Slot accounting of the LLM gate

A slot belongs to a caller from the moment a critical section takes it until its permit,
or the drop of its future, hands it back. An admitted waiter whose future has not been
polled yet holds a slot that no permit stands for.

The future finds its own waiter by the id it was given, a 64-bit counter that wraps
around. As long as no waiter is given an id that a future in flight still holds, the
counters are exact in every reachable state (`slots_exact`). A reissued id makes the drop
of an admitted future take the other waiter out, and its slot is never handed back
(`slot_leaked_by_reissued_id`).
-/

set_option autoImplicit false

namespace Mycelium.Analysis.LlmGateSlots

open Mycelium.Model.LlmGate StepSystem

/-! ## The property -/

/-- The caller is a live permit. -/
def isPermit (c : Caller) : Bool := c.pc = .permit false

/-- The caller was admitted and its future has not collected the admission. -/
def isUncollected (c : Caller) : Bool := c.pc.seat.isSome && c.outcome = some .admitted

def ofUser (u : Uuid) (c : Caller) : Bool := c.user = some u

/-- The entry of a count: none when it is zero. -/
def entry (n : ℕ) : Option ℕ := if n = 0 then none else some n

/-- The counters are exact: `active` is the number of live permits and uncollected
admissions, each user's entry its share of them with no zero entry kept, and no
subtraction has clipped. -/
structure SlotsExact (s : State) : Prop where
  active : s.inner.active = s.callers.countP isPermit + s.callers.countP isUncollected
  perUser : ∀ u, s.inner.perUser u =
    entry ((s.callers.countP fun c => isPermit c && ofUser u c) +
      s.callers.countP fun c => isUncollected c && ofUser u c)
  clipped : s.inner.clipped = false

/-- When the step queues a waiter, the id it gives it is not held by a future in flight. -/
def issuesFreshId (s : State) : Action → Bool
  | .enter user =>
    s.inner.hasRoomFor user || s.callers.all fun c => c.pc.seat ≠ some s.inner.nextId
  | _ => true

/-! ## Counting callers -/

/-- INTERNAL: changing one element changes a count by what that element counts. -/
theorem countP_modify {α : Type} (p : α → Bool) {l : List α} {i : ℕ} {a : α}
    (h : l[i]? = some a) (f : α → α) :
    (l.modify i f).countP p + (if p a = true then 1 else 0) =
      l.countP p + (if p (f a) = true then 1 else 0) := by
  induction l generalizing i with
  | nil => cases h
  | cons b l ih =>
    cases i with
    | zero =>
      simp only [List.getElem?_cons_zero, Option.some.injEq] at h
      subst h
      simp only [List.modify_zero_cons, List.countP_cons]
      omega
    | succ i =>
      simp only [List.getElem?_cons_succ] at h
      have := ih h
      simp only [List.modify_succ_cons, List.countP_cons]
      omega

/-- INTERNAL: a count of a disjunction of exclusive conditions is a sum. -/
theorem countP_or {α : Type} {p q : α → Bool} (l : List α)
    (hpq : ∀ a, p a = true → q a = false) :
    l.countP (fun a => p a || q a) = l.countP p + l.countP q := by
  induction l with
  | nil => rfl
  | cons a l ih =>
    simp only [List.countP_cons, ih]
    cases hp : p a with
    | true =>
      have hq := hpq a hp
      simp [hq]
      omega
    | false =>
      simp
      omega

theorem entry_getD (n : ℕ) : (entry n).getD 0 = n := by
  unfold entry
  split
  · simp [*]
  · rfl

theorem entry_succ (n : ℕ) : entry (n + 1) = some (n + 1) := by
  simp [entry]

theorem lessOne_entry (n : ℕ) : lessOne (entry (n + 1)) = entry n := by
  rw [entry_succ]
  simp [lessOne, entry]

/-! ## The invariant -/

/-- The caller owns a slot. -/
def holds (c : Caller) : Bool := isPermit c || isUncollected c

def holdsFor (u : Uuid) (c : Caller) : Bool := holds c && ofUser u c

/-- The counters agree with the callers that own slots. -/
structure Accounted (g : Inner) (callers : List Caller) : Prop where
  active : g.active = callers.countP holds
  perUser : ∀ u, g.perUser u = entry (callers.countP (holdsFor u))
  clipped : g.clipped = false

/-- The waiter's channel is held by the caller it was made for, which still waits. -/
def Linked (callers : List Caller) (w : Waiter) : Prop :=
  ∃ c, callers[w.chan]? = some c ∧ c.user = w.user ∧ c.outcome = none ∧
    (c.pc = .waiting w.id ∨ c.pc = .timingOut w.id ∨ c.pc = .dropping w.id)

/-- Every waiter is linked to a caller of its own. -/
structure QueueOk (callers : List Caller) (queue : List Waiter) : Prop where
  linked : ∀ w ∈ queue, Linked callers w
  nodup : (queue.map Waiter.chan).Nodup

/-- No two futures in flight hold the same id. -/
def IdsDistinct (callers : List Caller) : Prop :=
  ∀ (i j : ℕ) (c d : Caller) (id : ℕ), callers[i]? = some c → callers[j]? = some d →
    c.pc.seat = some id → d.pc.seat = some id → i = j

structure Inv (s : State) : Prop where
  accounted : Accounted s.inner s.callers
  queue : QueueOk s.callers s.inner.queue
  ids : IdsDistinct s.callers

theorem slotsExact_of_accounted {s : State} (h : Accounted s.inner s.callers) :
    SlotsExact s := by
  have hexcl : ∀ c : Caller, isPermit c = true → isUncollected c = false := by
    intro c hc
    have hpc : c.pc = .permit false := by simpa [isPermit] using hc
    simp [isUncollected, hpc, Pc.seat]
  refine ⟨?_, ?_, h.clipped⟩
  · rw [h.active]
    exact countP_or s.callers hexcl
  · intro u
    rw [h.perUser u, ← countP_or s.callers]
    · congr 2
      funext c
      simp [holdsFor, holds, Bool.and_or_distrib_right]
    · intro c hc
      simp only [Bool.and_eq_true] at hc
      simp [hexcl c hc.1]

/-! ## Taking and handing back a slot -/

theorem holdsFor_eq (u : Uuid) (c : Caller) :
    (holdsFor u c = true) ↔ (holds c = true ∧ c.user = some u) := by
  simp [holdsFor, ofUser]

/-- INTERNAL: a caller that owned no slot gets one, and the counters with it. -/
theorem accounted_take {g : Inner} {callers : List Caller} (h : Accounted g callers) {i : ℕ}
    {c : Caller} (hc : callers[i]? = some c) (f : Caller → Caller) (hno : holds c = false)
    (hyes : holds (f c) = true) (huser : (f c).user = c.user) :
    Accounted (g.takeSlot c.user) (callers.modify i f) := by
  refine ⟨?_, ?_, h.clipped⟩
  · have hcount := countP_modify holds hc f
    rw [hno, hyes] at hcount
    simp only [Inner.takeSlot]
    rw [h.active]
    simpa using hcount.symm
  · intro u
    have hcount := countP_modify (holdsFor u) hc f
    have hno' : holdsFor u c = false := by simp [holdsFor, hno]
    simp only [Inner.takeSlot]
    rw [h.perUser u]
    by_cases hu : c.user = some u
    · have hyes' : holdsFor u (f c) = true := (holdsFor_eq u (f c)).mpr ⟨hyes, by rw [huser, hu]⟩
      rw [hno', hyes'] at hcount
      simp only [Bool.false_eq_true, ↓reduceIte, Nat.add_zero] at hcount
      rw [hcount, entry_succ, entry_getD, hu]
      simp
    · have hyes' : holdsFor u (f c) = false := by
        simp [holdsFor, ofUser, huser, hu]
      rw [hno', hyes'] at hcount
      simp only [Bool.false_eq_true, ↓reduceIte, Nat.add_zero] at hcount
      rw [hcount]
      have hne : some u ≠ c.user := fun he => hu he.symm
      simp [hne]

/-- INTERNAL: a caller gives its slot up and the counters hand it back without
clipping. -/
theorem accounted_free {g : Inner} {callers : List Caller} (h : Accounted g callers) {i : ℕ}
    {c : Caller} (hc : callers[i]? = some c) (f : Caller → Caller) (hyes : holds c = true)
    (hno : holds (f c) = false) : Accounted (g.freeSlot c.user) (callers.modify i f) := by
  have hactive : g.active = (callers.modify i f).countP holds + 1 := by
    have hcount := countP_modify holds hc f
    rw [hno, hyes] at hcount
    rw [h.active]
    simpa using hcount.symm
  have hshare : ∀ u, c.user = some u →
      callers.countP (holdsFor u) = (callers.modify i f).countP (holdsFor u) + 1 := by
    intro u hu
    have hcount := countP_modify (holdsFor u) hc f
    have hyes' : holdsFor u c = true := (holdsFor_eq u c).mpr ⟨hyes, hu⟩
    have hno' : holdsFor u (f c) = false := by simp [holdsFor, hno]
    rw [hyes', hno'] at hcount
    simpa using hcount.symm
  refine ⟨?_, ?_, ?_⟩
  · simp only [Inner.freeSlot]
    omega
  · intro u
    simp only [Inner.freeSlot]
    rw [h.perUser u]
    by_cases hu : c.user = some u
    · rw [hshare u hu, hu]
      simp [lessOne_entry]
    · have hcount := countP_modify (holdsFor u) hc f
      have hno₁ : holdsFor u c = false := by simp [holdsFor, ofUser, hu]
      have hno₂ : holdsFor u (f c) = false := by simp [holdsFor, hno]
      rw [hno₁, hno₂] at hcount
      simp only [Bool.false_eq_true, ↓reduceIte, Nat.add_zero] at hcount
      rw [hcount]
      have hne : some u ≠ c.user := fun he => hu he.symm
      simp [hne]
  · have hlacks : g.lacksSlot c.user = false := by
      unfold Inner.lacksSlot
      cases hu : c.user with
      | none => simp [hactive]
      | some u =>
        have hs := hshare u hu
        simp [hactive, h.perUser u, hs, entry_getD]
    simp [Inner.freeSlot, h.clipped, hlacks]

/-- INTERNAL: a caller that changes without gaining or losing a slot. -/
theorem accounted_modify {g : Inner} {callers : List Caller} (h : Accounted g callers) {i : ℕ}
    {c : Caller} (hc : callers[i]? = some c) (f : Caller → Caller)
    (hsame : holds (f c) = holds c) (huser : (f c).user = c.user) :
    Accounted g (callers.modify i f) := by
  refine ⟨?_, ?_, h.clipped⟩
  · have hcount := countP_modify holds hc f
    rw [hsame] at hcount
    rw [h.active]
    omega
  · intro u
    have hcount := countP_modify (holdsFor u) hc f
    have hsame' : holdsFor u (f c) = holdsFor u c := by simp [holdsFor, ofUser, hsame, huser]
    rw [hsame'] at hcount
    rw [h.perUser u]
    congr 1
    omega

/-- INTERNAL: the accounting reads three fields of the gate. -/
theorem accounted_congr {g g' : Inner} {callers : List Caller} (h : Accounted g callers)
    (ha : g'.active = g.active) (hp : g'.perUser = g.perUser) (hc : g'.clipped = g.clipped) :
    Accounted g' callers := by
  refine ⟨?_, ?_, ?_⟩
  · rw [ha]
    exact h.active
  · rw [hp]
    exact h.perUser
  · rw [hc]
    exact h.clipped

/-! ## The queue and its callers -/

theorem queueOk_sublist {callers : List Caller} {q q' : List Waiter} (h : QueueOk callers q)
    (hsub : q'.Sublist q) : QueueOk callers q' :=
  ⟨fun w hw => h.linked w (hsub.subset hw), h.nodup.sublist (hsub.map _)⟩

/-- INTERNAL: renumbering leaves the links alone. -/
theorem queueOk_notifyPositions {callers : List Caller} {g : Inner}
    (h : QueueOk callers g.queue) : QueueOk callers g.notifyPositions.queue := by
  refine ⟨?_, ?_⟩
  · intro w hw
    obtain ⟨i, hi, rfl⟩ := List.mem_mapIdx.mp hw
    exact h.linked g.queue[i] (List.getElem_mem hi)
  · have hmap : g.notifyPositions.queue.map Waiter.chan = g.queue.map Waiter.chan := by
      apply List.ext_getElem
      · simp [Inner.notifyPositions]
      · intro i h₁ h₂
        simp [Inner.notifyPositions]
    rw [hmap]
    exact h.nodup

/-- INTERNAL: a caller that no waiter belongs to may change. -/
theorem queueOk_modify {callers : List Caller} {q : List Waiter} (h : QueueOk callers q) {i : ℕ}
    (f : Caller → Caller) (hi : ∀ w ∈ q, w.chan ≠ i) : QueueOk (callers.modify i f) q := by
  refine ⟨?_, h.nodup⟩
  intro w hw
  obtain ⟨c, hc, hrest⟩ := h.linked w hw
  have hne : i ≠ w.chan := fun he => hi w hw he.symm
  refine ⟨c, ?_, hrest⟩
  rw [List.getElem?_modify, hc]
  simp [hne]

/-- INTERNAL: the waiters left of a queue belong to other callers than the one taken. -/
theorem chan_ne_of_eraseIdx {q : List Waiter} {idx : ℕ} {w v : Waiter}
    (hnodup : (q.map Waiter.chan).Nodup) (hw : q[idx]? = some w) (hv : v ∈ q.eraseIdx idx) :
    v.chan ≠ w.chan := by
  obtain ⟨j, hj, hget⟩ := List.mem_eraseIdx_iff_getElem?.mp hv
  intro heq
  have hjmap : (q.map Waiter.chan)[j]? = some w.chan := by simp [hget, heq]
  have hidxmap : (q.map Waiter.chan)[idx]? = some w.chan := by simp [hw]
  have hlt : j < (q.map Waiter.chan).length := by
    rw [List.length_map]
    exact (List.getElem?_eq_some_iff.mp hget).1
  exact hj ((List.getElem?_inj hlt hnodup).mp (hjmap.trans hidxmap.symm))

/-- INTERNAL: a caller keeps its seat or gives it up. -/
theorem idsDistinct_modify {callers : List Caller} (h : IdsDistinct callers) {i : ℕ} {c : Caller}
    (hc : callers[i]? = some c) (f : Caller → Caller)
    (hseat : ∀ id, (f c).pc.seat = some id → c.pc.seat = some id) :
    IdsDistinct (callers.modify i f) := by
  have hold : ∀ (k : ℕ) (d : Caller) (id : ℕ), (callers.modify i f)[k]? = some d →
      d.pc.seat = some id → ∃ d', callers[k]? = some d' ∧ d'.pc.seat = some id := by
    intro k d id hk hd
    rw [List.getElem?_modify] at hk
    by_cases hik : i = k
    · subst hik
      rw [hc] at hk
      simp only [Option.map_eq_map, Option.map_some, ↓reduceIte, Option.some.injEq] at hk
      subst hk
      exact ⟨c, hc, hseat id hd⟩
    · cases hget : callers[k]? with
      | none => simp [hget] at hk
      | some d' =>
        simp only [hget, hik, Option.map_eq_map, Option.map_some, ↓reduceIte,
          Option.some.injEq] at hk
        subst hk
        exact ⟨d', rfl, hd⟩
  intro j k c₁ c₂ id hj hk h₁ h₂
  obtain ⟨d₁, hd₁, hs₁⟩ := hold j c₁ id hj h₁
  obtain ⟨d₂, hd₂, hs₂⟩ := hold k c₂ id hk h₂
  exact h j k d₁ d₂ id hd₁ hd₂ hs₁ hs₂

/-- INTERNAL: the caller of a queued waiter owns no slot and its channel is open. -/
theorem linked_facts {s : State} {w : Waiter} (h : Linked s.callers w) :
    ∃ c, s.callers[w.chan]? = some c ∧ c.user = w.user ∧ c.outcome = none ∧
      c.pc.seat = some w.id ∧ holds c = false ∧ s.isClosed w.chan = false := by
  obtain ⟨c, hc, huser, hout, hpc⟩ := h
  have hseat : c.pc.seat = some w.id := by
    rcases hpc with hpc | hpc | hpc <;> simp [hpc, Pc.seat]
  have hperm : isPermit c = false := by
    rcases hpc with hpc | hpc | hpc <;> simp [isPermit, hpc]
  refine ⟨c, hc, huser, hout, hseat, ?_, ?_⟩
  · simp [holds, hperm, isUncollected, hout]
  · simp [State.isClosed, hc, hseat]

/-! ## Dispatch -/

/-- INTERNAL: one admission keeps the invariant. -/
theorem inv_admitAt {s : State} (h : Inv s) {idx : ℕ} {w : Waiter}
    (hw : s.inner.queue[idx]? = some w) (log : List Admission) :
    Inv (State.send
      { s with
        inner := (({ s.inner with queue := s.inner.queue.eraseIdx idx } : Inner).takeSlot
          w.user).recordWait
        log := log } w.chan .admitted) := by
  have hmem : w ∈ s.inner.queue := List.mem_of_getElem? hw
  obtain ⟨c, hc, huser, -, hseat, hno, -⟩ := linked_facts (h.queue.linked w hmem)
  have hyes : holds { c with outcome := some .admitted } = true := by
    simp [holds, isUncollected, hseat]
  refine ⟨?_, ?_, ?_⟩
  · have hacc := accounted_take h.accounted hc (fun c => { c with outcome := some .admitted })
      hno hyes rfl
    rw [huser] at hacc
    exact accounted_congr hacc rfl rfl rfl
  · refine queueOk_modify (queueOk_sublist h.queue (List.eraseIdx_sublist _ _)) _ ?_
    intro v hv
    exact chan_ne_of_eraseIdx h.queue.nodup hw hv
  · exact idsDistinct_modify h.ids hc _ (fun _ hid => hid)

theorem inv_admitLoop (fuel : ℕ) {s : State} (h : Inv s) : Inv (s.admitLoop fuel) := by
  induction fuel generalizing s with
  | zero => exact h
  | succ fuel ih =>
    unfold State.admitLoop
    split
    · split
      · exact h
      · rename_i idx hidx
        split
        · exact h
        · rename_i w hw
          have hmem : w ∈ s.inner.queue := List.mem_of_getElem? hw
          obtain ⟨-, -, -, -, -, -, hopen⟩ := linked_facts (h.queue.linked w hmem)
          simp only [hopen, Bool.false_eq_true, ↓reduceIte]
          exact ih (inv_admitAt h hw _)
    · exact h

/-- INTERNAL: a dispatch keeps the invariant. -/
theorem inv_dispatch {s : State} (h : Inv s) : Inv s.dispatch := by
  have hfiltered : Inv { s with inner := { s.inner with
      queue := s.inner.queue.filter fun w => !s.isClosed w.chan } } := by
    refine ⟨accounted_congr h.accounted rfl rfl rfl, ?_, h.ids⟩
    exact queueOk_sublist h.queue List.filter_sublist
  have hloop := inv_admitLoop
    (s.inner.queue.filter fun w => !s.isClosed w.chan).length hfiltered
  exact ⟨accounted_congr hloop.accounted rfl rfl rfl, queueOk_notifyPositions hloop.queue,
    hloop.ids⟩

/-- INTERNAL: a dispatch leaves a caller without a queued waiter alone. -/
theorem admitLoop_frame (fuel : ℕ) (s : State) (i : ℕ) (hout : ∀ w ∈ s.inner.queue, w.chan ≠ i) :
    (s.admitLoop fuel).callers[i]? = s.callers[i]? ∧
      ∀ w ∈ (s.admitLoop fuel).inner.queue, w.chan ≠ i := by
  induction fuel generalizing s with
  | zero => exact ⟨rfl, hout⟩
  | succ fuel ih =>
    unfold State.admitLoop
    split
    · split
      · exact ⟨rfl, hout⟩
      · rename_i idx hidx
        split
        · exact ⟨rfl, hout⟩
        · rename_i w hw
          have hrest : ∀ v ∈ s.inner.queue.eraseIdx idx, v.chan ≠ i :=
            fun v hv => hout v (List.mem_of_mem_eraseIdx hv)
          have hne : w.chan ≠ i := hout w (List.mem_of_getElem? hw)
          simp only
          split
          · exact ih _ hrest
          · refine And.imp (fun hsame => hsame.trans ?_) id (ih _ hrest)
            simp [State.send, hne]
    · exact ⟨rfl, hout⟩

theorem dispatch_frame (s : State) (i : ℕ) (hout : ∀ w ∈ s.inner.queue, w.chan ≠ i) :
    s.dispatch.callers[i]? = s.callers[i]? ∧ ∀ w ∈ s.dispatch.inner.queue, w.chan ≠ i := by
  have hfiltered : ∀ w ∈ s.inner.queue.filter fun w => !s.isClosed w.chan, w.chan ≠ i :=
    fun w hw => hout w (List.mem_of_mem_filter hw)
  obtain ⟨hsame, hq⟩ := admitLoop_frame (s.inner.queue.filter fun w => !s.isClosed w.chan).length
    { s with inner := { s.inner with
      queue := s.inner.queue.filter fun w => !s.isClosed w.chan } } i hfiltered
  refine ⟨hsame, ?_⟩
  intro w hw
  obtain ⟨j, hj, rfl⟩ := List.mem_mapIdx.mp hw
  have hne := hq _ (List.getElem_mem hj)
  exact hne

/-! ## Moves of a caller -/

/-- INTERNAL: a caller moves to a point that owns as many slots; a waiter of its own that
is still queued must stay linked. -/
theorem inv_setPc {s : State} (h : Inv s) {i : ℕ} {c : Caller} {pc : Pc}
    (hc : s.callers[i]? = some c) (hholds : holds { c with pc } = holds c)
    (hseat : ∀ id, pc.seat = some id → c.pc.seat = some id)
    (hlink : ∀ w ∈ s.inner.queue, w.chan = i →
      pc = .waiting w.id ∨ pc = .timingOut w.id ∨ pc = .dropping w.id) :
    Inv (s.setPc i pc) := by
  refine ⟨accounted_modify h.accounted hc _ hholds rfl, ?_, idsDistinct_modify h.ids hc _ hseat⟩
  refine ⟨?_, h.queue.nodup⟩
  intro w hw
  obtain ⟨d, hd, huser, hout, hpc⟩ := h.queue.linked w hw
  by_cases hi : i = w.chan
  · subst hi
    have hcd : c = d := Option.some.inj (hc.symm.trans hd)
    subst hcd
    refine ⟨{ c with pc }, ?_, huser, hout, hlink w hw rfl⟩
    simp [State.setPc, hc]
  · refine ⟨d, ?_, huser, hout, hpc⟩
    simp [State.setPc, hd, hi]

/-- INTERNAL: a future with a seat is no permit. -/
theorem isPermit_of_seat {c : Caller} {id : ℕ} (hseat : c.pc.seat = some id) :
    isPermit c = false := by
  unfold isPermit
  cases hpc : c.pc <;> simp [hpc, Pc.seat] at hseat <;> simp

/-- INTERNAL: a future moves on and keeps its seat. -/
theorem inv_keepSeat {s : State} (h : Inv s) {i : ℕ} {c : Caller} {pc : Pc} {id : ℕ}
    (hc : s.callers[i]? = some c) (hseat : c.pc.seat = some id) (hseat' : pc.seat = some id)
    (hlink : ∀ w ∈ s.inner.queue, w.chan = i →
      pc = .waiting w.id ∨ pc = .timingOut w.id ∨ pc = .dropping w.id) :
    Inv (s.setPc i pc) := by
  apply inv_setPc h hc _ _ hlink
  · have hnew : isPermit { c with pc } = false := isPermit_of_seat hseat'
    unfold holds
    rw [hnew, isPermit_of_seat hseat]
    unfold isUncollected
    rw [hseat, hseat']
  · intro id' hid'
    rw [hseat, ← hseat']
    exact hid'

/-- INTERNAL: a future whose waiter has left the queue resolves; it keeps its slot as a
permit, or had none. -/
theorem inv_resolve {s : State} (h : Inv s) {i : ℕ} {c : Caller} {id : ℕ}
    (hc : s.callers[i]? = some c) (hseat : c.pc.seat = some id)
    (hout : ∀ w ∈ s.inner.queue, w.chan ≠ i) : Inv (s.resolve i (s.recv i c)) := by
  have hperm : isPermit c = false := isPermit_of_seat hseat
  have hlink : ∀ pc : Pc, ∀ w ∈ s.inner.queue, w.chan = i →
      pc = .waiting w.id ∨ pc = .timingOut w.id ∨ pc = .dropping w.id :=
    fun pc w hw hi => absurd hi (hout w hw)
  have hgone : s.inner.queue.any (fun w => decide (w.chan = i)) = false := by
    simpa using hout
  unfold State.recv
  cases ho : c.outcome with
  | none =>
    have hno : holds c = false := by simp [holds, hperm, isUncollected, ho]
    simp only [hgone, Bool.false_eq_true, ↓reduceIte]
    refine inv_setPc h hc ?_ (fun _ hid => by cases hid) (hlink _)
    rw [hno]
    rfl
  | some o =>
    cases o with
    | admitted =>
      have hyes : holds c = true := by simp [holds, isUncollected, hseat, ho]
      refine inv_setPc h hc ?_ (fun _ hid => by cases hid) (hlink _)
      rw [hyes]
      rfl
    | closed =>
      have hno : holds c = false := by simp [holds, hperm, isUncollected, ho]
      refine inv_setPc h hc ?_ (fun _ hid => by cases hid) (hlink _)
      rw [hno]
      rfl

/-- INTERNAL: the waiter a future takes out by its id is its own, and no other waiter of
it is left. -/
theorem inv_unqueue {s s' : State} (h : Inv s) {i : ℕ} {c : Caller} {id : ℕ}
    (hc : s.callers[i]? = some c) (hseat : c.pc.seat = some id)
    (hu : s.unqueue id = some s') :
    Inv s' ∧ s'.callers = s.callers ∧ c.outcome = none ∧ ∀ w ∈ s'.inner.queue, w.chan ≠ i := by
  unfold State.unqueue at hu
  split at hu
  · rename_i pos hpos
    obtain ⟨hlt, hid, -⟩ := List.findIdx?_eq_some_iff_getElem.mp hpos
    have hget : s.inner.queue[pos]? = some s.inner.queue[pos] := List.getElem?_eq_getElem hlt
    obtain ⟨d, hd, -, hout, hdseat, -, -⟩ :=
      linked_facts (h.queue.linked _ (List.getElem_mem hlt))
    have hid' : s.inner.queue[pos].id = id := by simpa using hid
    rw [hid'] at hdseat
    have hchan : s.inner.queue[pos].chan = i := h.ids _ _ d c id hd hc hdseat hseat
    have hcd : d = c := by
      rw [hchan, hc] at hd
      exact (Option.some.inj hd).symm
    cases hu
    refine ⟨⟨accounted_congr h.accounted rfl rfl rfl, ?_, h.ids⟩, rfl, hcd ▸ hout, ?_⟩
    · exact queueOk_sublist h.queue (List.eraseIdx_sublist _ _)
    · intro w hw
      rw [← hchan]
      exact chan_ne_of_eraseIdx h.queue.nodup hget hw
  · cases hu

/-- INTERNAL: a future that finds no waiter with its id has none in the queue. -/
theorem chan_ne_of_unqueue_none {s : State} (h : Inv s) {i : ℕ} {c : Caller} {id : ℕ}
    (hc : s.callers[i]? = some c) (hseat : c.pc.seat = some id) (hu : s.unqueue id = none) :
    ∀ w ∈ s.inner.queue, w.chan ≠ i := by
  intro w hw hi
  unfold State.unqueue at hu
  split at hu
  · cases hu
  · rename_i hnone
    obtain ⟨d, hd, -, -, hdseat, -, -⟩ := linked_facts (h.queue.linked w hw)
    have hcd : c = d := by
      rw [hi, hc] at hd
      exact Option.some.inj hd
    have hid : w.id = id := by
      rw [← hcd, hseat] at hdseat
      exact (Option.some.inj hdseat).symm
    have hne := List.findIdx?_eq_none_iff.mp hnone w hw
    simp [hid] at hne

/-- INTERNAL: the waiters of a caller that is past its lock section are gone. -/
theorem chan_ne_of_pc {s : State} (h : Inv s) {i : ℕ} {c : Caller}
    (hc : s.callers[i]? = some c)
    (hpc : ∀ id, c.pc ≠ .waiting id ∧ c.pc ≠ .timingOut id ∧ c.pc ≠ .dropping id) :
    ∀ w ∈ s.inner.queue, w.chan ≠ i := by
  intro w hw hi
  obtain ⟨d, hd, -, -, hdpc⟩ := h.queue.linked w hw
  have hcd : c = d := by
    rw [hi, hc] at hd
    exact Option.some.inj hd
  subst hcd
  obtain ⟨h₁, h₂, h₃⟩ := hpc w.id
  rcases hdpc with hp | hp | hp
  · exact h₁ hp
  · exact h₂ hp
  · exact h₃ hp

/-- INTERNAL: the waiters of a caller with a message in its channel are gone. -/
theorem chan_ne_of_outcome {s : State} (h : Inv s) {i : ℕ} {c : Caller} {o : Outcome}
    (hc : s.callers[i]? = some c) (ho : c.outcome = some o) :
    ∀ w ∈ s.inner.queue, w.chan ≠ i := by
  intro w hw hi
  obtain ⟨d, hd, -, hout, -⟩ := h.queue.linked w hw
  have hcd : c = d := by
    rw [hi, hc] at hd
    exact Option.some.inj hd
  subst hcd
  rw [ho] at hout
  cases hout

/-- INTERNAL: so are those of a caller whose channel is not pending. -/
theorem chan_ne_of_recv {s : State} (h : Inv s) {i : ℕ} {c : Caller}
    (hc : s.callers[i]? = some c) (hr : s.recv i c ≠ .pending) :
    ∀ w ∈ s.inner.queue, w.chan ≠ i := by
  cases ho : c.outcome with
  | some o => exact chan_ne_of_outcome h hc ho
  | none =>
    unfold State.recv at hr
    simp only [ho] at hr
    split at hr
    · exact absurd rfl hr
    · rename_i hany
      simpa using hany

/-- INTERNAL: a caller gives its slot back and the gate dispatches. -/
theorem inv_release {s : State} (h : Inv s) {i : ℕ} {c : Caller} {pc : Pc}
    (hc : s.callers[i]? = some c) (hyes : holds c = true) (hno : holds { c with pc } = false)
    (hseat : pc.seat = none) (hout : ∀ w ∈ s.inner.queue, w.chan ≠ i) :
    Inv ((s.setPc i pc).release c.user) := by
  refine inv_dispatch ⟨accounted_free h.accounted hc _ hyes hno, ?_, ?_⟩
  · exact queueOk_modify h.queue _ hout
  · exact idsDistinct_modify h.ids hc _ (fun id hid => by rw [hseat] at hid; cases hid)

theorem inv_moveStep {s s' : State} (h : Inv s) {i : ℕ} {c : Caller} {m : Move}
    (hc : s.callers[i]? = some c) (hs : moveStep s i c m = some s') : Inv s' := by
  have hlinked : ∀ {id : ℕ}, c.pc = .waiting id → ∀ w ∈ s.inner.queue, w.chan = i → w.id = id := by
    intro id hpc w hw hi
    obtain ⟨d, hd, -, -, hseat, -, -⟩ := linked_facts (h.queue.linked w hw)
    rw [hi, hc] at hd
    cases Option.some.inj hd
    rw [hpc] at hseat
    exact (Option.some.inj hseat).symm
  cases m with
  | collect =>
    simp only [moveStep] at hs
    split at hs
    · rename_i id o hpc hr
      cases hs
      have hout := chan_ne_of_recv h hc (by rw [hr]; exact nofun)
      have hres := inv_resolve h hc (by rw [hpc]; rfl) hout
      rwa [hr] at hres
    · rename_i id hpc hr
      cases hs
      have hout := chan_ne_of_recv h hc (by rw [hr]; exact nofun)
      have hres := inv_resolve h hc (by rw [hpc]; rfl) hout
      rwa [hr] at hres
    · cases hs
  | elapse =>
    simp only [moveStep] at hs
    split at hs
    · rename_i id hpc hr
      cases hs
      apply inv_keepSeat h hc (by rw [hpc]; rfl) rfl
      intro w hw hi
      rw [hlinked hpc w hw hi]
      exact Or.inr (Or.inl rfl)
    · cases hs
  | timeoutLock =>
    simp only [moveStep] at hs
    split at hs
    · rename_i id hpc
      have hseat : c.pc.seat = some id := by rw [hpc]; rfl
      split at hs
      · rename_i t hu
        obtain ⟨ht, hcallers, hnone, hout⟩ := inv_unqueue h hc hseat hu
        cases hs
        have hn : Inv { t with inner := t.inner.notifyPositions } :=
          ⟨accounted_congr ht.accounted rfl rfl rfl, queueOk_notifyPositions ht.queue, ht.ids⟩
        refine inv_setPc hn (by rw [← hcallers] at hc; exact hc) ?_ (fun _ hid => by cases hid) ?_
        · simp [holds, isPermit, isUncollected, hpc, hnone, Pc.seat]
        · intro w hw hi
          obtain ⟨j, hj, rfl⟩ := List.mem_mapIdx.mp hw
          exact absurd hi (hout t.inner.queue[j] (List.getElem_mem hj))
      · rename_i hu
        cases hs
        apply inv_keepSeat h hc hseat rfl
        intro w hw hi
        exact absurd hi (chan_ne_of_unqueue_none h hc hseat hu w hw)
    · cases hs
  | lateRecv =>
    simp only [moveStep] at hs
    split at hs
    · rename_i id hpc
      cases hs
      refine inv_resolve h hc (by rw [hpc]; rfl) (chan_ne_of_pc h hc ?_)
      intro id'
      simp [hpc]
    · cases hs
  | cancel =>
    simp only [moveStep] at hs
    split at hs
    · rename_i id hpc
      cases hs
      apply inv_keepSeat h hc (by rw [hpc]; rfl) rfl
      intro w hw hi
      rw [hlinked hpc w hw hi]
      exact Or.inr (Or.inr rfl)
    · cases hs
  | dropLock =>
    simp only [moveStep] at hs
    split at hs
    · rename_i id hpc
      have hseat : c.pc.seat = some id := by rw [hpc]; rfl
      split at hs
      · rename_i t hu
        obtain ⟨ht, hcallers, hnone, hout⟩ := inv_unqueue h hc hseat hu
        cases hs
        rw [← hcallers] at hc
        obtain ⟨hsame, hout'⟩ := dispatch_frame t i hout
        refine inv_setPc (inv_dispatch ht) (hsame.trans hc) ?_ (fun _ hid => by cases hid)
          (fun w hw hi => absurd hi (hout' w hw))
        simp [holds, isPermit, isUncollected, hpc, hnone, Pc.seat]
      · rename_i hu
        cases hs
        apply inv_keepSeat h hc hseat rfl
        intro w hw hi
        exact absurd hi (chan_ne_of_unqueue_none h hc hseat hu w hw)
    · cases hs
  | handBack =>
    simp only [moveStep] at hs
    split at hs
    · rename_i id hpc
      have hout := chan_ne_of_pc h hc (fun id' => by simp [hpc])
      split at hs
      · rename_i ho
        cases hs
        refine inv_release h hc ?_ rfl rfl hout
        simp [holds, isUncollected, hpc, ho, Pc.seat]
      · rename_i ho
        cases hs
        refine inv_setPc h hc ?_ (fun _ hid => by cases hid) (fun w hw hi => absurd hi (hout w hw))
        simp [holds, isPermit, isUncollected, hpc, ho, Pc.seat]
    · cases hs
  | dropPermit =>
    simp only [moveStep] at hs
    split at hs
    · cases hs
      exact h
    · rename_i hpc
      cases hs
      refine inv_release h hc ?_ rfl rfl (chan_ne_of_pc h hc (fun id' => by simp [hpc]))
      simp [holds, isPermit, hpc]
    · cases hs

/-! ## The other critical sections -/

/-- INTERNAL: a new caller that owns no slot. -/
theorem accounted_append {g : Inner} {callers : List Caller} (h : Accounted g callers)
    {c : Caller} (hno : holds c = false) : Accounted g (callers ++ [c]) := by
  refine ⟨?_, ?_, h.clipped⟩
  · rw [h.active, List.countP_append]
    simp [hno]
  · intro u
    rw [h.perUser u, List.countP_append]
    simp [holdsFor, hno]

/-- INTERNAL: a new caller that comes with a slot. -/
theorem accounted_append_take {g : Inner} {callers : List Caller} (h : Accounted g callers)
    {c : Caller} (hyes : holds c = true) : Accounted (g.takeSlot c.user) (callers ++ [c]) := by
  refine ⟨?_, ?_, h.clipped⟩
  · simp only [Inner.takeSlot]
    rw [h.active, List.countP_append]
    simp [hyes]
  · intro u
    simp only [Inner.takeSlot]
    rw [h.perUser u, List.countP_append]
    by_cases hu : c.user = some u
    · have hyes' : holdsFor u c = true := (holdsFor_eq u c).mpr ⟨hyes, hu⟩
      have hone : List.countP (holdsFor u) [c] = 1 := by simp [hyes']
      rw [hone, entry_succ, entry_getD, hu]
      simp
    · have hno' : holdsFor u c = false := by simp [holdsFor, ofUser, hu]
      have hzero : List.countP (holdsFor u) [c] = 0 := by simp [hno']
      have hne : some u ≠ c.user := fun he => hu he.symm
      rw [hzero]
      simp [hne]

theorem linked_append {callers : List Caller} {w : Waiter} (h : Linked callers w) (c : Caller) :
    Linked (callers ++ [c]) w := by
  obtain ⟨d, hd, hrest⟩ := h
  have hlt := (List.getElem?_eq_some_iff.mp hd).1
  exact ⟨d, by rw [List.getElem?_append_left hlt, hd], hrest⟩

theorem chan_lt_of_linked {callers : List Caller} {w : Waiter} (h : Linked callers w) :
    w.chan < callers.length := by
  obtain ⟨d, hd, -⟩ := h
  exact (List.getElem?_eq_some_iff.mp hd).1

/-- INTERNAL: a new caller whose seat, if it has one, nobody else holds. -/
theorem idsDistinct_append {callers : List Caller} (h : IdsDistinct callers) {c : Caller}
    (hfresh : ∀ id, c.pc.seat = some id → ∀ d ∈ callers, d.pc.seat ≠ some id) :
    IdsDistinct (callers ++ [c]) := by
  have hsplit : ∀ (k : ℕ) (d : Caller), (callers ++ [c])[k]? = some d →
      callers[k]? = some d ∨ (k = callers.length ∧ d = c) := by
    intro k d hk
    by_cases hlt : k < callers.length
    · left
      rwa [List.getElem?_append_left hlt] at hk
    · right
      have hle : callers.length ≤ k := Nat.le_of_not_lt hlt
      rw [List.getElem?_append_right hle] at hk
      have hlt' := (List.getElem?_eq_some_iff.mp hk).1
      have hzero : k - callers.length = 0 := by
        simp only [List.length_cons, List.length_nil] at hlt'
        omega
      rw [hzero] at hk
      exact ⟨by omega, (Option.some.inj hk).symm⟩
  intro i j c₁ c₂ id hi hj h₁ h₂
  rcases hsplit i c₁ hi with hold₁ | ⟨hlast₁, rfl⟩
  · rcases hsplit j c₂ hj with hold₂ | ⟨-, rfl⟩
    · exact h i j c₁ c₂ id hold₁ hold₂ h₁ h₂
    · exact absurd h₁ (hfresh id h₂ c₁ (List.mem_of_getElem? hold₁))
  · rcases hsplit j c₂ hj with hold₂ | ⟨hlast₂, -⟩
    · exact absurd h₂ (hfresh id h₁ c₂ (List.mem_of_getElem? hold₂))
    · exact hlast₁.trans hlast₂.symm

/-- INTERNAL: the fast paths of `enter` and `try_enter`. -/
theorem inv_grant {s : State} (h : Inv s) (user : Option Uuid) (log : List Admission) :
    Inv { inner := s.inner.takeSlot user
          callers := s.callers ++ [{ user, outcome := none, pc := .permit false }]
          log } := by
  have hacc := accounted_append_take h.accounted
    (c := { user, outcome := none, pc := .permit false }) rfl
  refine ⟨hacc, ⟨?_, h.queue.nodup⟩, ?_⟩
  · intro w hw
    exact linked_append (h.queue.linked w hw) _
  · exact idsDistinct_append h.ids (fun _ hid => by cases hid)

theorem inv_enter {s : State} (h : Inv s) {user : Option Uuid}
    (hok : issuesFreshId s (.enter user) = true) : Inv (s.enter user) := by
  unfold State.enter
  simp only
  split
  · have hgrant := inv_grant h user (.entered s.inner user :: s.log)
    exact ⟨accounted_congr hgrant.accounted rfl rfl rfl, hgrant.queue, hgrant.ids⟩
  · rename_i hroom
    have hfresh : ∀ d ∈ s.callers, d.pc.seat ≠ some s.inner.nextId := by
      simpa [issuesFreshId, hroom] using hok
    refine inv_dispatch ⟨?_, ⟨?_, ?_⟩, ?_⟩
    · exact accounted_congr (accounted_append h.accounted rfl) rfl rfl rfl
    · intro w hw
      rcases List.mem_append.mp hw with hw | hw
      · exact linked_append (h.queue.linked w hw) _
      · rw [List.mem_singleton] at hw
        subst hw
        exact ⟨_, List.getElem?_concat_length, rfl, rfl, Or.inl rfl⟩
    · rw [List.map_append, List.nodup_append]
      refine ⟨h.queue.nodup, by simp, ?_⟩
      intro a ha b hb
      obtain ⟨w, hw, rfl⟩ := List.mem_map.mp ha
      simp only [List.map_cons, List.map_nil, List.mem_singleton] at hb
      have hlt := chan_lt_of_linked (h.queue.linked w hw)
      omega
    · refine idsDistinct_append h.ids ?_
      intro id hid d hd
      cases hid
      exact hfresh d hd

theorem inv_tryEnter {s : State} (h : Inv s) : Inv s.tryEnter := by
  unfold State.tryEnter
  simp only
  split
  · exact inv_grant h none _
  · exact h

/-- INTERNAL: closing sends to each waiter in turn; none of them owns a slot. -/
theorem inv_close {s : State} (h : Inv s) : Inv s.close := by
  have hfold : ∀ (ws : List Waiter) (t : State), Accounted t.inner t.callers →
      QueueOk t.callers ws → IdsDistinct t.callers → t.inner.queue = [] →
      Inv (ws.foldl (fun s w => if s.isClosed w.chan then s else s.send w.chan .closed) t) := by
    intro ws
    induction ws with
    | nil =>
      intro t hacc _ hids hq
      refine ⟨hacc, ?_, hids⟩
      simp only [List.foldl_nil, hq]
      exact ⟨fun w hw => absurd hw (by simp), List.nodup_nil⟩
    | cons w ws ih =>
      intro t hacc hqueue hids hq
      obtain ⟨c, hc, -, hout, hseat, hno, hopen⟩ :=
        linked_facts (hqueue.linked w List.mem_cons_self)
      simp only [List.foldl_cons, hopen, Bool.false_eq_true, ↓reduceIte]
      have hperm : isPermit c = false := (Bool.or_eq_false_iff.mp hno).1
      refine ih _ ?_ ?_ ?_ hq
      · refine accounted_modify hacc hc _ ?_ rfl
        rw [hno]
        simp only [holds, isUncollected, Bool.or_eq_false_iff]
        exact ⟨hperm, by simp⟩
      · refine queueOk_modify (queueOk_sublist hqueue (List.sublist_cons_self _ _)) _ ?_
        intro v hv
        exact chan_ne_of_eraseIdx hqueue.nodup (List.getElem?_cons_zero) hv
      · exact idsDistinct_modify hids hc _ (fun _ hid => hid)
  exact hfold s.inner.queue _ (accounted_congr h.accounted rfl rfl rfl) h.queue h.ids rfl

theorem inv_step {s s' : State} {a : Action} (h : Inv s) (hok : issuesFreshId s a = true)
    (hs : step s a = some s') : Inv s' := by
  cases a with
  | enter user =>
    cases hs
    exact inv_enter h hok
  | tryEnter =>
    cases hs
    exact inv_tryEnter h
  | close =>
    cases hs
    exact inv_close h
  | setCapacity n =>
    cases hs
    exact inv_dispatch ⟨accounted_congr h.accounted rfl rfl rfl, h.queue, h.ids⟩
  | setPerUserActive n =>
    cases hs
    exact inv_dispatch ⟨accounted_congr h.accounted rfl rfl rfl, h.queue, h.ids⟩
  | caller i m =>
    simp only [step] at hs
    split at hs
    · rename_i c hc
      exact inv_moveStep h hc hs
    · cases hs

theorem inv_init (capacity : ℕ) : Inv (State.init capacity) := by
  refine ⟨⟨rfl, fun _ => rfl, rfl⟩, ⟨?_, List.nodup_nil⟩, ?_⟩
  · intro w hw
    cases hw
  · intro i j c d id hi
    cases hi

/-- Slot accounting. Over every sequence and interleaving of enter, try_enter, timeouts,
dropped futures, close, permit drops and resizes in which no waiter is given an id that a
future in flight still holds, the counters of the gate are exact.
SOURCE: llm_gate.rs:135-218, 343-444, 472-525 -/
theorem slots_exact (capacity : ℕ) (as : List Action) (s : State)
    (hrun : exec step (State.init capacity) as = some s)
    (hok : Meets step (fun s a => issuesFreshId s a = true) (State.init capacity) as) :
    SlotsExact s := by
  have h : Inv s := by
    refine exec_invariant_of_meets Inv ?_ (inv_init capacity) hrun hok
    intro t a t' ht hoka hs
    exact inv_step ht hoka hs
  exact slotsExact_of_accounted h.accounted

/-- A gate of one slot: a run, a waiter that gives up, one that is admitted late and one
whose future is dropped right after its admission. -/
def busyRun : List Action :=
  [.enter (some 1), .enter (some 2), .enter (some 1), .enter none, .caller 1 .elapse,
    .caller 1 .timeoutLock, .caller 0 .dropPermit, .caller 2 .cancel, .caller 2 .dropLock,
    .caller 2 .handBack, .caller 3 .collect, .tryEnter, .setCapacity 3, .tryEnter]

/-- The counters at the end of the busy run: two permits, none of a user. -/
theorem slots_exact_busyRun :
    ∃ s, exec step (State.init 1) busyRun = some s ∧ s.inner.active = 2 ∧
      s.callers.countP isPermit = 2 ∧ SlotsExact s := by
  refine ⟨_, rfl, by decide, by decide, ?_⟩
  exact slots_exact 1 busyRun _ rfl (by decide)

/-! ## A reissued id -/

/-- INTERNAL: a full gate admits nobody. -/
theorem dispatch_full {s : State} (hfull : ¬ s.inner.active < s.inner.capacity) :
    s.dispatch = { s with inner := { s.inner with
      queue := s.inner.queue.filter fun w => !s.isClosed w.chan }.notifyPositions } := by
  have hloop : ∀ fuel, State.admitLoop fuel { s with inner := { s.inner with
      queue := s.inner.queue.filter fun w => !s.isClosed w.chan } } =
      { s with inner := { s.inner with
        queue := s.inner.queue.filter fun w => !s.isClosed w.chan } } := by
    intro fuel
    cases fuel with
    | zero => rfl
    | succ fuel =>
      unfold State.admitLoop
      simp [hfull]
  unfold State.dispatch
  simp only [hloop]

/-- A caller that left without a trace. -/
def gone : Caller where
  user := none
  outcome := none
  pc := .cancelled

/-- Callers number `m` to `m + n - 1` queue up and are dropped, one after the other. -/
def cycles (m : ℕ) : ℕ → List Action
  | 0 => []
  | n + 1 => .enter none :: .caller m .cancel :: .caller m .dropLock :: cycles (m + 1) n

/-- The gate is full, nobody is queued, and the next waiter gets this id. -/
structure FullIdle (s : State) (id : ℕ) : Prop where
  full : ¬ s.inner.active < s.inner.capacity
  idle : s.inner.queue = []
  next : s.inner.nextId = id

/-- INTERNAL: on a full gate a caller queues and waits. -/
theorem enter_full {s : State} {id : ℕ} (h : FullIdle s id) :
    s.enter none =
      { s with
        inner := { s.inner with
          nextId := (id + 1) % word
          queue := [{ id, user := none, lastPosition := some 0, chan := s.callers.length }] }
        callers := s.callers ++ [{ user := none, outcome := none, pc := .waiting id }] } := by
  have hroom : s.inner.hasRoomFor none = false := by
    simp [Inner.hasRoomFor, h.full]
  unfold State.enter
  simp only [hroom, Bool.false_eq_true, ↓reduceIte]
  rw [dispatch_full (by exact h.full)]
  simp [h.idle, h.next, State.isClosed, Pc.seat, Inner.notifyPositions]

theorem modify_concat {α : Type} (l : List α) (a : α) (f : α → α) :
    (l ++ [a]).modify l.length f = l ++ [f a] := by
  induction l with
  | nil => rfl
  | cons b l ih => simp [ih]

/-- INTERNAL: one caller queues up and is dropped. -/
theorem exec_cycle {s : State} {id : ℕ} (h : FullIdle s id) :
    ∃ t, exec step s [.enter none, .caller s.callers.length .cancel,
        .caller s.callers.length .dropLock] = some t ∧
      FullIdle t ((id + 1) % word) ∧ t.inner.active = s.inner.active ∧
      t.callers = s.callers ++ [gone] := by
  have hfull : ¬ s.inner.active < s.inner.capacity := h.full
  refine ⟨{ inner := { s.inner with
              nextId := (id + 1) % word
              queue := []
              timeoutsTotal := (s.inner.timeoutsTotal + 1) % word }
            callers := s.callers ++ [gone]
            log := s.log }, ?_, ⟨hfull, rfl, rfl⟩, rfl, rfl⟩
  simp only [exec, step, enter_full h, Option.bind_some, List.getElem?_concat_length, moveStep,
    State.setPc, modify_concat, State.unqueue, List.findIdx?_cons, decide_true, ↓reduceIte,
    Inner.countTimeouts, List.eraseIdx_zero, List.tail_cons]
  rw [dispatch_full (by exact hfull)]
  simp [modify_concat, Inner.notifyPositions, gone]

/-- INTERNAL: any number of callers do so. -/
theorem exec_cycles (n : ℕ) {s : State} {id : ℕ} (h : FullIdle s id) (hid : id < word) :
    ∃ t, exec step s (cycles s.callers.length n) = some t ∧ FullIdle t ((id + n) % word) ∧
      t.inner.active = s.inner.active ∧ t.callers = s.callers ++ List.replicate n gone := by
  induction n generalizing s id with
  | zero =>
    refine ⟨s, rfl, ?_, rfl, by simp⟩
    rw [Nat.add_zero, Nat.mod_eq_of_lt hid]
    exact h
  | succ n ih =>
    obtain ⟨t₁, hrun₁, hfull₁, hact₁, hcallers₁⟩ := exec_cycle h
    have hlt : (id + 1) % word < word := Nat.mod_lt _ (by simp [word])
    obtain ⟨t₂, hrun₂, hfull₂, hact₂, hcallers₂⟩ := ih hfull₁ hlt
    have hlen : t₁.callers.length = s.callers.length + 1 := by simp [hcallers₁]
    have hnext : ((id + 1) % word + n) % word = (id + (n + 1)) % word := by
      rw [Nat.mod_add_mod]
      congr 1
      omega
    refine ⟨t₂, ?_, hnext ▸ hfull₂, hact₂.trans hact₁, ?_⟩
    · rw [hlen] at hrun₂
      have happ := exec_append step s [.enter none, .caller s.callers.length .cancel,
        .caller s.callers.length .dropLock] (cycles (s.callers.length + 1) n)
      rw [hrun₁, Option.bind_some, hrun₂] at happ
      exact happ
    · rw [hcallers₂, hcallers₁, List.replicate_succ]
      simp

/-- The waiter with id 0 is admitted when the permit before it is dropped, and its future
is not polled. -/
def admitUnpolled : List Action := [.enter none, .enter none, .caller 0 .dropPermit]

/-- As many callers come and go as it takes for the counter to wrap, one more queues, and
the unpolled future is dropped. -/
def reissuingRun : List Action :=
  admitUnpolled ++ (cycles 2 (word - 1) ++
    [.enter none, .caller 1 .cancel, .caller 1 .dropLock])

/-- INTERNAL: the unpolled future has the id of the new waiter: it takes that waiter out
and does not hand its slot back. -/
theorem exec_drop_reissued {s : State} (h : FullIdle s 0) {n : ℕ} {c : Caller}
    (hcallers : s.callers = { user := none, outcome := none, pc := .permit true } ::
      { user := none, outcome := some .admitted, pc := .waiting 0 } :: List.replicate n c) :
    ∃ t, exec step s [.enter none, .caller 1 .cancel, .caller 1 .dropLock] = some t ∧
      t.inner.active = s.inner.active ∧
      t.callers = { user := none, outcome := none, pc := .permit true } ::
        { user := none, outcome := some .admitted, pc := .cancelled } ::
        (List.replicate n c ++ [{ user := none, outcome := none, pc := .waiting 0 }]) := by
  have hfull : ¬ s.inner.active < s.inner.capacity := h.full
  refine ⟨{ inner := { s.inner with
              nextId := 1
              queue := []
              timeoutsTotal := (s.inner.timeoutsTotal + 1) % word }
            callers := { user := none, outcome := none, pc := .permit true } ::
              { user := none, outcome := some .admitted, pc := .cancelled } ::
              (List.replicate n c ++ [{ user := none, outcome := none, pc := .waiting 0 }])
            log := s.log }, ?_, rfl, rfl⟩
  have hone : (0 + 1) % word = 1 := by decide
  simp only [exec, step, enter_full h, hcallers, hone, Option.bind_some, List.cons_append,
    List.getElem?_cons_succ, List.getElem?_cons_zero, moveStep, State.setPc,
    List.modify_succ_cons, List.modify_zero_cons, State.unqueue, List.findIdx?_cons, decide_true,
    ↓reduceIte, Inner.countTimeouts, List.eraseIdx_zero, List.tail_cons]
  rw [dispatch_full (by exact hfull)]
  simp [Inner.notifyPositions]

/-- After the counter has wrapped a slot leaks: the gate counts one active run, and there
is neither a permit nor an uncollected admission. -/
theorem slot_leaked_by_reissued_id :
    ∃ s, exec step (State.init 1) reissuingRun = some s ∧ s.inner.active = 1 ∧
      s.callers.countP isPermit = 0 ∧ s.callers.countP isUncollected = 0 ∧ ¬ SlotsExact s := by
  obtain ⟨s₁, hrun₁, hfull₁, hact₁, hcallers₁⟩ :
      ∃ s₁, exec step (State.init 1) admitUnpolled = some s₁ ∧ FullIdle s₁ 1 ∧
        s₁.inner.active = 1 ∧
        s₁.callers = [{ user := none, outcome := none, pc := .permit true },
          { user := none, outcome := some .admitted, pc := .waiting 0 }] :=
    ⟨_, rfl, ⟨by decide, by decide, by decide⟩, by decide, by decide⟩
  have hlen : s₁.callers.length = 2 := by simp [hcallers₁]
  obtain ⟨s₂, hrun₂, hfull₂, hact₂, hcallers₂⟩ := exec_cycles (word - 1) hfull₁ (by decide)
  have hwrap : (1 + (word - 1)) % word = 0 := by decide
  rw [hwrap] at hfull₂
  rw [hcallers₁] at hcallers₂
  obtain ⟨s₃, hrun₃, hact₃, hcallers₃⟩ := exec_drop_reissued hfull₂ hcallers₂
  have hactive : s₃.inner.active = 1 := hact₃.trans (hact₂.trans hact₁)
  have hpermits : s₃.callers.countP isPermit = 0 := by
    rw [hcallers₃]
    simp [List.countP_append, List.countP_replicate, isPermit, gone]
  have huncollected : s₃.callers.countP isUncollected = 0 := by
    rw [hcallers₃]
    simp [List.countP_append, List.countP_replicate, isUncollected, gone, Pc.seat]
  refine ⟨s₃, ?_, hactive, hpermits, huncollected, ?_⟩
  · unfold reissuingRun
    rw [hlen] at hrun₂
    rw [exec_append, hrun₁, Option.bind_some, exec_append, hrun₂, Option.bind_some, hrun₃]
  · intro hexact
    have hcount := hexact.active
    rw [hactive, hpermits, huncollected] at hcount
    cases hcount

end Mycelium.Analysis.LlmGateSlots
