import Mathlib.Algebra.GroupWithZero.Nat
import Mathlib.Data.List.Basic
import Mathlib.Order.Lattice

/-!
# The LLM admission gate

The process-wide gate that decides how many agent runs may talk to the backend. `Inner`
is what the gate owns under its lock. A caller is an `enter` future, or the permit it
resolved to; its oneshot channel is the field `outcome`, which a dispatch fills and only
the caller's own future empties.

Every critical section is one step. The parts of `enter` and of the drop of its future
that run between two critical sections are steps of their own, so that other callers may
run in between. Position callbacks are taken to return: what they were told last is the
`lastPosition` of the waiter. The wait times (a floating-point sum for the metrics) are
left out.

SOURCE: crates/mycelium-librarian/src/llm_gate.rs
-/

set_option autoImplicit false

namespace Mycelium.Model.LlmGate

abbrev Uuid := ℕ

/-! ## The gate's data -/

inductive GateError where
  | timeout
  | closed
  deriving DecidableEq, Repr

/-- What a waiter learns from the gate. -/
inductive Outcome where
  | admitted
  | closed
  deriving DecidableEq, Repr

/-- A queued waiter; `chan` is the caller that holds the receiving end of its channel. -/
structure Waiter where
  id : ℕ
  user : Option Uuid
  lastPosition : Option ℕ
  chan : ℕ
  deriving DecidableEq, Repr

/-- Everything under the lock. `clipped` is a ghost: it is set when a slot is handed back
that the counters do not have. -/
structure Inner where
  capacity : ℕ
  perUserActive : ℕ
  active : ℕ
  perUser : Uuid → Option ℕ
  queue : List Waiter
  nextId : ℕ
  admissionsTotal : ℕ
  timeoutsTotal : ℕ
  waitCount : ℕ
  clipped : Bool

def word : ℕ := 2 ^ 64

def clampTo (lo hi n : ℕ) : ℕ := max lo (min n hi)

/-- SOURCE: llm_gate.rs:227-243 -/
def Inner.new (capacity : ℕ) : Inner where
  capacity := clampTo 1 1024 capacity
  perUserActive := 2
  active := 0
  perUser := fun _ => none
  queue := []
  nextId := 0
  admissionsTotal := 0
  timeoutsTotal := 0
  waitCount := 0
  clipped := false

/-- SOURCE: llm_gate.rs:139-144 -/
def Inner.atUserCap (g : Inner) (user : Option Uuid) : Bool :=
  match user with
  | some u => g.perUserActive ≤ (g.perUser u).getD 0
  | none => false

/-- SOURCE: llm_gate.rs:147-153 -/
def Inner.takeSlot (g : Inner) (user : Option Uuid) : Inner :=
  { g with
    active := g.active + 1
    perUser := fun v => if some v = user then some ((g.perUser v).getD 0 + 1) else g.perUser v
    admissionsTotal := (g.admissionsTotal + 1) % word }

/-- The entry of a user that hands a slot back: it goes when it reaches zero. -/
def lessOne : Option ℕ → Option ℕ
  | none => none
  | some n => if n - 1 = 0 then none else some (n - 1)

/-- The counters have no slot of this user. -/
def Inner.lacksSlot (g : Inner) (user : Option Uuid) : Bool :=
  g.active = 0 || (match user with
    | some u => (g.perUser u).getD 0 = 0
    | none => false)

/-- SOURCE: llm_gate.rs:156-166 -/
def Inner.freeSlot (g : Inner) (user : Option Uuid) : Inner :=
  { g with
    active := g.active - 1
    perUser := fun v => if some v = user then lessOne (g.perUser v) else g.perUser v
    clipped := g.clipped || g.lacksSlot user }

def Inner.recordWait (g : Inner) : Inner := { g with waitCount := (g.waitCount + 1) % word }

def Inner.countTimeouts (g : Inner) (n : ℕ) : Inner :=
  { g with timeoutsTotal := (g.timeoutsTotal + n) % word }

/-- SOURCE: llm_gate.rs:198-205 -/
def Inner.notifyPositions (g : Inner) : Inner :=
  { g with queue := g.queue.mapIdx fun pos w => { w with lastPosition := some pos } }

/-! ## Callers -/

/-- Where a caller stands. The points that carry an id still hold the receiving end of
the channel; the first three are armed. -/
inductive Pc where
  | waiting (id : ℕ)
  | timingOut (id : ℕ)
  | dropping (id : ℕ)
  | lateRecv (id : ℕ)
  | handBack (id : ℕ)
  | permit (released : Bool)
  | failed (e : GateError)
  | cancelled
  deriving DecidableEq, Repr

structure Caller where
  user : Option Uuid
  outcome : Option Outcome
  pc : Pc
  deriving DecidableEq, Repr

/-- The id of the seat whose receiver the caller holds. -/
def Pc.seat : Pc → Option ℕ
  | .waiting id | .timingOut id | .dropping id | .lateRecv id | .handBack id => some id
  | .permit _ | .failed _ | .cancelled => none

/-- How a slot was taken: the gate as it was, and for a dispatched waiter its index. -/
inductive Admission where
  | entered (before : Inner) (user : Option Uuid)
  | tried (before : Inner)
  | dispatched (before : Inner) (idx : ℕ)

/-- The gate and its callers; `log` is a ghost. -/
structure State where
  inner : Inner
  callers : List Caller
  log : List Admission

def State.init (capacity : ℕ) : State where
  inner := Inner.new capacity
  callers := []
  log := []

/-- `tx.is_closed()`: nobody holds the receiving end any more. -/
def State.isClosed (s : State) (chan : ℕ) : Bool :=
  match s.callers[chan]? with
  | some c => c.pc.seat.isNone
  | none => true

def State.setPc (s : State) (i : ℕ) (pc : Pc) : State :=
  { s with callers := s.callers.modify i fun c => { c with pc } }

/-- `tx.send`. -/
def State.send (s : State) (chan : ℕ) (o : Outcome) : State :=
  { s with callers := s.callers.modify chan fun c => { c with outcome := some o } }

/-! ## Dispatch -/

/-- The admission loop. Every round takes a waiter out, so the length of the queue is
enough rounds. SOURCE: llm_gate.rs:179-194 -/
def State.admitLoop : ℕ → State → State
  | 0, s => s
  | fuel + 1, s =>
    if s.inner.active < s.inner.capacity then
      match s.inner.queue.findIdx? fun w => !s.inner.atUserCap w.user with
      | none => s
      | some idx =>
        match s.inner.queue[idx]? with
        | none => s
        | some waiter =>
          let g := { s.inner with queue := s.inner.queue.eraseIdx idx }
          let g := (g.takeSlot waiter.user).recordWait
          let s' := { s with inner := g, log := .dispatched s.inner idx :: s.log }
          if s.isClosed waiter.chan then
            -- a cancelled caller: the slot goes straight back
            State.admitLoop fuel { s' with inner := g.freeSlot waiter.user }
          else State.admitLoop fuel (s'.send waiter.chan .admitted)
    else s

/-- SOURCE: llm_gate.rs:175-196 -/
def State.dispatch (s : State) : State :=
  let queue := s.inner.queue.filter fun w => !s.isClosed w.chan
  let s := { s with inner := { s.inner with queue } }
  let s := s.admitLoop queue.length
  { s with inner := s.inner.notifyPositions }

/-- SOURCE: llm_gate.rs:439-443 -/
def State.release (s : State) (user : Option Uuid) : State :=
  State.dispatch { s with inner := s.inner.freeSlot user }

/-! ## Operations -/

/-- The condition of the fast path of `enter`. -/
def Inner.hasRoomFor (g : Inner) (user : Option Uuid) : Bool :=
  g.queue.isEmpty && g.active < g.capacity && !g.atUserCap user

/-- The first critical section of `enter`. SOURCE: llm_gate.rs:352-385 -/
def State.enter (s : State) (user : Option Uuid) : State :=
  let g := s.inner
  if g.hasRoomFor user then
    { inner := (g.takeSlot user).recordWait
      callers := s.callers ++ [{ user, outcome := none, pc := .permit false }]
      log := .entered g user :: s.log }
  else
    let id := g.nextId
    let waiter : Waiter := { id, user, lastPosition := none, chan := s.callers.length }
    State.dispatch
      { s with
        inner := { g with nextId := (id + 1) % word, queue := g.queue ++ [waiter] }
        callers := s.callers ++ [{ user, outcome := none, pc := .waiting id }] }

/-- SOURCE: llm_gate.rs:319-327 -/
def State.tryEnter (s : State) : State :=
  let g := s.inner
  if g.queue.isEmpty ∧ g.active < g.capacity then
    { inner := g.takeSlot none
      callers := s.callers ++ [{ user := none, outcome := none, pc := .permit false }]
      log := .tried g :: s.log }
  else s

/-- What the receiving end has: a message, nothing yet, or the error of a dropped
sender. -/
inductive Received where
  | message (o : Outcome)
  | pending
  | senderGone

def State.recv (s : State) (i : ℕ) (c : Caller) : Received :=
  match c.outcome with
  | some o => .message o
  | none => if s.inner.queue.any fun w => w.chan = i then .pending else .senderGone

/-- The future resolves from what it received. SOURCE: llm_gate.rs:388-398, 415-420 -/
def State.resolve (s : State) (i : ℕ) : Received → State
  | .message .admitted => s.setPc i (.permit false)
  | .message .closed | .senderGone | .pending => s.setPc i (.failed .closed)

/-- The waiter with this id leaves the queue, if there is one. -/
def State.unqueue (s : State) (id : ℕ) : Option State :=
  match s.inner.queue.findIdx? fun w => w.id = id with
  | some pos =>
    some { s with
      inner := { s.inner with queue := s.inner.queue.eraseIdx pos }.countTimeouts 1 }
  | none => none

/-- SOURCE: llm_gate.rs:430-437 -/
def State.close (s : State) : State :=
  let waiters := s.inner.queue
  let s := { s with inner := { s.inner with queue := [] }.countTimeouts waiters.length }
  waiters.foldl (fun s w => if s.isClosed w.chan then s else s.send w.chan .closed) s

/-- What a caller does next: its future is polled with the channel ready (`collect`) or
with the bound elapsed (`elapse`), is dropped while it waits (`cancel`), or goes on from
the point it stands at; a permit is dropped. -/
inductive Move where
  | collect
  | elapse
  | timeoutLock
  | lateRecv
  | cancel
  | dropLock
  | handBack
  | dropPermit
  deriving DecidableEq, Repr

/-- A move of the caller `i`, when it stands at a point that allows it.
SOURCE: llm_gate.rs:387-422 (enter), 472-498 (drop of the future), 519-525 (of the permit) -/
def moveStep (s : State) (i : ℕ) (c : Caller) : Move → Option State
  | .collect =>
    match c.pc, s.recv i c with
    | .waiting _, .message o => some (s.resolve i (.message o))
    | .waiting _, .senderGone => some (s.resolve i .senderGone)
    | _, _ => none
  | .elapse =>
    match c.pc, s.recv i c with
    | .waiting id, .pending => some (s.setPc i (.timingOut id))
    | _, _ => none
  | .timeoutLock =>
    match c.pc with
    | .timingOut id =>
      match s.unqueue id with
      | some s' =>
        some ({ s' with inner := s'.inner.notifyPositions }.setPc i (.failed .timeout))
      | none => some (s.setPc i (.lateRecv id))
    | _ => none
  | .lateRecv =>
    match c.pc with
    | .lateRecv _ => some (s.resolve i (s.recv i c))
    | _ => none
  | .cancel =>
    match c.pc with
    | .waiting id => some (s.setPc i (.dropping id))
    | _ => none
  | .dropLock =>
    match c.pc with
    | .dropping id =>
      match s.unqueue id with
      | some s' => some (s'.dispatch.setPc i .cancelled)
      | none => some (s.setPc i (.handBack id))
    | _ => none
  | .handBack =>
    match c.pc with
    | .handBack _ =>
      if c.outcome = some .admitted then some ((s.setPc i .cancelled).release c.user)
      else some (s.setPc i .cancelled)
    | _ => none
  | .dropPermit =>
    match c.pc with
    -- the latch of the permit
    | .permit true => some s
    | .permit false => some ((s.setPc i (.permit true)).release c.user)
    | _ => none

inductive Action where
  | enter (user : Option Uuid)
  | tryEnter
  | close
  | setCapacity (n : ℕ)
  | setPerUserActive (n : ℕ)
  | caller (i : ℕ) (move : Move)
  deriving DecidableEq, Repr

/-- One step of the gate. SOURCE: llm_gate.rs:263-287 (resizing) -/
def step (s : State) : Action → Option State
  | .enter user => some (s.enter user)
  | .tryEnter => some s.tryEnter
  | .close => some s.close
  | .setCapacity n =>
    some (State.dispatch { s with inner := { s.inner with capacity := clampTo 1 1024 n } })
  | .setPerUserActive n =>
    some (State.dispatch { s with inner := { s.inner with perUserActive := clampTo 1 16 n } })
  | .caller i move =>
    match s.callers[i]? with
    | some c => moveStep s i c move
    | none => none

end Mycelium.Model.LlmGate
