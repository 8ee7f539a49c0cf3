import Mycelium.Model.LlmHealth
import Mathlib.Data.List.Sort
import Mathlib.Data.String.Basic

/-!
# The dream scheduler and the corpus backfill

The scheduler wakes on an interval and runs one maintenance pass over one scope, in rotation
over the users and the shelf of skills. What a wake meets (the stored rows, the backend, the
gate, the pass itself) is its argument. The backfill is the walk over all scopes that an admin
starts by a click; its clicks and walks are cut at their awaits.

SOURCE: crates/mycelium-web/src/dream_scheduler.rs, crates/mycelium-web/src/api.rs
-/

set_option autoImplicit false

namespace Mycelium.Model.DreamScheduler

open Mycelium.Model.LlmHealth

/-! ## Scopes -/

/-- A user by the canonical text of the id. -/
inductive RotationTarget where
  | user (id : String) (admin : Bool)
  | skills
  deriving DecidableEq, Repr

/-- SOURCE: dream_scheduler.rs:711-716 -/
def RotationTarget.scopeId : RotationTarget → String
  | .user id _ => "user:" ++ id
  | .skills => "global:skills"

/-- The rows of `users` in the order of their ids, then the skills; rows whose id does not
parse are left out, and a role that is not known is no admin's. `parseUuid` gives the canonical
text. SOURCE: dream_scheduler.rs:351-388 -/
def Scheduler.rotation (parseUuid : String → Option String) (rows : List (String × String)) :
    List RotationTarget :=
  (rows.insertionSort fun a b => a.1 ≤ b.1).filterMap (fun row =>
    (parseUuid row.1).map fun id => .user id (row.2 == "admin")) ++ [.skills]

/-! ## One pass -/

structure DreamReport where
  ran : Bool
  reason : Option String
  summary : Option String

/-- How a pass ends. -/
inductive PassEnd where
  | ok (report : DreamReport)
  | err (error : String)
  | panic (payload : Option String)

/-- SOURCE: dream_scheduler.rs:775-795 -/
def catchPassPanic : PassEnd → Except String DreamReport
  | .ok report => .ok report
  | .err error => .error error
  | .panic (some text) => .error text
  | .panic none => .error "non-string panic payload"

/-- What a pass over a scope meets. -/
structure PassEnv where
  health : BackendState
  resolves : Bool
  admitted : Bool
  passEnd : PassEnd

inductive ScopePassOutcome where
  | attempted (report : Except String DreamReport)
  | backendRed
  | gateBusy
  | unresolvable

/-- SOURCE: dream_scheduler.rs:495-527 -/
def runScopePass (env : PassEnv) : ScopePassOutcome :=
  if env.health = .red then .backendRed
  else if !env.resolves then .unresolvable
  else if !env.admitted then .gateBusy
  else .attempted (catchPassPanic env.passEnd)

/-! ## The scheduler -/

structure DreamLastRunRecord where
  time : String
  scope : String
  ran : Bool
  summary : Option String

/-- The row, clamped, and whether it is stored at all. -/
structure LifecycleRead where
  dreamIntervalS : ℕ
  dreamEnabled : Bool
  present : Bool

structure Scheduler where
  cursor : ℕ
  period : ℕ
  ticks : ℕ := 0
  passes : ℕ := 0
  passesSkipped : ℕ := 0
  lastRun : Option DreamLastRunRecord := none

/-- What a wake meets: `none` for a row or an enumeration that cannot be read. -/
structure Wake where
  lifecycle : Option LifecycleRead
  client : Bool
  rotation : Option (List RotationTarget)
  pass : RotationTarget → PassEnv
  now : String
  /-- The record of the pass is written. -/
  recorded : Bool

/-- The cursor stays below the length of a list, so the wrap of `wrapping_add` is not
reached. SOURCE: dream_scheduler.rs:801-803 -/
def advanceCursor (cursor len : ℕ) : ℕ := (cursor + 1) % max len 1

/-- The record of a pass that was attempted; `none` for a deferred one.
SOURCE: dream_scheduler.rs:245-288 -/
def passRecord (target : RotationTarget) (now : String) : ScopePassOutcome →
    Option DreamLastRunRecord
  | .attempted (.ok report) =>
    some ⟨now, target.scopeId, report.ran, (report.summary <|> report.reason).map shortDetail⟩
  | .attempted (.error detail) => some ⟨now, target.scopeId, false, some (shortDetail detail)⟩
  | .unresolvable =>
    some ⟨now, target.scopeId, false,
      some (shortDetail "scope skipped: master key unrecoverable")⟩
  | .backendRed => none
  | .gateBusy => none

def Scheduler.skip (s : Scheduler) : Scheduler := { s with passesSkipped := s.passesSkipped + 1 }

/-- From the client on; `none` defers the wake. SOURCE: dream_scheduler.rs:217-290 -/
def Scheduler.pass (s : Scheduler) (wake : Wake) : Option (Scheduler × RotationTarget) :=
  if !wake.client then none
  else
    wake.rotation.bind fun targets =>
      targets[s.cursor % targets.length]?.bind fun target =>
        (passRecord target wake.now (runScopePass (wake.pass target))).map fun record =>
          ({ s with
              passes := s.passes + 1
              cursor := advanceCursor s.cursor targets.length
              lastRun := if wake.recorded then some record else s.lastRun }, target)

/-- One wake, and the scope whose turn it used. SOURCE: dream_scheduler.rs:182-290 -/
def Scheduler.tick (s : Scheduler) (wake : Wake) : Scheduler × Option RotationTarget :=
  let woken := { s with ticks := s.ticks + 1 }
  match wake.lifecycle with
  | none => (woken.skip, none)
  | some read =>
    let tuned := { woken with period := if read.present then read.dreamIntervalS else s.period }
    match if read.dreamEnabled then tuned.pass wake else none with
    | some (after, target) => (after, some target)
    | none => (tuned.skip, none)

/-- The wakes one after the other, and the scopes that were attempted, in order. -/
def Scheduler.run : Scheduler → List Wake → Scheduler × List RotationTarget
  | s, [] => (s, [])
  | s, wake :: wakes =>
    let (s', attempted) := s.tick wake
    let (s'', rest) := s'.run wakes
    (s'', attempted.toList ++ rest)

/-! ## The backfill -/

/-- A walk: what it has still to visit, and what it has visited (a ghost). -/
inductive WalkPc where
  | starting
  | resolved
  | visiting (visited todo : List RotationTarget)
  /-- The marker is written; the guard is dropped next. -/
  | marked
  deriving DecidableEq

/-- A click and the walk it starts. -/
inductive ClickPc where
  | idle
  /-- Refused: a walk is running. -/
  | refused
  /-- Holds the running-guard; the deletion of the marker is awaited. -/
  | claimed
  /-- The request was dropped at that await. -/
  | abandoned
  /-- The walk; `cleared` is a ghost: the deletion of the marker worked. -/
  | walking (cleared : Bool) (walk : WalkPc)
  | ended
  deriving DecidableEq

/-- One step of a click or its walk, with what the environment decides. -/
inductive ClickChoice where
  | claim
  /-- The deletion answers, and the walk is spawned. -/
  | launch (deleted : Bool)
  | drop (deleted : Bool)
  | client (usable : Bool)
  | targets (found : Option (List RotationTarget))
  | visit (outcome : ScopePassOutcome)
  | mark (written : Bool) (now : String)
  | finish
  /-- The walk selects on the shutdown token, or panics. -/
  | stop

/-- The flag, the completion marker, and all clicks by number. -/
structure Backfill where
  running : Bool := false
  marker : Option String := none
  clicks : ℕ → ClickPc := fun _ => .idle

/-- The click moves on. -/
def Backfill.goto (s : Backfill) (id : ℕ) (pc : ClickPc) : Backfill :=
  { s with clicks := Function.update s.clicks id pc }

/-- The walk is over, and its guard is dropped. -/
def Backfill.release (s : Backfill) (id : ℕ) : Backfill :=
  { s.goto id .ended with running := false }

/-- SOURCE: api.rs:5518-5553, dream_scheduler.rs:584-666 -/
def Backfill.clickStep (s : Backfill) (id : ℕ) : ClickPc → ClickChoice → Option Backfill
  | .idle, .claim =>
    if s.running then some (s.goto id .refused)
    else some { s.goto id .claimed with running := true }
  | .claimed, .launch deleted =>
    some { s.goto id (.walking deleted .starting) with
      marker := if deleted then none else s.marker }
  | .claimed, .drop deleted =>
    some { s.goto id .abandoned with marker := if deleted then none else s.marker }
  | .walking cleared .starting, .client usable =>
    if usable then some (s.goto id (.walking cleared .resolved)) else some (s.release id)
  | .walking cleared .resolved, .targets (some found) =>
    some (s.goto id (.walking cleared (.visiting [] found)))
  | .walking _ .resolved, .targets none => some (s.release id)
  | .walking cleared (.visiting visited (target :: todo)), .visit _ =>
    some (s.goto id (.walking cleared (.visiting (visited ++ [target]) todo)))
  | .walking cleared (.visiting _ []), .mark written now =>
    some { s.goto id (.walking cleared .marked) with
      marker := if written then some now else s.marker }
  | .walking _ .marked, .finish => some (s.release id)
  | .walking _ _, .stop => some (s.release id)
  | _, _ => none

/-- A step of a click, or a restart: the flag and the tasks are lost, the marker is a row. -/
inductive BackfillAction where
  | click (id : ℕ) (choice : ClickChoice)
  | restart

def Backfill.step (s : Backfill) : BackfillAction → Option Backfill
  | .click id choice => s.clickStep id (s.clicks id) choice
  | .restart => some
      { running := false, marker := s.marker
        clicks := fun id => if s.clicks id = .idle then .idle else .ended }

end Mycelium.Model.DreamScheduler
