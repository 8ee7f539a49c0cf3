import Mycelium.Lib.Dict

/-!
# The login throttle

Failure counts and the time of the last failure by key, and the backoff that follows from
them. Times and durations are nanoseconds on the monotonic clock; the counts are 32 bits
wide and wrap.

SOURCE: crates/mycelium-auth/src/throttle.rs
-/

set_option autoImplicit false

namespace Mycelium.Model.Throttle

def second : ℕ := 10 ^ 9

def u32 : ℕ := 2 ^ 32

inductive ThrottleDecision where
  | allow
  | deny (retryAfter : ℕ)
  deriving DecidableEq, Repr

structure AuthThrottle where
  failures : Dict String ℕ := ∅
  lastFailure : Dict String ℕ := ∅
  maxFailures : ℕ := 3
  cap : ℕ := 30 * second

/-- One second, doubled with each further failure up to 32 seconds, then capped.
SOURCE: throttle.rs:35-40 -/
def delayFor (failures maxFailures cap : ℕ) : ℕ :=
  min (2 ^ min (failures - maxFailures) 5 * second) cap

def AuthThrottle.setLimits (t : AuthThrottle) (maxFailures cap : ℕ) : AuthThrottle :=
  { t with maxFailures := max maxFailures 1, cap }

/-- SOURCE: throttle.rs:74-96 -/
def AuthThrottle.check (t : AuthThrottle) (key : String) (now : ℕ) : ThrottleDecision :=
  match t.failures.get? key with
  | none => .allow
  | some n =>
    if n < t.maxFailures then .allow
    else
      match t.lastFailure.get? key with
      | none => .allow
      | some last =>
        let delay := delayFor n t.maxFailures t.cap
        let elapsed := now - last
        if delay ≤ elapsed then .allow else .deny (delay - elapsed)

/-- The decision is the one for the next attempt. SOURCE: throttle.rs:98-108 -/
def AuthThrottle.recordFailure (t : AuthThrottle) (key : String) (now : ℕ) :
    AuthThrottle × ThrottleDecision :=
  let n := ((t.failures.get? key).getD 0 + 1) % u32
  let t' := { t with
    failures := t.failures.insert key n, lastFailure := t.lastFailure.insert key now }
  if n < t.maxFailures then (t', .allow)
  else (t', .deny (delayFor n t.maxFailures t.cap))

def AuthThrottle.recordSuccess (t : AuthThrottle) (key : String) : AuthThrottle :=
  { t with failures := t.failures.erase key, lastFailure := t.lastFailure.erase key }

/-- INTERNAL: a key at or over the limit is denied within the backoff of its last failure. -/
theorem check_eq_deny {t : AuthThrottle} {key : String} {n last now : ℕ}
    (hn : t.failures.get? key = some n) (hlast : t.lastFailure.get? key = some last)
    (hmax : t.maxFailures ≤ n) (hwithin : now - last < delayFor n t.maxFailures t.cap) :
    t.check key now = .deny (delayFor n t.maxFailures t.cap - (now - last)) := by
  have hlt : ¬ n < t.maxFailures := by omega
  have hdelay : ¬ delayFor n t.maxFailures t.cap ≤ now - last := by omega
  simp only [AuthThrottle.check, hn, hlast, hlt, hdelay, ↓reduceIte]

theorem recordFailure_fst (t : AuthThrottle) (key : String) (now : ℕ) :
    (t.recordFailure key now).1 = { t with
      failures := t.failures.insert key (((t.failures.get? key).getD 0 + 1) % u32)
      lastFailure := t.lastFailure.insert key now } := by
  simp only [AuthThrottle.recordFailure]
  split <;> rfl

end Mycelium.Model.Throttle
