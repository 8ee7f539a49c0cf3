import Mycelium.Model.Throttle

/-!
# The law of the backoff

1. *Histories.* What the throttle keeps of a key is the number of its failures since its last
   success, modulo 2^32, and the time of the last of them (`matches_run`).
2. *The law* of the delays, doubled with each failure up to the cap, and where the decisions
   are those of the law (`backoff_lawful_iff`).
-/

set_option autoImplicit false

namespace Mycelium.Analysis.BackoffLaw

open Mycelium.Model.Throttle

/-! ## Histories -/

/-- What is recorded, with the reading of the clock, and the settings as they change. -/
inductive Event where
  | failure (key : String) (now : ℕ)
  | success (key : String)
  | limits (maxFailures cap : ℕ)

def apply (t : AuthThrottle) : Event → AuthThrottle
  | .failure key now => (t.recordFailure key now).1
  | .success key => t.recordSuccess key
  | .limits maxFailures cap => t.setLimits maxFailures cap

/-- The throttle after a history. -/
def run (events : List Event) : AuthThrottle := events.foldl apply {}

/-- The times of the failures of a key since its last success, the last one first. -/
def note (key : String) (times : List ℕ) : Event → List ℕ
  | .failure key' now => if key' = key then now :: times else times
  | .success key' => if key' = key then [] else times
  | .limits _ _ => times

def failureTimes (key : String) (events : List Event) : List ℕ := events.foldl (note key) []

/-- What the throttle keeps of a key with these failures. -/
structure Matches (key : String) (t : AuthThrottle) (times : List ℕ) : Prop where
  count : t.failures.get? key = if times = [] then none else some (times.length % u32)
  last : t.lastFailure.get? key = times.head?

/-- INTERNAL: one event. -/
theorem matches_apply {key : String} {t : AuthThrottle} {times : List ℕ} (h : Matches key t times)
    (e : Event) : Matches key (apply t e) (note key times e) := by
  cases e with
  | failure key' now =>
    by_cases hkey : key' = key
    · subst hkey
      have hcount : (((t.failures.get? key').getD 0) + 1) % u32 = (times.length + 1) % u32 := by
        rw [h.count]
        by_cases hnil : times = []
        · simp [hnil]
        · rw [if_neg hnil, Option.getD_some, Nat.mod_add_mod]
      have htimes : note key' times (.failure key' now) = now :: times := if_pos rfl
      refine ⟨?_, ?_⟩
      · rw [htimes, apply, recordFailure_fst, Dict.get?_insert, if_pos rfl, hcount,
          if_neg (List.cons_ne_nil now times), List.length_cons]
      · rw [htimes, apply, recordFailure_fst, Dict.get?_insert, if_pos rfl]
        rfl
    · have htimes : note key times (.failure key' now) = times := if_neg hkey
      refine ⟨?_, ?_⟩
      · rw [htimes, apply, recordFailure_fst, Dict.get?_insert, if_neg (Ne.symm hkey)]
        exact h.count
      · rw [htimes, apply, recordFailure_fst, Dict.get?_insert, if_neg (Ne.symm hkey)]
        exact h.last
  | success key' =>
    by_cases hkey : key' = key
    · have htimes : note key times (.success key') = [] := if_pos hkey
      refine ⟨?_, ?_⟩
      · rw [htimes, apply, AuthThrottle.recordSuccess, Dict.get?_erase, if_pos hkey.symm, if_pos rfl]
      · rw [htimes, apply, AuthThrottle.recordSuccess, Dict.get?_erase, if_pos hkey.symm]
        rfl
    · have htimes : note key times (.success key') = times := if_neg hkey
      refine ⟨?_, ?_⟩
      · rw [htimes, apply, AuthThrottle.recordSuccess, Dict.get?_erase, if_neg (Ne.symm hkey)]
        exact h.count
      · rw [htimes, apply, AuthThrottle.recordSuccess, Dict.get?_erase, if_neg (Ne.symm hkey)]
        exact h.last
  | limits maxFailures cap => exact ⟨h.count, h.last⟩

/-- INTERNAL: a history of events, from anywhere. -/
theorem matches_foldl {key : String} {t : AuthThrottle} {times : List ℕ} (h : Matches key t times)
    (events : List Event) :
    Matches key (events.foldl apply t) (events.foldl (note key) times) := by
  induction events generalizing t times with
  | nil => exact h
  | cons e events ih => exact ih (matches_apply h e)

theorem matches_run (key : String) (events : List Event) :
    Matches key (run events) (failureTimes key events) := by
  apply matches_foldl
  exact ⟨rfl, rfl⟩

/-! ## The law -/

/-- One second, doubled with each failure beyond the limit, up to the cap. -/
def lawDelay (n limit cap : ℕ) : ℕ := min cap (2 ^ (n - limit) * second)

/-- The decision for a key with `n` failures, `elapsed` after the last. -/
def lawDecision (n limit cap elapsed : ℕ) : ThrottleDecision :=
  if limit ≤ n ∧ elapsed < lawDelay n limit cap then .deny (lawDelay n limit cap - elapsed)
  else .allow

/-- How long ago the last of the failures was. -/
def elapsed (times : List ℕ) (now : ℕ) : ℕ := now - times.headD now

/-- The check of a key follows the law of its own failures, and the decision of a failure is the
one a check gives at that instant. -/
structure Lawful (events : List Event) (key : String) (now : ℕ) : Prop where
  check : (run events).check key now =
    lawDecision (failureTimes key events).length (run events).maxFailures (run events).cap
      (elapsed (failureTimes key events) now)
  record : ((run events).recordFailure key now).2 =
    ((run events).recordFailure key now).1.check key now

/-- The window of the last failure is over, the key is below the limit, or it is at it with an
exponent and a cap that the code knows: the count has not wrapped below the limit, and the
delay is at the cap or at most five times doubled. -/
def OnSchedule (n limit cap elapsed : ℕ) : Prop :=
  n < limit ∨ lawDelay n limit cap ≤ elapsed ∨
    (limit ≤ n % u32 ∧ (n - limit = min (n % u32 - limit) 5 ∨
      cap ≤ 2 ^ min (n % u32 - limit) 5 * second))

/-- INTERNAL: the limit is never 0. -/
theorem maxFailures_pos (events : List Event) : 0 < (run events).maxFailures := by
  have hone {t : AuthThrottle} (h : 0 < t.maxFailures) (e : Event) : 0 < (apply t e).maxFailures := by
    cases e with
    | failure key now =>
      rw [apply, recordFailure_fst]
      exact h
    | success key => exact h
    | limits maxFailures cap => exact Nat.lt_of_lt_of_le Nat.zero_lt_one (Nat.le_max_right ..)
  have hall (events : List Event) : ∀ t : AuthThrottle, 0 < t.maxFailures →
      0 < (events.foldl apply t).maxFailures := by
    induction events with
    | nil => exact fun _ h => h
    | cons e events ih => exact fun t h => ih _ (hone h e)
  exact hall events {} (by decide)

/-- INTERNAL: the check, from the failures of the key. -/
theorem check_run (events : List Event) (key : String) (now : ℕ) :
    (run events).check key now =
      if (failureTimes key events).length % u32 < (run events).maxFailures then .allow
      else if delayFor ((failureTimes key events).length % u32) (run events).maxFailures
          (run events).cap ≤ elapsed (failureTimes key events) now then .allow
      else .deny (delayFor ((failureTimes key events).length % u32) (run events).maxFailures
          (run events).cap - elapsed (failureTimes key events) now) := by
  have hmatches := matches_run key events
  have hpos := maxFailures_pos events
  cases htimes : failureTimes key events with
  | nil =>
    have hcount := hmatches.count
    rw [htimes, if_pos rfl] at hcount
    rw [AuthThrottle.check, hcount]
    simp [hpos]
  | cons last times =>
    have hcount := hmatches.count
    have hlast := hmatches.last
    rw [htimes, if_neg (List.cons_ne_nil last times)] at hcount
    rw [htimes] at hlast
    rw [AuthThrottle.check, hcount]
    simp only [hlast, List.head?_cons]
    rfl

theorem delayFor_le_lawDelay {m n limit cap : ℕ} (hmn : m ≤ n) :
    delayFor m limit cap ≤ lawDelay n limit cap := by
  have hexp : min (m - limit) 5 ≤ n - limit := by omega
  have hpow : 2 ^ min (m - limit) 5 ≤ 2 ^ (n - limit) := Nat.pow_le_pow_right (by omega) hexp
  have hsecond := Nat.mul_le_mul_right second hpow
  rw [delayFor, lawDelay]
  omega

/-- INTERNAL: where the two delays agree. -/
theorem delayFor_eq_iff {m n limit cap : ℕ} (hmn : m ≤ n) :
    delayFor m limit cap = lawDelay n limit cap ↔
      n - limit = min (m - limit) 5 ∨ cap ≤ 2 ^ min (m - limit) 5 * second := by
  have hexp : min (m - limit) 5 ≤ n - limit := by omega
  rw [delayFor, lawDelay]
  generalize min (m - limit) 5 = a at hexp ⊢
  constructor
  · intro heq
    by_cases hcap : cap ≤ 2 ^ a * second
    · exact .inr hcap
    · left
      by_contra hne
      have hlt : 2 ^ a < 2 ^ (n - limit) := Nat.pow_lt_pow_right (by omega) (by omega)
      have hsecond := Nat.mul_lt_mul_of_pos_right hlt (Nat.pow_pos (n := 9) (Nat.succ_pos 9))
      rw [second] at heq hcap
      omega
  · rintro (heq | hcap)
    · rw [heq, Nat.min_comm]
    · have hpow : 2 ^ a ≤ 2 ^ (n - limit) := Nat.pow_le_pow_right (by omega) hexp
      have hsecond := Nat.mul_le_mul_right second hpow
      rw [Nat.min_eq_right hcap, Nat.min_eq_left (hcap.trans hsecond)]

/-- INTERNAL: the decision of a check, for a count that is kept modulo 2^32. -/
theorem decision_eq_iff {n limit cap elapsed : ℕ} :
    (if n % u32 < limit then ThrottleDecision.allow
      else if delayFor (n % u32) limit cap ≤ elapsed then .allow
      else .deny (delayFor (n % u32) limit cap - elapsed)) = lawDecision n limit cap elapsed ↔
      OnSchedule n limit cap elapsed := by
  have hle : n % u32 ≤ n := Nat.mod_le n u32
  have hdelay := @delayFor_le_lawDelay _ _ limit cap hle
  have heq := @delayFor_eq_iff _ _ limit cap hle
  rw [OnSchedule, ← heq, lawDecision]
  by_cases hlimit : n < limit
  · have hkept : n % u32 < limit := by omega
    have hlaw : ¬ (limit ≤ n ∧ elapsed < lawDelay n limit cap) := by omega
    rw [if_pos hkept, if_neg hlaw]
    exact iff_of_true rfl (.inl hlimit)
  · by_cases hover : lawDelay n limit cap ≤ elapsed
    · have hlaw : ¬ (limit ≤ n ∧ elapsed < lawDelay n limit cap) := by omega
      have hcode : delayFor (n % u32) limit cap ≤ elapsed := by omega
      rw [if_neg hlaw, if_pos hcode, ite_self]
      exact iff_of_true rfl (.inr (.inl hover))
    · have hlaw : limit ≤ n ∧ elapsed < lawDelay n limit cap := by omega
      rw [if_pos hlaw]
      by_cases hkept : n % u32 < limit
      · rw [if_pos hkept]
        refine iff_of_false (fun h => by cases h) ?_
        omega
      · rw [if_neg hkept]
        by_cases hcode : delayFor (n % u32) limit cap ≤ elapsed
        · rw [if_pos hcode]
          refine iff_of_false (fun h => by cases h) ?_
          omega
        · rw [if_neg hcode]
          constructor
          · intro h
            have hsub := ThrottleDecision.deny.inj h
            omega
          · intro h
            have hsame : delayFor (n % u32) limit cap = lawDelay n limit cap := by omega
            rw [hsame]

/-- INTERNAL: the decision of a failure and the check after it. -/
theorem record_eq_iff (t : AuthThrottle) (key : String) (now : ℕ) :
    (t.recordFailure key now).2 = (t.recordFailure key now).1.check key now ↔
      ((t.failures.get? key).getD 0 + 1) % u32 < t.maxFailures ∨ 0 < t.cap := by
  have hnow : now - now = 0 := Nat.sub_self now
  rw [recordFailure_fst, AuthThrottle.check, AuthThrottle.recordFailure]
  simp only [Dict.get?_insert, if_true]
  by_cases hbelow : ((t.failures.get? key).getD 0 + 1) % u32 < t.maxFailures
  · rw [if_pos hbelow, if_pos hbelow]
    exact iff_of_true rfl (.inl hbelow)
  · rw [if_neg hbelow, if_neg hbelow, hnow, Nat.sub_zero]
    generalize ((t.failures.get? key).getD 0 + 1) % u32 = n at hbelow ⊢
    have hpow : 0 < 2 ^ min (n - t.maxFailures) 5 * second :=
      Nat.mul_pos (Nat.pow_pos (by omega)) (Nat.pow_pos (by omega))
    by_cases hcap : 0 < t.cap
    · have hdelay : ¬ delayFor n t.maxFailures t.cap ≤ 0 := by
        rw [delayFor]
        omega
      rw [if_neg hdelay]
      exact iff_of_true rfl (.inr hcap)
    · have hdelay : delayFor n t.maxFailures t.cap ≤ 0 := by
        rw [delayFor]
        omega
      rw [if_pos hdelay]
      exact iff_of_false (fun h => by cases h) fun h => h.elim hbelow hcap

/-- INTERNAL: a lawful decision is on schedule. -/
theorem Lawful.onSchedule {events : List Event} {key : String} {now : ℕ}
    (h : Lawful events key now) :
    OnSchedule (failureTimes key events).length (run events).maxFailures (run events).cap
      (elapsed (failureTimes key events) now) := by
  have hlaw := h.check
  rw [check_run events key now] at hlaw
  exact decision_eq_iff.mp hlaw

/-- **The law of the backoff.** The decisions on a key follow it exactly where the key is on
schedule, and where a failure that reaches the limit finds a cap above 0.
SOURCE: throttle.rs:13-41, 74-108 -/
theorem backoff_lawful_iff (events : List Event) (key : String) (now : ℕ) :
    Lawful events key now ↔
      OnSchedule (failureTimes key events).length (run events).maxFailures (run events).cap
        (elapsed (failureTimes key events) now) ∧
      (((failureTimes key events).length + 1) % u32 < (run events).maxFailures ∨
        0 < (run events).cap) := by
  have hcount : (((run events).failures.get? key).getD 0 + 1) % u32 =
      ((failureTimes key events).length + 1) % u32 := by
    rw [(matches_run key events).count]
    by_cases hnil : failureTimes key events = []
    · simp [hnil]
    · rw [if_neg hnil, Option.getD_some, Nat.mod_add_mod]
  have hcheck := check_run events key now
  have hrecord := record_eq_iff (run events) key now
  rw [hcount] at hrecord
  constructor
  · intro h
    exact ⟨h.onSchedule, hrecord.mp h.record⟩
  · rintro ⟨hlaw, hsame⟩
    exact ⟨hcheck.trans (decision_eq_iff.mpr hlaw), hrecord.mpr hsame⟩

/-- Nine failures under a cap of a minute. -/
def nineFailures : List Event :=
  .limits 3 (60 * second) :: List.replicate 9 (.failure "u" 0)

/-- Forty seconds after the last of them the key is let through. -/
theorem cap_not_reached : ¬ ∀ (events : List Event) (key : String) (now : ℕ),
    Lawful events key now := by
  intro hall
  have hlaw := (hall nineFailures "u" (40 * second)).onSchedule
  have htimes : failureTimes "u" nineFailures = List.replicate 9 0 := rfl
  have hlimit : (run nineFailures).maxFailures = 3 := rfl
  have hcap : (run nineFailures).cap = 60 * second := rfl
  rw [htimes, hlimit, hcap] at hlaw
  revert hlaw
  simp [OnSchedule, lawDelay, elapsed, second, u32]

end Mycelium.Analysis.BackoffLaw
