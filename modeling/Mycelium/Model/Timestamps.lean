import Mathlib.Data.Prod.Lex
import Mathlib.Order.Defs.LinearOrder
import Mycelium.Lib.Calendar
import Mycelium.Lib.Decimals

/-!
# Instants and their texts

A `DateTime<Utc>` of the years 0000 to 9999 and the text that `to_rfc3339` makes of it. The
crate `chrono` is not part of the repository: its format is followed as it documents it, a
fraction of 0, 3, 6 or 9 digits, whichever is the shortest that is exact. Reading a text is
a parameter of the models that read (`Mycelium.Model.Sessions`).
-/

set_option autoImplicit false

namespace Mycelium.Model.Timestamps

open Decimal Calendar

/-- Seconds since the first of January of the year 0, and nanoseconds: a second and more of
them in a leap second, which follows the last second of a minute. -/
@[ext] structure Instant where
  secs : ℕ
  nanos : ℕ
  year_lt : secs / 86400 < daysBeforeYear 10000
  nanos_lt : nanos < 10 ^ 9 ∨ nanos < 2 * 10 ^ 9 ∧ secs % 60 = 59
  deriving DecidableEq, Repr

/-- Instants compare by seconds, then by nanoseconds. -/
instance : LinearOrder Instant :=
  LinearOrder.lift' (fun i => toLex (i.secs, i.nanos)) fun i j h => by
    have hpair : (i.secs, i.nanos) = (j.secs, j.nanos) := h
    exact Instant.ext (Prod.mk.inj hpair).1 (Prod.mk.inj hpair).2

def Instant.day (i : Instant) : ℕ := i.secs / 86400

/-- Year, month, day, hour, minute and second; the second of a leap second is 60. -/
def Instant.fields (i : Instant) : List ℕ :=
  [yearOf i.day, (monthDayOf i.day).1, (monthDayOf i.day).2, i.secs / 3600 % 24,
    i.secs / 60 % 60, i.secs % 60 + i.nanos / 10 ^ 9]

def dateTimeFormat : List (ℕ × List Char) :=
  [(4, ['-']), (2, ['-']), (2, ['T']), (2, [':']), (2, [':']), (2, [])]

/-- The shortest of no fraction, milliseconds, microseconds and nanoseconds. -/
def fraction (nanos : ℕ) : List Char :=
  if nanos = 0 then []
  else if nanos % 10 ^ 6 = 0 then '.' :: pad 3 (nanos / 10 ^ 6)
  else if nanos % 10 ^ 3 = 0 then '.' :: pad 6 (nanos / 10 ^ 3)
  else '.' :: pad 9 nanos

def utcOffset : List Char := ['+', '0', '0', ':', '0', '0']

def Instant.toRfc3339 (i : Instant) : String :=
  String.ofList (render dateTimeFormat i.fields ++ (fraction (i.nanos % 10 ^ 9) ++ utcOffset))

/-! ## Durations -/

/-- Nanoseconds. -/
abbrev Duration : Type := ℤ

/-- The instant outside a leap second that many nanoseconds after the year 0 began; none
outside the years 0000 to 9999. -/
def Instant.ofNanos (total : ℤ) : Option Instant :=
  if h : 0 ≤ total ∧ total.toNat / 10 ^ 9 / 86400 < daysBeforeYear 10000 then
    some { secs := total.toNat / 10 ^ 9, nanos := total.toNat % 10 ^ 9, year_lt := h.2
           nanos_lt := .inl (Nat.mod_lt _ (by norm_num)) }
  else none

/-- `+`: a leap second that is left is not counted. -/
def Instant.plus (i : Instant) (d : Duration) : Option Instant :=
  let total : ℤ := (i.secs * 10 ^ 9 + i.nanos : ℕ) + d
  if i.nanos < 10 ^ 9 ∨ total < ((i.secs + 1) * 10 ^ 9 : ℕ) then Instant.ofNanos total
  else if h : total.toNat < (i.secs + 2) * 10 ^ 9 ∧ i.secs % 60 = 59 then
    some { i with nanos := total.toNat - i.secs * 10 ^ 9, nanos_lt := .inr ⟨by omega, h.2⟩ }
  else Instant.ofNanos (total - 10 ^ 9)

end Mycelium.Model.Timestamps
