import Mycelium.Analysis.TimestampOrder

/-!
# Reading the texts of instants

`readRfc3339` reads the texts that `to_rfc3339` writes, and gives back their instants
(`readRfc3339_toRfc3339`): what the models that take a reader from outside rely on can be
had. The reader of the crate accepts further texts.
-/

set_option autoImplicit false

namespace Mycelium.Analysis.TimestampReader

open Decimal Calendar Mycelium.Model.Timestamps
open Mycelium.Analysis.TimestampOrder (fits_fields fraction_eq)

/-- The nanoseconds of what follows the seconds. -/
def readFraction : List Char → ℕ
  | '.' :: cs =>
    let digits := cs.takeWhile (· ≠ '+')
    value digits * 10 ^ 9 / 10 ^ digits.length
  | _ => 0

/-- The instant of the fields and nanoseconds; the 60th second of a minute is a leap second. -/
def ofFields (fields : List ℕ) (nanos : ℕ) : Option Instant :=
  match fields with
  | [year, month, day, hour, minute, second] =>
    let secs := dayNumber year month day * 86400 + hour * 3600 + minute * 60 + min second 59
    let nanos := second / 60 * 10 ^ 9 + nanos
    if h : secs / 86400 < daysBeforeYear 10000 ∧
        (nanos < 10 ^ 9 ∨ nanos < 2 * 10 ^ 9 ∧ secs % 60 = 59) then
      some { secs, nanos, year_lt := h.1, nanos_lt := h.2 }
    else none
  | _ => none

def readRfc3339 (s : String) : Option Instant :=
  let parts := unrender dateTimeFormat s.toList
  ofFields parts.1 (readFraction parts.2)

theorem readFraction_fraction {n : ℕ} (hn : n < 10 ^ 9) :
    readFraction (fraction n ++ utcOffset) = n := by
  by_cases hzero : n = 0
  · subst hzero
    rfl
  · obtain ⟨w, v, hfrac, hval, hv⟩ := fraction_eq hzero hn
    have hdigits : (pad w v ++ utcOffset).takeWhile (· ≠ '+') = pad w v := by
      rw [List.takeWhile_append_of_pos, utcOffset, List.takeWhile_cons_of_neg (by decide),
        List.append_nil]
      intro c hc
      obtain ⟨d, hd, rfl⟩ := mem_pad hc
      have hnat := toNat_digit hd
      apply decide_eq_true
      intro heq
      rw [heq] at hnat
      have hplus : '+'.toNat = 43 := rfl
      omega
    rw [hfrac, List.cons_append, readFraction, hdigits, value_pad_of_lt hv, length_pad, hval]
    exact Nat.mul_div_cancel n (by positivity)

theorem ofFields_fields (i : Instant) : ofFields i.fields (i.nanos % 10 ^ 9) = some i := by
  have hnanos := i.nanos_lt
  have hsecs : i.day * 86400 + i.secs / 3600 % 24 * 3600 + i.secs / 60 % 60 * 60 +
      min (i.secs % 60 + i.nanos / 10 ^ 9) 59 = i.secs := by
    unfold Instant.day
    omega
  have hleap : (i.secs % 60 + i.nanos / 10 ^ 9) / 60 = i.nanos / 10 ^ 9 := by omega
  have hrest : (i.secs % 60 + i.nanos / 10 ^ 9) / 60 * 10 ^ 9 + i.nanos % 10 ^ 9 = i.nanos := by
    rw [hleap]
    exact Nat.div_add_mod' i.nanos (10 ^ 9)
  simp only [ofFields, Instant.fields, dayNumber_monthDayOf, hsecs, hrest]
  exact dif_pos ⟨i.year_lt, hnanos⟩

theorem readRfc3339_toRfc3339 (i : Instant) : readRfc3339 i.toRfc3339 = some i := by
  unfold readRfc3339 Instant.toRfc3339
  rw [String.toList_ofList, unrender_render (fits_fields i)]
  dsimp only
  rw [readFraction_fraction (Nat.mod_lt _ (by norm_num)), ofFields_fields]

end Mycelium.Analysis.TimestampReader
