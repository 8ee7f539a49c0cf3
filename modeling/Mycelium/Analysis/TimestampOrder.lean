import Mathlib.Data.String.Basic
import Mathlib.Order.Monotone.Basic
import Mycelium.Model.Timestamps

/-!
# The texts of instants are ordered as the instants

A later instant has later fields (`fields_lt`), or the same fields and a later fraction
(`fraction_lt`). Fields are texts of fixed widths; a fraction may be shorter than another
one, and then the `+` of the offset decides, which comes before the point and the digits.
So `to_rfc3339` keeps the order (`toRfc3339_strictMono`).
-/

set_option autoImplicit false

namespace Mycelium.Analysis.TimestampOrder

open Decimal Calendar Mycelium.Model.Timestamps

theorem lt_iff {i j : Instant} :
    i < j ↔ i.secs < j.secs ∨ i.secs = j.secs ∧ i.nanos < j.nanos :=
  Prod.Lex.lt_iff

/-! ## Fields -/

theorem fits_fields (i : Instant) : Fits dateTimeFormat i.fields := by
  have hyear : yearOf i.day < 10000 := yearOf_lt i.year_lt
  have hmonth := month_le i.day
  have hday := day_le i.day
  have hnanos := i.nanos_lt
  simp only [Instant.fields, dateTimeFormat, Fits]
  refine ⟨by omega, by omega, by omega, by omega, by omega, by omega, trivial⟩

/-- A day, an hour or a minute that is later decides. In one minute the second does: a leap
second begins after the last one. -/
theorem fields_lt {i j : Instant} (h : i.secs < j.secs) : i.fields < j.fields := by
  have hnanos := i.nanos_lt
  simp only [Instant.fields, List.cons_lt_cons_iff]
  rcases Nat.lt_or_ge i.day j.day with hday | hday
  · obtain hyear | ⟨hyear, hmonth | ⟨hmonth, hdate⟩⟩ := date_lt hday
    · exact .inl hyear
    · exact .inr ⟨hyear, .inl hmonth⟩
    · exact .inr ⟨hyear, .inr ⟨hmonth, .inl hdate⟩⟩
  · unfold Instant.day at hday
    have heq : i.day = j.day := by
      unfold Instant.day
      omega
    rw [heq]
    refine .inr ⟨rfl, .inr ⟨rfl, .inr ⟨rfl, ?_⟩⟩⟩
    rcases Nat.lt_or_ge (i.secs / 60) (j.secs / 60) with hminute | hminute
    · rcases Nat.lt_or_ge (i.secs / 3600) (j.secs / 3600) with hhour | hhour
      · left
        omega
      · right
        constructor
        · omega
        · left
          omega
    · right
      refine ⟨by omega, .inr ⟨by omega, .inl ?_⟩⟩
      omega

/-- In one second the leap second comes last. -/
theorem fields_le {i j : Instant} (hsecs : i.secs = j.secs) (hnanos : i.nanos < j.nanos) :
    i.fields < j.fields ∨ i.fields = j.fields ∧ i.nanos % 10 ^ 9 < j.nanos % 10 ^ 9 := by
  have hi := i.nanos_lt
  have hj := j.nanos_lt
  rcases Nat.lt_or_ge (i.nanos / 10 ^ 9) (j.nanos / 10 ^ 9) with hleap | hleap
  · left
    simp only [Instant.fields, Instant.day, hsecs, List.cons_lt_cons_iff]
    refine .inr ⟨trivial, .inr ⟨trivial, .inr ⟨trivial, .inr ⟨trivial, .inr ⟨trivial, .inl ?_⟩⟩⟩⟩⟩
    omega
  · have heq : i.nanos / 10 ^ 9 = j.nanos / 10 ^ 9 := by omega
    right
    constructor
    · simp only [Instant.fields, Instant.day, hsecs, heq]
    · omega

/-! ## Fractions -/

/-- The digits of a fraction stand for its nanoseconds. -/
theorem fraction_eq {n : ℕ} (hpos : n ≠ 0) (hn : n < 10 ^ 9) :
    ∃ w v, fraction n = '.' :: pad w v ∧ v * 10 ^ 9 = n * 10 ^ w ∧ v < 10 ^ w := by
  unfold fraction
  rw [if_neg hpos]
  by_cases hmilli : n % 10 ^ 6 = 0
  · rw [if_pos hmilli]
    exact ⟨3, n / 10 ^ 6, rfl, by omega, by omega⟩
  · rw [if_neg hmilli]
    by_cases hmicro : n % 10 ^ 3 = 0
    · rw [if_pos hmicro]
      exact ⟨6, n / 10 ^ 3, rfl, by omega, by omega⟩
    · rw [if_neg hmicro]
      exact ⟨9, n, rfl, rfl, hn⟩

/-- A fraction and the offset behind it come before those of a larger fraction. -/
theorem fraction_lt {n m : ℕ} (h : n < m) (hm : m < 10 ^ 9) :
    fraction n ++ utcOffset < fraction m ++ utcOffset := by
  obtain ⟨w', v', hfrac', hval', hv'⟩ := fraction_eq (show m ≠ 0 by omega) hm
  rw [hfrac']
  by_cases hzero : n = 0
  · -- `+` comes before the point
    subst hzero
    show utcOffset < '.' :: (pad w' v' ++ utcOffset)
    rw [utcOffset, List.cons_lt_cons_iff]
    exact .inl (by decide)
  · obtain ⟨w, v, hfrac, hval, -⟩ := fraction_eq hzero (Nat.lt_trans h hm)
    rw [hfrac, List.cons_append, List.cons_append, List.cons_lt_cons_iff]
    refine .inr ⟨rfl, ?_⟩
    have hcross : v * 10 ^ w' < v' * 10 ^ w := by
      have hscaled : v * 10 ^ w' * 10 ^ 9 < v' * 10 ^ w * 10 ^ 9 := by
        calc v * 10 ^ w' * 10 ^ 9 = n * (10 ^ w * 10 ^ w') := by
              rw [Nat.mul_right_comm, hval, Nat.mul_assoc]
          _ < m * (10 ^ w * 10 ^ w') := Nat.mul_lt_mul_of_pos_right h (by positivity)
          _ = v' * 10 ^ w * 10 ^ 9 := by
              rw [Nat.mul_right_comm, hval', Nat.mul_comm (10 ^ w), Nat.mul_assoc]
      exact Nat.lt_of_mul_lt_mul_right hscaled
    exact pad_lt_pad_of_fraction hv' hcross (by decide) _ _

/-! ## Texts -/

theorem toRfc3339_strictMono : StrictMono Instant.toRfc3339 := by
  intro i j h
  rw [String.lt_iff_toList_lt, Instant.toRfc3339, Instant.toRfc3339, String.toList_ofList,
    String.toList_ofList]
  rcases lt_iff.mp h with hsecs | ⟨hsecs, hnanos⟩
  · exact render_append_lt (fits_fields i) (fits_fields j) (fields_lt hsecs) _ _
  · rcases fields_le hsecs hnanos with hfields | ⟨hfields, hfrac⟩
    · exact render_append_lt (fits_fields i) (fits_fields j) hfields _ _
    · rw [hfields]
      apply List.append_left_lt
      exact fraction_lt hfrac (Nat.mod_lt _ (by norm_num))

theorem toRfc3339_injective : Function.Injective Instant.toRfc3339 :=
  toRfc3339_strictMono.injective

end Mycelium.Analysis.TimestampOrder
