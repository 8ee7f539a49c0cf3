import Mathlib.Algebra.GroupWithZero.Nat
import Mathlib.Data.Nat.Basic
import Mathlib.Data.List.Basic

/-!
# The proleptic Gregorian calendar

Days are counted from the first of January of the year 0. `yearOf` and `monthDay` give the
date of a day, `daysBeforeYear` and the lengths of the months the day of a date; the date
of a later day is later (`date_lt`).
-/

set_option autoImplicit false

namespace Calendar

/-! ## Years -/

def isLeap (year : ℕ) : Bool := year % 4 = 0 && (year % 100 ≠ 0 || year % 400 = 0)

/-- The leap years before a year. -/
def leapsBefore (year : ℕ) : ℕ := (year + 3) / 4 - (year + 99) / 100 + (year + 399) / 400

def daysBeforeYear (year : ℕ) : ℕ := 365 * year + leapsBefore year

/-- Cycles of 400 years have 146097 days; inside a cycle the year is that of the day among
years of 365 days, or the one before when the leap days reach it. -/
def yearOf (day : ℕ) : ℕ :=
  let rest := day % 146097
  let year := rest / 365
  400 * (day / 146097) + if rest < daysBeforeYear year then year - 1 else year

def dayOfYear (day : ℕ) : ℕ := day - daysBeforeYear (yearOf day)

theorem daysBeforeYear_cycle (c year : ℕ) :
    daysBeforeYear (400 * c + year) = 146097 * c + daysBeforeYear year := by
  have h4 : (400 * c + year + 3) / 4 = 100 * c + (year + 3) / 4 := by omega
  have h100 : (400 * c + year + 99) / 100 = 4 * c + (year + 99) / 100 := by omega
  have h400 : (400 * c + year + 399) / 400 = c + (year + 399) / 400 := by omega
  have hle : (year + 99) / 100 ≤ (year + 3) / 4 := by omega
  unfold daysBeforeYear leapsBefore
  rw [h4, h100, h400]
  generalize (year + 3) / 4 = fourths at *
  generalize (year + 99) / 100 = hundredths at *
  omega

theorem daysBeforeYear_succ (year : ℕ) :
    daysBeforeYear (year + 1) = daysBeforeYear year + if isLeap year then 366 else 365 := by
  have h4 : (year + 1 + 3) / 4 = (year + 3) / 4 + if year % 4 = 0 then 1 else 0 := by
    split
    · omega
    · omega
  have h100 : (year + 1 + 99) / 100 = (year + 99) / 100 + if year % 100 = 0 then 1 else 0 := by
    split
    · omega
    · omega
  have h400 : (year + 1 + 399) / 400 = (year + 399) / 400 + if year % 400 = 0 then 1 else 0 := by
    split
    · omega
    · omega
  have hle : (year + 99) / 100 ≤ (year + 3) / 4 := by omega
  have hhundred : year % 100 = 0 → year % 4 = 0 := by omega
  have hcycle : year % 400 = 0 → year % 100 = 0 := by omega
  unfold daysBeforeYear leapsBefore isLeap
  rw [h4, h100, h400]
  generalize (year + 3) / 4 = fourths at *
  generalize (year + 99) / 100 = hundredths at *
  generalize (year + 399) / 400 = cycles
  by_cases hfour : year % 4 = 0
  · by_cases hcentury : year % 100 = 0
    · by_cases hfirst : year % 400 = 0
      · simp [hfour, hcentury, hfirst]
        omega
      · simp [hfour, hcentury, hfirst]
        omega
    · have hfirst : year % 400 ≠ 0 := fun h => hcentury (hcycle h)
      simp [hfour, hcentury, hfirst]
      omega
  · have hcentury : year % 100 ≠ 0 := fun h => hfour (hhundred h)
    have hfirst : year % 400 ≠ 0 := fun h => hcentury (hcycle h)
    simp [hfour, hcentury, hfirst]
    omega

theorem daysBeforeYear_mono {y z : ℕ} (h : y ≤ z) : daysBeforeYear y ≤ daysBeforeYear z := by
  unfold daysBeforeYear leapsBefore
  omega

theorem le_daysBeforeYear (year : ℕ) : 365 * year ≤ daysBeforeYear year := Nat.le_add_right _ _

/-- The leap days of a cycle do not make a year. -/
theorem daysBeforeYear_le {year : ℕ} (h : year ≤ 400) : daysBeforeYear year ≤ 365 * (year + 1) := by
  have hleaps : leapsBefore year ≤ (year + 3) / 4 + (year + 399) / 400 := by
    unfold leapsBefore
    omega
  unfold daysBeforeYear
  omega

/-- A day lies in its year. -/
theorem yearOf_spec (day : ℕ) :
    daysBeforeYear (yearOf day) ≤ day ∧ day < daysBeforeYear (yearOf day + 1) := by
  have hday : 146097 * (day / 146097) + day % 146097 = day := Nat.div_add_mod day 146097
  have hrest : day % 146097 < 146097 := Nat.mod_lt day (by decide)
  unfold yearOf
  rw [Nat.add_assoc, daysBeforeYear_cycle, daysBeforeYear_cycle]
  generalize day / 146097 = c at *
  generalize day % 146097 = rest at *
  have hyear := Nat.div_add_mod rest 365
  have hmod := Nat.mod_lt rest (show 365 > 0 by decide)
  split
  · rename_i h
    -- the year of 365 days is one too late
    cases hfirst : rest / 365 with
    | zero =>
      rw [hfirst] at h
      exact absurd h (Nat.not_lt_zero rest)
    | succ year =>
      rw [hfirst] at h hyear
      rw [Nat.succ_sub_one]
      have hle := daysBeforeYear_le (show year ≤ 400 by omega)
      constructor
      · omega
      · omega
  · rename_i h
    have hnext := le_daysBeforeYear (rest / 365 + 1)
    constructor
    · omega
    · omega

theorem yearOf_mono {d e : ℕ} (h : d ≤ e) : yearOf d ≤ yearOf e := by
  by_contra hlt
  have hle := daysBeforeYear_mono (show yearOf e + 1 ≤ yearOf d by omega)
  have hd := (yearOf_spec d).1
  have he := (yearOf_spec e).2
  omega

theorem yearOf_lt {d year : ℕ} (h : d < daysBeforeYear year) : yearOf d < year := by
  by_contra hle
  have hmono := daysBeforeYear_mono (Nat.not_lt.mp hle)
  have hd := (yearOf_spec d).1
  omega

theorem add_dayOfYear (d : ℕ) : daysBeforeYear (yearOf d) + dayOfYear d = d :=
  Nat.add_sub_of_le (yearOf_spec d).1

/-! ## Months -/

def monthLengths (leap : Bool) : List ℕ :=
  [31, if leap then 29 else 28, 31, 30, 31, 30, 31, 31, 30, 31, 30, 31]

/-- The month and the day of the month, where `month` is the first of the months listed. -/
def monthDay : ℕ → List ℕ → ℕ → ℕ × ℕ
  | month, [], day => (month, day + 1)
  | month, len :: lens, day =>
    if day < len then (month, day + 1) else monthDay (month + 1) lens (day - len)

theorem le_month (month : ℕ) (lens : List ℕ) (day : ℕ) : month ≤ (monthDay month lens day).1 := by
  induction lens generalizing month day with
  | nil => exact le_refl month
  | cons len lens ih =>
    rw [monthDay]
    split
    · exact le_refl month
    · exact Nat.le_of_succ_le (ih (month + 1) (day - len))

/-- A later day has a later month, or the same month and a later day in it. -/
theorem monthDay_lt (month : ℕ) (lens : List ℕ) {d e : ℕ} (h : d < e) :
    (monthDay month lens d).1 < (monthDay month lens e).1 ∨
      (monthDay month lens d).1 = (monthDay month lens e).1 ∧
        (monthDay month lens d).2 < (monthDay month lens e).2 := by
  induction lens generalizing month d e with
  | nil => exact .inr ⟨rfl, Nat.succ_lt_succ h⟩
  | cons len lens ih =>
    rw [monthDay, monthDay]
    by_cases he : e < len
    · rw [if_pos he, if_pos (Nat.lt_trans h he)]
      exact .inr ⟨rfl, Nat.succ_lt_succ h⟩
    · rw [if_neg he]
      by_cases hd : d < len
      · rw [if_pos hd]
        exact .inl (le_month (month + 1) lens (e - len))
      · rw [if_neg hd]
        exact ih (month + 1) (by omega)

/-- The day of the year is the days of the months before and the day of the month. -/
theorem monthDay_spec (month : ℕ) {lens : List ℕ} {day : ℕ} (h : day < lens.sum) :
    (monthDay month lens day).1 < month + lens.length ∧
      0 < (monthDay month lens day).2 ∧
      (∃ len ∈ lens, (monthDay month lens day).2 ≤ len) ∧
      (lens.take ((monthDay month lens day).1 - month)).sum + (monthDay month lens day).2 =
        day + 1 := by
  induction lens generalizing month day with
  | nil => cases h
  | cons len lens ih =>
    rw [monthDay]
    by_cases hday : day < len
    · rw [if_pos hday]
      refine ⟨by simp, Nat.succ_pos day, ⟨len, List.mem_cons_self, hday⟩, ?_⟩
      simp
    · rw [if_neg hday]
      rw [List.sum_cons] at h
      obtain ⟨hmonth, hpos, ⟨len', hlen', hle⟩, hsum⟩ := ih (month + 1) (by omega : day - len < _)
      have hge := le_month (month + 1) lens (day - len)
      have hindex : (monthDay (month + 1) lens (day - len)).1 - month =
          (monthDay (month + 1) lens (day - len)).1 - (month + 1) + 1 := by omega
      refine ⟨?_, hpos, ⟨len', List.mem_cons_of_mem len hlen', hle⟩, ?_⟩
      · rw [List.length_cons]
        omega
      · rw [hindex, List.take_succ_cons, List.sum_cons]
        omega

theorem dayOfYear_lt (d : ℕ) : dayOfYear d < (monthLengths (isLeap (yearOf d))).sum := by
  have hd := (yearOf_spec d).2
  rw [daysBeforeYear_succ] at hd
  have hadd := add_dayOfYear d
  cases hleap : isLeap (yearOf d) with
  | true =>
    rw [hleap] at hd
    show dayOfYear d < 366
    simp only [if_true] at hd
    omega
  | false =>
    rw [hleap] at hd
    show dayOfYear d < 365
    simp only [Bool.false_eq_true, if_false] at hd
    omega

/-- The day of a date. -/
def dayNumber (year month day : ℕ) : ℕ :=
  daysBeforeYear year + ((monthLengths (isLeap year)).take (month - 1)).sum + (day - 1)

/-- The month and the day of the month of a day. -/
def monthDayOf (d : ℕ) : ℕ × ℕ := monthDay 1 (monthLengths (isLeap (yearOf d))) (dayOfYear d)

theorem dayNumber_monthDayOf (d : ℕ) :
    dayNumber (yearOf d) (monthDayOf d).1 (monthDayOf d).2 = d := by
  obtain ⟨-, hpos, -, hsum⟩ := monthDay_spec 1 (dayOfYear_lt d)
  have hadd := add_dayOfYear d
  unfold dayNumber monthDayOf
  omega

theorem month_le (d : ℕ) : (monthDayOf d).1 ≤ 12 := by
  have hmonth := (monthDay_spec 1 (dayOfYear_lt d)).1
  have hlen : (monthLengths (isLeap (yearOf d))).length = 12 := rfl
  unfold monthDayOf
  omega

theorem day_le (d : ℕ) : (monthDayOf d).2 ≤ 31 := by
  obtain ⟨-, -, ⟨len, hlen, hle⟩, -⟩ := monthDay_spec 1 (dayOfYear_lt d)
  have hall : ∀ leap, ∀ len ∈ monthLengths leap, len ≤ 31 := by decide
  exact Nat.le_trans hle (hall _ len hlen)

/-- The date of a later day is later. -/
theorem date_lt {d e : ℕ} (h : d < e) :
    yearOf d < yearOf e ∨ yearOf d = yearOf e ∧
      ((monthDayOf d).1 < (monthDayOf e).1 ∨
        (monthDayOf d).1 = (monthDayOf e).1 ∧ (monthDayOf d).2 < (monthDayOf e).2) := by
  rcases Nat.lt_or_ge (yearOf d) (yearOf e) with hyear | hyear
  · exact .inl hyear
  · have heq : yearOf d = yearOf e := Nat.le_antisymm (yearOf_mono (Nat.le_of_lt h)) hyear
    have hd := add_dayOfYear d
    have he := add_dayOfYear e
    rw [heq] at hd
    refine .inr ⟨heq, ?_⟩
    unfold monthDayOf
    rw [heq]
    exact monthDay_lt 1 _ (by omega)

end Calendar
