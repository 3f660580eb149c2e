import Mathlib

/-!
# The Gregorian calendar

Dates of the Gregorian calendar, extended to all years, and days counted from 1970-01-01. A date is a year, a month and
a day that there is in it (`Date`); months are counted from zero, days from one. Every day has one date
(`Date.number_ofNumber`), and the date says which day of its year it is (`Date.dayOfYear`) and which day of the week.
-/

namespace Gregorian

/-! ## Years -/

/-- A leap year. -/
def Leap (y : ℤ) : Prop := 4 ∣ y ∧ ¬100 ∣ y ∨ 400 ∣ y

instance (y : ℤ) : Decidable (Leap y) := inferInstanceAs (Decidable (_ ∨ _))

/-- The days of a year. -/
def yearLength (y : ℤ) : ℤ := if Leap y then 366 else 365

/-- The first day of a year. -/
def yearStart (y : ℤ) : ℤ := 365 * (y - 1970) + (y - 1969) / 4 - (y - 1901) / 100 + (y - 1601) / 400

/-- The year of a day: the mean length of a year gives it up to one. -/
def yearOf (n : ℤ) : ℤ :=
  let y := 400 * (n + 719528) / 146097
  if n < yearStart y then y - 1 else if n < yearStart (y + 1) then y else y + 1

section

variable {n y z : ℤ}

@[simp] theorem yearStart_1970 : yearStart 1970 = 0 := rfl

theorem yearStart_succ (y : ℤ) : yearStart (y + 1) = yearStart y + yearLength y := by
  have h4 : (y + 1 - 1969) / 4 = (y - 1969) / 4 + if 4 ∣ y then 1 else 0 := by
    split_ifs <;> omega
  have h100 : (y + 1 - 1901) / 100 = (y - 1901) / 100 + if 100 ∣ y then 1 else 0 := by
    split_ifs <;> omega
  have h400 : (y + 1 - 1601) / 400 = (y - 1601) / 400 + if 400 ∣ y then 1 else 0 := by
    split_ifs <;> omega
  have hmul100 : 100 ∣ y → 4 ∣ y := by omega
  have hmul400 : 400 ∣ y → 100 ∣ y := by omega
  unfold yearStart yearLength Leap
  rw [h4, h100, h400]
  by_cases hc4 : 4 ∣ y <;> by_cases hc100 : 100 ∣ y <;> by_cases hc400 : 400 ∣ y <;>
    simp only [hc4, hc100, hc400, if_true, if_false, not_true, not_false_eq_true, and_true, and_false, or_true,
      or_false] <;>
    first | exact absurd (hmul100 hc100) hc4 | exact absurd (hmul400 hc400) hc100 | ring

theorem yearLength_le (y : ℤ) : yearLength y ≤ 366 := by
  unfold yearLength
  split_ifs <;> decide

theorem yearLength_pos (y : ℤ) : 0 < yearLength y := by
  unfold yearLength
  split_ifs <;> decide

theorem yearStart_strictMono : StrictMono yearStart := by
  apply strictMono_int_of_lt_succ
  intro y
  have := yearLength_pos y
  rw [yearStart_succ]
  omega

/-- A day is in its year. -/
theorem yearOf_spec (n : ℤ) : yearStart (yearOf n) ≤ n ∧ n < yearStart (yearOf n + 1) := by
  unfold yearOf
  dsimp only
  split_ifs with h₁ h₂
  · rw [sub_add_cancel]
    refine ⟨?_, h₁⟩
    unfold yearStart at *
    omega
  · exact ⟨not_lt.mp h₁, h₂⟩
  · refine ⟨not_lt.mp h₂, ?_⟩
    unfold yearStart at *
    omega

/-- And in no other one. -/
theorem yearOf_eq (hle : yearStart y ≤ n) (hlt : n < yearStart (y + 1)) : yearOf n = y := by
  obtain ⟨hle', hlt'⟩ := yearOf_spec n
  have h₁ : yearOf n < y + 1 := yearStart_strictMono.lt_iff_lt.mp (hle'.trans_lt hlt)
  have h₂ : y < yearOf n + 1 := yearStart_strictMono.lt_iff_lt.mp (hle.trans_lt hlt')
  omega

theorem yearOf_mono : Monotone yearOf := by
  intro n m hle
  have h := (yearOf_spec n).1.trans_lt (hle.trans_lt (yearOf_spec m).2)
  have := yearStart_strictMono.lt_iff_lt.mp h
  omega

end

/-! ## Months -/

/-- The days of a month. -/
def monthLength (y : ℤ) (m : ℕ) : ℤ :=
  if m = 1 then if Leap y then 29 else 28 else if m ∈ [3, 5, 8, 10] then 30 else 31

/-- The first day of a month, in its year and counted from zero. -/
def monthStart (y : ℤ) (m : ℕ) : ℤ := ∑ i ∈ Finset.range m, monthLength y i

/-- The month of a day of a year. -/
def monthOf (y d : ℤ) : ℕ := Nat.findGreatest (fun m => monthStart y m ≤ d) 11

section

variable {y d : ℤ} {m k : ℕ}

theorem monthLength_pos (y : ℤ) (m : ℕ) : 0 < monthLength y m := by
  unfold monthLength
  split_ifs <;> decide

@[simp] theorem monthStart_zero (y : ℤ) : monthStart y 0 = 0 := rfl

theorem monthStart_succ (y : ℤ) (m : ℕ) : monthStart y (m + 1) = monthStart y m + monthLength y m :=
  Finset.sum_range_succ _ _

theorem monthStart_strictMono (y : ℤ) : StrictMono (monthStart y) := by
  apply strictMono_nat_of_lt_succ
  intro m
  have := monthLength_pos y m
  rw [monthStart_succ]
  omega

/-- The months are the year. -/
theorem monthStart_twelve (y : ℤ) : monthStart y 12 = yearLength y := by
  by_cases h : Leap y <;> simp [monthStart_succ, monthLength, yearLength, h]

/-- A leap year differs from any other one by a day behind the second month. -/
theorem monthStart_leap (y : ℤ) (m : ℕ) : monthStart y m = monthStart 1 m + if Leap y ∧ 2 ≤ m then 1 else 0 := by
  have hlength : ∀ i, monthLength y i = monthLength 1 i + if Leap y ∧ i = 1 then 1 else 0 := by
    intro i
    unfold monthLength
    by_cases hi : i = 1
    · by_cases h : Leap y
      · simp [hi, h, show ¬Leap 1 by decide]
      · simp [hi, h, show ¬Leap 1 by decide]
    · simp [hi]
  induction m with
  | zero => simp
  | succ m ih =>
    rw [monthStart_succ, monthStart_succ, ih, hlength]
    by_cases h : Leap y
    · simp only [h, true_and]
      split_ifs <;> omega
    · simp only [h, false_and, if_false]
      omega

/-- A day is in its month. -/
theorem monthOf_spec (hd : 0 ≤ d) (hlt : d < yearLength y) :
    monthOf y d < 12 ∧ monthStart y (monthOf y d) ≤ d ∧ d < monthStart y (monthOf y d + 1) := by
  have hle : monthOf y d ≤ 11 := Nat.findGreatest_le _
  have hstart : monthStart y (monthOf y d) ≤ d :=
    Nat.findGreatest_spec (P := fun m => monthStart y m ≤ d) (Nat.zero_le 11) (by rwa [monthStart_zero])
  refine ⟨by omega, hstart, ?_⟩
  obtain hlast | hbefore := Nat.eq_or_lt_of_le hle
  · rw [hlast, monthStart_twelve]
    exact hlt
  · exact not_le.mp (Nat.findGreatest_is_greatest (P := fun m => monthStart y m ≤ d) (Nat.lt_succ_self _) hbefore)

/-- And in no other one. -/
theorem monthOf_eq (hm : m < 12) (hle : monthStart y m ≤ d) (hlt : d < monthStart y (m + 1)) : monthOf y d = m := by
  have hd : 0 ≤ d := ((monthStart_strictMono y).monotone (Nat.zero_le m)).trans hle
  have hd' : d < yearLength y := by
    rw [← monthStart_twelve]
    exact hlt.trans_le ((monthStart_strictMono y).monotone hm)
  obtain ⟨-, hle', hlt'⟩ := monthOf_spec hd hd'
  have h₁ : monthOf y d < m + 1 := (monthStart_strictMono y).lt_iff_lt.mp (hle'.trans_lt hlt)
  have h₂ : m < monthOf y d + 1 := (monthStart_strictMono y).lt_iff_lt.mp (hle.trans_lt hlt')
  omega

end

/-! ## Dates -/

/-- A date of the calendar. -/
@[ext] structure Date where
  year : ℤ
  /-- The month, from zero. -/
  month : ℕ
  /-- The day, from one. -/
  day : ℤ
  month_lt : month < 12
  day_pos : 1 ≤ day
  day_le : day ≤ monthLength year month
  deriving DecidableEq

namespace Date

/-- The number of the day in its year, from one. -/
def dayOfYear (d : Date) : ℤ := monthStart d.year d.month + d.day

/-- The day as counted from 1970-01-01. -/
def number (d : Date) : ℤ := yearStart d.year + d.dayOfYear - 1

/-- The day of the week, from Sunday as zero. 1970-01-01 was a Thursday. -/
def weekday (d : Date) : ℤ := (d.number + 4) % 7

variable (d : Date)

theorem dayOfYear_bounds : 1 ≤ d.dayOfYear ∧ d.dayOfYear ≤ yearLength d.year := by
  have hstart := (monthStart_strictMono d.year).monotone (Nat.zero_le d.month)
  have hnext := (monthStart_strictMono d.year).monotone (Nat.succ_le_of_lt d.month_lt)
  rw [Nat.succ_eq_add_one, monthStart_succ, monthStart_twelve] at hnext
  rw [monthStart_zero] at hstart
  have := d.day_pos
  have := d.day_le
  unfold dayOfYear
  omega

theorem yearOf_number : yearOf d.number = d.year := by
  have h := d.dayOfYear_bounds
  apply yearOf_eq
  · unfold number
    omega
  · rw [yearStart_succ]
    unfold number
    omega

theorem monthOf_dayOfYear : monthOf d.year (d.dayOfYear - 1) = d.month := by
  have := d.day_pos
  have := d.day_le
  apply monthOf_eq d.month_lt
  · unfold dayOfYear
    omega
  · rw [monthStart_succ]
    unfold dayOfYear
    omega

/-- The date of a day. -/
def ofNumber (n : ℤ) : Date :=
  have hyear := yearOf_spec n
  have hmonth := monthOf_spec (y := yearOf n) (d := n - yearStart (yearOf n)) (by omega)
    (by rw [yearStart_succ] at hyear; omega)
  { year := yearOf n
    month := monthOf (yearOf n) (n - yearStart (yearOf n))
    day := n - yearStart (yearOf n) - monthStart (yearOf n) (monthOf (yearOf n) (n - yearStart (yearOf n))) + 1
    month_lt := hmonth.1
    day_pos := by omega
    day_le := by rw [monthStart_succ] at hmonth; omega }

@[simp] theorem number_ofNumber (n : ℤ) : (ofNumber n).number = n := by
  unfold number dayOfYear ofNumber
  dsimp only
  omega

@[simp] theorem ofNumber_number : ofNumber d.number = d := by
  have hday : d.number - yearStart d.year = d.dayOfYear - 1 := by
    unfold number
    omega
  ext
  · exact d.yearOf_number
  · change monthOf (yearOf d.number) (d.number - yearStart (yearOf d.number)) = d.month
    rw [d.yearOf_number, hday, d.monthOf_dayOfYear]
  · change d.number - yearStart (yearOf d.number) -
      monthStart (yearOf d.number) (monthOf (yearOf d.number) (d.number - yearStart (yearOf d.number))) + 1 = d.day
    rw [d.yearOf_number, hday, d.monthOf_dayOfYear]
    unfold dayOfYear
    omega

end Date

/-! ## Times -/

/-- A time of the calendar, to the second. -/
@[ext] structure Moment where
  date : Date
  hour : ℤ
  min : ℤ
  sec : ℤ
  hour_range : 0 ≤ hour ∧ hour < 24
  min_range : 0 ≤ min ∧ min < 60
  sec_range : 0 ≤ sec ∧ sec < 60

namespace Moment

/-- The seconds since the beginning of 1970. -/
def number (m : Moment) : ℤ := ((m.date.number * 24 + m.hour) * 60 + m.min) * 60 + m.sec

/-- The time of a number of seconds. -/
def ofNumber (s : ℤ) : Moment where
  date := .ofNumber (s / 86400)
  hour := s / 3600 % 24
  min := s / 60 % 60
  sec := s % 60
  hour_range := by omega
  min_range := by omega
  sec_range := by omega

@[simp] theorem number_ofNumber (s : ℤ) : (ofNumber s).number = s := by
  unfold number ofNumber
  dsimp only
  rw [Date.number_ofNumber]
  omega

@[simp] theorem ofNumber_number (m : Moment) : ofNumber m.number = m := by
  have := m.hour_range
  have := m.min_range
  have := m.sec_range
  have hday : m.number / 86400 = m.date.number := by
    unfold number
    omega
  have hdate : (ofNumber m.number).date = m.date := (congrArg Date.ofNumber hday).trans m.date.ofNumber_number
  apply Moment.ext hdate
  · change m.number / 3600 % 24 = m.hour
    unfold number
    omega
  · change m.number / 60 % 60 = m.min
    unfold number
    omega
  · change m.number % 60 = m.sec
    unfold number
    omega

end Moment

end Gregorian
