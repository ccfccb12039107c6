import Mathlib

/-!
# The Gregorian calendar

Years of 365 and 366 days and months of 28 to 31, counted from the year 0. A time of a day that its month has is a
number of seconds, and of two times the earlier one has the smaller number.
-/
namespace Calendar

/-- The leap years of the Gregorian calendar. -/
def IsLeap (y : ℕ) : Prop := y % 4 = 0 ∧ (y % 100 ≠ 0 ∨ y % 400 = 0)

instance : DecidablePred IsLeap := fun y => inferInstanceAs (Decidable (y % 4 = 0 ∧ (y % 100 ≠ 0 ∨ y % 400 = 0)))

def yearLength (y : ℕ) : ℕ := if IsLeap y then 366 else 365

def monthLength (y m : ℕ) : ℕ :=
  if m = 2 then if IsLeap y then 29 else 28
  else if m = 4 ∨ m = 6 ∨ m = 9 ∨ m = 11 then 30
  else 31

/-- The days from the start of the year 0 to that of year `y`. -/
def yearStart (y : ℕ) : ℕ := ∑ i ∈ Finset.range y, yearLength i

/-- The days of year `y` before month `m`. -/
def monthStart (y m : ℕ) : ℕ := ∑ i ∈ Finset.range (m - 1), monthLength y (i + 1)

/-- The days from 0000-01-01 to a date. -/
def dayNumber (y m d : ℕ) : ℕ := yearStart y + monthStart y m + (d - 1)

/-- A date of the proleptic Gregorian calendar and a time of that day. -/
structure CivilTime where
  year : ℕ
  month : ℕ
  day : ℕ
  hour : ℕ
  minute : ℕ
  second : ℕ
  month_pos : 1 ≤ month
  month_le : month ≤ 12
  day_pos : 1 ≤ day
  day_le : day ≤ monthLength year month
  hour_lt : hour < 24
  minute_lt : minute < 60
  second_lt : second < 60

/-- The days from 1970-01-01 to a date, which may lie before it. -/
def daysFromEpoch (y m d : ℕ) : ℤ := dayNumber y m d - dayNumber 1970 1 1

/-- The seconds from the start of 1970. -/
def CivilTime.seconds (t : CivilTime) : ℤ :=
  daysFromEpoch t.year t.month t.day * 86400 + t.hour * 3600 + t.minute * 60 + t.second

/-- Every fourth year is a leap year, but for the centuries that are not divisible by 400. -/
theorem leap_day (y : ℕ) : (if IsLeap y then 1 else 0 : ℤ) =
    (y / 4 - (y - 1) / 4) - (y / 100 - (y - 1) / 100) + (y / 400 - (y - 1) / 400) := by
  by_cases h : IsLeap y
  · rw [if_pos h]
    unfold IsLeap at h
    omega
  · rw [if_neg h]
    unfold IsLeap at h
    omega

theorem yearStart_eq (y : ℕ) :
    (yearStart y : ℤ) = 365 * y + (y - 1) / 4 - (y - 1) / 100 + (y - 1) / 400 + 1 := by
  induction y with
  | zero => rfl
  | succ y ih =>
    have hleap := leap_day y
    have hlength : (yearLength y : ℤ) = 365 + if IsLeap y then 1 else 0 := by
      unfold yearLength
      split_ifs <;> rfl
    rw [yearStart, Finset.sum_range_succ, ← yearStart]
    push_cast
    rw [add_sub_cancel_right, ih, hlength]
    linarith

theorem monthLength_le (y m : ℕ) : monthLength y m ≤ 31 := by
  unfold monthLength
  split_ifs <;> omega

/-- The months of a year one after the other, from March on in the cycle of 153 days to five months. -/
theorem monthStart_next (y : ℕ) {m : ℕ} (hm : 1 ≤ m) : monthStart y (m + 1) = monthStart y m + monthLength y m := by
  obtain ⟨m, rfl⟩ : ∃ k, m = k + 1 := ⟨m - 1, by omega⟩
  exact Finset.sum_range_succ _ _

theorem monthStart_eq (y : ℕ) {m : ℕ} (hm : 1 ≤ m) (hm12 : m ≤ 12) : (monthStart y m : ℤ) =
    (153 * ((m + 9) % 12) + 2) / 5 + if m ≤ 2 then -306 else 59 + if IsLeap y then 1 else 0 := by
  induction m, hm using Nat.le_induction with
  | base => rfl
  | succ m hm ih =>
    have hlt : m < 12 := by omega
    rw [monthStart_next y hm, Nat.cast_add, ih hlt.le, monthLength]
    interval_cases m
    all_goals norm_num
    all_goals split_ifs
    all_goals norm_num

theorem dayNumber_epoch : dayNumber 1970 1 1 = 719528 := by
  have h := yearStart_eq 1970
  have hmonth : monthStart 1970 1 = 0 := rfl
  rw [dayNumber, hmonth]
  omega

/-! ## Order -/

/-- Earlier in the calendar. -/
def CivilTime.Before (a b : CivilTime) : Prop :=
  a.year < b.year ∨ a.year = b.year ∧ (a.month < b.month ∨ a.month = b.month ∧ (a.day < b.day ∨ a.day = b.day ∧
    (a.hour < b.hour ∨ a.hour = b.hour ∧ (a.minute < b.minute ∨ a.minute = b.minute ∧ a.second < b.second))))

theorem monthStart_mono (y : ℕ) : Monotone (monthStart y) := fun _ _ h =>
  Finset.sum_le_sum_of_subset (Finset.range_mono (Nat.sub_le_sub_right h 1))

theorem yearStart_mono : Monotone yearStart := fun _ _ h =>
  Finset.sum_le_sum_of_subset (Finset.range_mono h)

theorem monthStart_end (y : ℕ) : monthStart y 13 = yearLength y := by
  by_cases h : IsLeap y <;> simp [monthStart, Finset.sum_range_succ, monthLength, yearLength, h]

/-- A date lies before the next month. -/
theorem dayNumber_lt_month {y m d : ℕ} (hm : 1 ≤ m) (hd : 1 ≤ d) (hle : d ≤ monthLength y m) :
    dayNumber y m d < yearStart y + monthStart y (m + 1) := by
  rw [dayNumber, monthStart_next y hm]
  omega

theorem dayNumber_lt {y m d y' m' d' : ℕ} (hm : 1 ≤ m) (hm12 : m ≤ 12) (hd : 1 ≤ d) (hle : d ≤ monthLength y m)
    (h : y < y' ∨ y = y' ∧ (m < m' ∨ m = m' ∧ d < d')) : dayNumber y m d < dayNumber y' m' d' := by
  have hlt := dayNumber_lt_month hm hd hle
  obtain h | ⟨rfl, h | ⟨rfl, h⟩⟩ := h
  · have hend := monthStart_mono y (show m + 1 ≤ 13 by omega)
    have hle : y + 1 ≤ y' := h
    have hnext := yearStart_mono hle
    rw [monthStart_end] at hend
    rw [yearStart, Finset.sum_range_succ, ← yearStart] at hnext
    exact (hlt.trans_le (by omega)).trans_le (Nat.le_add_right _ (d' - 1))
  · have hle : m + 1 ≤ m' := h
    have hnext := monthStart_mono y hle
    exact (hlt.trans_le (by omega)).trans_le (Nat.le_add_right _ (d' - 1))
  · rw [dayNumber, dayNumber]
    omega

theorem CivilTime.seconds_lt {a b : CivilTime} (h : a.Before b) : a.seconds < b.seconds := by
  have hah := a.hour_lt
  have ham := a.minute_lt
  have has := a.second_lt
  unfold CivilTime.seconds daysFromEpoch
  by_cases hdate : a.year < b.year ∨ a.year = b.year ∧ (a.month < b.month ∨ a.month = b.month ∧ a.day < b.day)
  · have hlt := dayNumber_lt a.month_pos a.month_le a.day_pos a.day_le hdate
    omega
  · obtain ⟨hy, hm, hd⟩ : a.year = b.year ∧ a.month = b.month ∧ a.day = b.day := by
      unfold CivilTime.Before at h
      omega
    unfold CivilTime.Before at h
    rw [hy, hm, hd]
    omega

end Calendar
