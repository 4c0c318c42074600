import Subscript.Runtime.Date
import Mathlib.Tactic.IntervalCases

/-! The conversions between day numbers and dates follow the calendar. The year of the conversions begins in March, so
that a leap day is its last. -/

namespace Subscript.Runtime.Date

open Calendar

/-- the year that begins in March -/
def marchYear (date : Calendar.Date) : Int := if date.month ≤ 2 then date.year - 1 else date.year

/-- the month, from March -/
def marchMonth (month : Nat) : Int := if month > 2 then ↑(month - 3) else ↑(month + 9)

/-- the days from the epoch to a date -/
def index (date : Calendar.Date) : Int :=
  365 * marchYear date + marchYear date / 4 - marchYear date / 100 + marchYear date / 400 +
    ((153 * marchMonth date.month + 2) / 5 + date.day - 1) - 719468

theorem isLeap_iff (year : Int) :
    isLeap year = true ↔ year % 4 = 0 ∧ (year % 100 ≠ 0 ∨ year % 400 = 0) := decide_eq_true_iff

theorem length_february (year : Int) :
    (monthLength year 2 : Int) = 28 + (year / 4 - (year - 1) / 4) - (year / 100 - (year - 1) / 100) +
      (year / 400 - (year - 1) / 400) := by
  have leap := isLeap_iff year
  by_cases yes : isLeap year = true
  · have := leap.1 yes
    simp only [monthLength, yes, if_true]
    omega
  · have := mt leap.2 yes
    simp only [monthLength, yes, Bool.false_eq_true, if_false]
    omega

/-- the months but February have fixed lengths, which the conversions count by a line -/
theorem length_month {month : Nat} (year : Int) (first : 1 ≤ month) (last : month < 12) (other : month ≠ 2) :
    (monthLength year month : Int) =
      (153 * marchMonth (month + 1) + 2) / 5 - (153 * marchMonth month + 2) / 5 := by
  interval_cases month <;> first | contradiction | rfl

theorem index_tomorrow (date : Calendar.Date) : index date.tomorrow = index date + 1 := by
  obtain ⟨year, month, day, month_pos, month_le, day_pos, day_le⟩ := date
  unfold Calendar.Date.tomorrow
  dsimp only
  split
  · simp only [index, marchYear]
    omega
  · have last : day = monthLength year month := by omega
    split
    · rename_i less
      by_cases february : month = 2
      · subst february
        have length := length_february year
        have before : marchMonth 2 = 11 := rfl
        have after : marchMonth 3 = 0 := rfl
        simp only [index, marchYear, before, after, Nat.reduceLeDiff, if_true, if_false]
        omega
      · have length := length_month year month_pos less february
        simp only [index, marchYear]
        split <;> split <;> omega
    · have december : month = 12 := by omega
      subst december
      have length : monthLength year 12 = 31 := rfl
      have before : marchMonth 12 = 9 := rfl
      have after : marchMonth 1 = 10 := rfl
      simp only [index, marchYear, before, after, Nat.reduceLeDiff, if_true, if_false]
      omega

/-- the days of the calendar are numbered from the epoch -/
theorem index_nth (z : Int) : index (.nth z) = z := by
  induction z using Int.induction_on with
  | zero => decide
  | succ n ih => rw [Date.nth_add_one, index_tomorrow, ih]
  | pred n ih =>
    have after := Date.nth_add_one (-n - 1)
    rw [Int.sub_add_cancel] at after
    have := index_tomorrow (.nth (-n - 1))
    rw [← after, ih] at this
    omega

/-- the month of a day of the year that begins in March -/
def cycleMonth (c : Cycle) : Int := (5 * c.day + 2) / 153

theorem cycleMonth_mem (c : Cycle) : 0 ≤ cycleMonth c ∧ cycleMonth c ≤ 11 := by
  have := c.day_mem
  unfold cycleMonth
  omega

/-- the date of a day of a cycle -/
structure Civil (era : Int) (c : Cycle) (date : Calendar.Date) : Prop where
  month : (date.month : Int) = if cycleMonth c < 10 then cycleMonth c + 3 else cycleMonth c - 9
  day : (date.day : Int) = c.day - (153 * cycleMonth c + 2) / 5 + 1
  year : date.year = era * 400 + c.year + if cycleMonth c < 10 then 0 else 1

section Civil

variable {era : Int} {c : Cycle} {date : Calendar.Date}

theorem Civil.marchYear (civil : Civil era c date) : marchYear date = era * 400 + c.year := by
  have month := civil.month
  have year := civil.year
  have mem := cycleMonth_mem c
  unfold Date.marchYear
  split at month <;> split <;> split at year <;> omega

theorem Civil.marchMonth (civil : Civil era c date) : marchMonth date.month = cycleMonth c := by
  have month := civil.month
  have mem := cycleMonth_mem c
  unfold Date.marchMonth
  split at month <;> split <;> omega

theorem Civil.index (civil : Civil era c date) : index date = era * 146097 + c.number - 719468 := by
  have day := civil.day
  have mem := c.year_mem
  rw [Date.index, civil.marchYear, civil.marchMonth, c.number_eq]
  omega

/-- the days of a month are those between the lines of it and of the next -/
theorem day_between (date : Calendar.Date) :
    (date.day : Int) ≤ (153 * (Date.marchMonth date.month + 1) + 2) / 5 - (153 * Date.marchMonth date.month + 2) / 5 ∧
      (date.month = 2 → (date.day : Int) ≤ if isLeap date.year then 29 else 28) := by
  have month_pos := date.month_pos
  have month_le := date.month_le
  have day_le := date.day_le
  by_cases february : date.month = 2
  · have length : monthLength date.year 2 = if isLeap date.year then 29 else 28 := rfl
    have march : Date.marchMonth 2 = 11 := rfl
    rw [february, length] at day_le
    split at day_le
    · rename_i leap
      rw [if_pos leap]
      omega
    · rename_i leap
      omega
  · refine ⟨?_, fun is => absurd is february⟩
    by_cases december : date.month = 12
    · have length : monthLength date.year 12 = 31 := rfl
      have march : Date.marchMonth 12 = 9 := rfl
      rw [december, length] at day_le
      rw [december, march]
      omega
    · have length := length_month date.year month_pos (by omega) february
      have after : Date.marchMonth (date.month + 1) = Date.marchMonth date.month + 1 := by
        unfold Date.marchMonth
        split <;> split <;> omega
      omega

/-- every date is in a cycle -/
theorem Civil.of_date (date : Calendar.Date) : ∃ era c, Civil era c date := by
  have month_pos := date.month_pos
  have month_le := date.month_le
  have day_pos := date.day_pos
  obtain ⟨between, february⟩ := day_between date
  obtain ⟨y, isYear⟩ : ∃ y, y = Date.marchYear date := ⟨_, rfl⟩
  obtain ⟨mp, isMonth⟩ : ∃ mp, mp = Date.marchMonth date.month := ⟨_, rfl⟩
  rw [← isMonth] at between
  have mem : 0 ≤ mp ∧ mp ≤ 11 := by
    unfold Date.marchMonth at isMonth
    split at isMonth <;> omega
  have within : (153 * mp + 2) / 5 + (date.day : Int) - 1 < if isLeap (y % 400 + 1) then 366 else 365 := by
    have leap := isLeap_iff (y % 400 + 1)
    by_cases isTwo : date.month = 2
    · have days := february isTwo
      have same : isLeap date.year = isLeap (y % 400 + 1) := by
        rw [Bool.eq_iff_iff, leap, isLeap_iff]
        unfold Date.marchYear at isYear
        omega
      have march : mp = 11 := by
        rw [isMonth, isTwo]
        rfl
      rw [same] at days
      split at days <;> split <;> omega
    · have earlier : mp ≠ 11 := by
        unfold Date.marchMonth at isMonth
        split at isMonth <;> omega
      split <;> omega
  obtain ⟨c, year, day⟩ := Cycle.exists_day (Int.emod_nonneg y (by decide)) (by omega) (by omega) within
  have month : cycleMonth c = mp := by
    unfold cycleMonth
    omega
  refine ⟨y / 400, c, ?_, ?_, ?_⟩
  · rw [month, isMonth]
    unfold Date.marchMonth
    split <;> split <;> omega
  · omega
  · unfold Date.marchYear at isYear
    unfold Date.marchMonth at isMonth
    split at isYear <;> split at isMonth <;> split <;> omega

end Civil

end Subscript.Runtime.Date
