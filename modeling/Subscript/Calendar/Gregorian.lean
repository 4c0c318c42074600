import Mathlib.Algebra.Group.End
import Mathlib.Tactic.Ring

/-! The proleptic Gregorian calendar: its days in a row, one after the other in both directions, and the cycle of four
hundred years that it repeats. -/

namespace Calendar

/-- a year with a 29th of February -/
def isLeap (year : Int) : Bool := year % 4 = 0 ∧ (year % 100 ≠ 0 ∨ year % 400 = 0)

def monthLength (year : Int) : Nat → Nat
  | 2 => if isLeap year then 29 else 28
  | 4 => 30
  | 6 => 30
  | 9 => 30
  | 11 => 30
  | _ => 31

@[ext]
structure Date where
  year : Int
  month : Nat
  day : Nat
  month_pos : 1 ≤ month
  month_le : month ≤ 12
  day_pos : 1 ≤ day
  day_le : day ≤ monthLength year month
deriving DecidableEq

theorem monthLength_pos (year : Int) (month : Nat) : 1 ≤ monthLength year month := by
  unfold monthLength
  split
  · split <;> decide
  all_goals decide

theorem monthLength_le (year : Int) (month : Nat) : monthLength year month ≤ 31 := by
  unfold monthLength
  split
  · split <;> decide
  all_goals decide

namespace Date

/-- the day after -/
def tomorrow (date : Date) : Date :=
  if more : date.day < monthLength date.year date.month then
    ⟨date.year, date.month, date.day + 1, date.month_pos, date.month_le, Nat.le_add_left _ _, more⟩
  else if less : date.month < 12 then
    ⟨date.year, date.month + 1, 1, Nat.le_add_left _ _, less, Nat.le_refl _, monthLength_pos _ _⟩
  else ⟨date.year + 1, 1, 1, Nat.le_refl _, by decide, Nat.le_refl _, monthLength_pos _ _⟩

/-- the day before -/
def yesterday (date : Date) : Date :=
  if more : 1 < date.day then
    ⟨date.year, date.month, date.day - 1, date.month_pos, date.month_le, by omega, by have := date.day_le; omega⟩
  else if less : 1 < date.month then
    ⟨date.year, date.month - 1, monthLength date.year (date.month - 1), by omega, by have := date.month_le; omega,
      monthLength_pos _ _, Nat.le_refl _⟩
  else ⟨date.year - 1, 12, 31, by decide, Nat.le_refl _, by decide, Nat.le_refl _⟩

theorem yesterday_tomorrow (date : Date) : date.tomorrow.yesterday = date := by
  have month_pos := date.month_pos
  have month_le := date.month_le
  have day_pos := date.day_pos
  have day_le := date.day_le
  unfold tomorrow
  split
  · have before : 1 < date.day + 1 := by omega
    simp only [yesterday, dif_pos before, Nat.add_sub_cancel]
  · have last : date.day = monthLength date.year date.month := by omega
    split
    · have later : 1 < date.month + 1 := by omega
      simp only [yesterday, Nat.lt_irrefl, dif_neg, dif_pos later, Nat.add_sub_cancel, not_false_eq_true]
      ext <;> simp [last]
    · have december : date.month = 12 := by omega
      simp only [yesterday, Nat.lt_irrefl, dif_neg, not_false_eq_true]
      ext
      · simp
      · simp [december]
      · rw [last, december]
        rfl

theorem tomorrow_yesterday (date : Date) : date.yesterday.tomorrow = date := by
  have month_pos := date.month_pos
  have month_le := date.month_le
  have day_pos := date.day_pos
  have day_le := date.day_le
  unfold yesterday
  split
  · have before : date.day - 1 < monthLength date.year date.month := by omega
    simp only [tomorrow, dif_pos before]
    ext
    · rfl
    · rfl
    · exact Nat.sub_add_cancel day_pos
  · have first : date.day = 1 := by omega
    split
    · have earlier : date.month - 1 < 12 := by omega
      simp only [tomorrow, Nat.lt_irrefl, dif_neg, dif_pos earlier, not_false_eq_true]
      ext
      · rfl
      · exact Nat.sub_add_cancel month_pos
      · exact first.symm
    · have january : date.month = 1 := by omega
      have full : ¬ (31 < monthLength (date.year - 1) 12) := Nat.lt_irrefl 31
      simp only [tomorrow, dif_neg full, Nat.lt_irrefl, dif_neg, not_false_eq_true]
      ext
      · simp
      · exact january.symm
      · exact first.symm

/-- the calendar moves on by a day -/
def next : Equiv.Perm Date := ⟨tomorrow, yesterday, yesterday_tomorrow, tomorrow_yesterday⟩

/-- the first of January of 1970 -/
def epoch : Date := ⟨1970, 1, 1, by decide, by decide, by decide, by decide⟩

/-- the day that is `z` days after the epoch -/
def nth (z : Int) : Date := (next ^ z) epoch

theorem nth_add_one (z : Int) : nth (z + 1) = (nth z).tomorrow := by
  have moves : next ^ (z + 1) = next * next ^ z := by rw [Int.add_comm, zpow_one_add]
  rw [nth, moves]
  rfl

end Date

/-- a day of the cycle of four hundred years that begins in March, by the century, the four years in it, the year in
these and the day in the year -/
structure Cycle where
  century : Int
  four : Int
  single : Int
  day : Int
  century_mem : 0 ≤ century ∧ century ≤ 3
  four_mem : 0 ≤ four ∧ four ≤ 24
  single_mem : 0 ≤ single ∧ single ≤ 3
  day_mem : 0 ≤ day ∧ day ≤ 365
  leap : day = 365 → single = 3 ∧ (four = 24 → century = 3)

namespace Cycle

variable (c : Cycle)

/-- the year of the cycle -/
def year : Int := 100 * c.century + 4 * c.four + c.single

/-- the day of the cycle -/
def number : Int := 36524 * c.century + 1461 * c.four + 365 * c.single + c.day

theorem year_mem : 0 ≤ c.year ∧ c.year ≤ 399 := by
  have := c.century_mem
  have := c.four_mem
  have := c.single_mem
  unfold year
  omega

theorem number_mem : 0 ≤ c.number ∧ c.number ≤ 146096 := by
  have := c.century_mem
  have := c.four_mem
  have := c.single_mem
  have := c.day_mem
  have := c.leap
  unfold number
  omega

theorem number_eq : c.number = 365 * c.year + c.year / 4 - c.year / 100 + c.day := by
  have := c.century_mem
  have := c.four_mem
  have := c.single_mem
  unfold number year
  omega

/-- the year that a leap day ends, one after the year in which the cycle counts it, has a 29th of February -/
theorem exists_day {year day : Int} (first : 0 ≤ year) (last : year ≤ 399) (start : 0 ≤ day)
    (within : day < if isLeap (year + 1) then 366 else 365) : ∃ c : Cycle, c.year = year ∧ c.day = day := by
  have leap : day = 365 → (year + 1) % 4 = 0 ∧ ((year + 1) % 100 ≠ 0 ∨ (year + 1) % 400 = 0) := by
    intro is
    by_cases yes : isLeap (year + 1) = true
    · exact of_decide_eq_true yes
    · rw [if_neg yes] at within
      omega
  have bound : day ≤ 365 := by
    split at within <;> omega
  refine ⟨⟨year / 100, year % 100 / 4, year % 4, day, ?_, ?_, ?_, ⟨start, bound⟩, ?_⟩, ?_, rfl⟩
  · omega
  · omega
  · omega
  · intro is
    have := leap is
    omega
  · unfold Cycle.year
    dsimp only
    omega

/-- the leap days before a day of the cycle are not years -/
theorem year_of_number :
    (c.number - c.number / 1460 + c.number / 36524 - c.number / 146096) / 365 = c.year := by
  have := c.century_mem
  have := c.four_mem
  have := c.single_mem
  have := c.day_mem
  have := c.leap
  unfold number year
  obtain ⟨n, number⟩ : ∃ n, n = 36524 * c.century + 1461 * c.four + 365 * c.single + c.day := ⟨_, rfl⟩
  have centuries : n / 36524 - n / 146096 = c.century := by
    by_cases last : n = 146096
    · omega
    · have : 36524 * c.century ≤ n ∧ n < 36524 * (c.century + 1) := by omega
      have : n / 146096 = 0 := by omega
      omega
  have fours : n / 1460 = 25 * c.century + c.four + (24 * c.century + c.four + 365 * c.single + c.day) / 1460 := by
    omega
  omega

end Cycle

end Calendar
