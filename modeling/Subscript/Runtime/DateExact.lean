import Subscript.Runtime.DateCalendar

/-! What the conversions compute, for every argument of their machine types. -/

namespace Subscript.Runtime.Date

open Calendar

section Checked

variable {w : Nat} {x y : Int}

theorem checked_of (fits : Fits w x) : checked w x = some x := if_pos fits

theorem checked_bind {β : Type} {next : Int → Option β} (fits : Fits w x) : (checked w x).bind next = next x := by
  rw [checked_of fits, Option.bind_some]

/-- a computation that returns has not overflowed -/
theorem returns_of_bind {β : Type} {next : Int → Option β} {z : β} (returns : (checked w x).bind next = some z) :
    Fits w x ∧ next x = some z := by
  by_cases fits : Fits w x
  · rw [checked_bind fits] at returns
    exact ⟨fits, returns⟩
  · rw [checked, if_neg fits] at returns
    cases returns

theorem fits_64 : Fits 64 x ↔ -9223372036854775808 ≤ x ∧ x < 9223372036854775808 := Iff.rfl

theorem fits_128 : Fits 128 x ↔ -170141183460469231731687303715884105728 ≤ x ∧
    x < 170141183460469231731687303715884105728 := Iff.rfl

theorem bind_64 {β : Type} {next : Int → Option β} (range : -9223372036854775808 ≤ x ∧ x < 9223372036854775808) :
    (checked 64 x).bind next = next x :=
  checked_bind range

theorem fits_32 : Fits 32 x ↔ -2147483648 ≤ x ∧ x < 2147483648 := Iff.rfl

theorem asU32_of {n : Nat} (is : x = n) (small : n < 4294967296) : asU32 x = n := by
  unfold asU32
  omega

theorem tdiv_of_nonneg (nonneg : 0 ≤ x) : x.tdiv y = x / y := Int.tdiv_eq_ediv_of_nonneg nonneg

end Checked

variable {era : Int} {c : Cycle} {date : Calendar.Date} {β : Type}

/-- the day numbers whose intermediates a machine integer holds -/
def Roomy (z : Int) : Prop := Fits 64 (z + 719468) ∧ Fits 64 ((z + 719468) / 146097 * 146097)

instance (z : Int) : Decidable (Roomy z) := inferInstanceAs (Decidable (_ ∧ _))

theorem era_eq (civil : Civil era c date) : (index date + 719468) / 146097 = era := by
  have := c.number_mem
  rw [civil.index]
  omega

-- one lemma for each line of the conversions, before any continuation `next`
section Lines

variable (c : Cycle)

theorem line_years (next : Int → Option β) :
    ((sub 64 c.number (c.number.tdiv 1460)).bind fun a => (add 64 a (c.number.tdiv 36524)).bind fun b =>
      (sub 64 b (c.number.tdiv 146096)).bind next) =
      next (c.number - c.number / 1460 + c.number / 36524 - c.number / 146096) := by
  have number := c.number_mem
  have nonneg := number.1
  rw [tdiv_of_nonneg nonneg, tdiv_of_nonneg nonneg, tdiv_of_nonneg nonneg]
  rw [sub, bind_64 (by omega), add, bind_64 (by omega), sub, bind_64 (by omega)]

theorem line_yoe : (c.number - c.number / 1460 + c.number / 36524 - c.number / 146096).tdiv 365 = c.year := by
  have number := c.number_mem
  rw [tdiv_of_nonneg (by omega), c.year_of_number]

theorem line_doy (next : Int → Option β) :
    ((mul 64 365 c.year).bind fun a => (add 64 a (c.year.tdiv 4)).bind fun b => (sub 64 b (c.year.tdiv 100)).bind fun e =>
      (sub 64 c.number e).bind next) = next c.day := by
  have number := c.number_mem
  have year := c.year_mem
  have equal := c.number_eq
  have day := c.day_mem
  have doy : c.number - (365 * c.year + c.year / 4 - c.year / 100) = c.day := by omega
  rw [tdiv_of_nonneg year.1, tdiv_of_nonneg year.1]
  rw [mul, bind_64 (by omega), add, bind_64 (by omega), sub, bind_64 (by omega), sub, doy, bind_64 (by omega)]

theorem line_days (next : Int → Option β) :
    ((mul 64 5 c.day).bind fun a => (add 64 a 2).bind next) = next (5 * c.day + 2) := by
  have day := c.day_mem
  rw [mul, bind_64 (by omega), add, bind_64 (by omega)]

theorem line_mp : (5 * c.day + 2).tdiv 153 = cycleMonth c := by
  have day := c.day_mem
  exact tdiv_of_nonneg (by omega)

variable {mp : Int}

theorem line_months (mem : 0 ≤ mp ∧ mp ≤ 11) (next : Int → Option β) :
    ((mul 64 153 mp).bind fun a => (add 64 a 2).bind next) = next (153 * mp + 2) := by
  rw [mul, bind_64 (by omega), add, bind_64 (by omega)]

theorem line_month (mem : 0 ≤ mp ∧ mp ≤ 11) : (153 * mp + 2).tdiv 5 = (153 * mp + 2) / 5 :=
  tdiv_of_nonneg (by omega)

theorem line_day (civil : Civil era c date) (next : Int → Option β) :
    ((sub 64 c.day ((153 * cycleMonth c + 2) / 5)).bind fun a => (add 64 a 1).bind next) = next date.day := by
  have day := c.day_mem
  have month := cycleMonth_mem c
  rw [sub, bind_64 (by omega), add, bind_64 (by omega), civil.day]

theorem asU32_day (date : Calendar.Date) : asU32 date.day = date.day := by
  have within := date.day_le.trans (monthLength_le _ _)
  exact asU32_of rfl (by omega)

theorem asU32_month (date : Calendar.Date) : asU32 date.month = date.month := by
  have within := date.month_le
  exact asU32_of rfl (by omega)

theorem line_year (civil : Civil era c date) (low : Fits 64 (era * 146097)) (next : Int → Option β) :
    (if date.month ≤ 2 then (add 64 (c.year + era * 400) 1).bind next else next (c.year + era * 400)) =
      next date.year := by
  have bound := fits_64.1 low
  have year := c.year_mem
  have is := civil.marchYear
  unfold marchYear at is
  split
  · rename_i early
    have after : c.year + era * 400 + 1 = date.year := by omega
    rw [add, bind_64 (by omega), after]
  · rename_i late
    have same : c.year + era * 400 = date.year := by omega
    rw [same]

end Lines

theorem civilFromDays_index (civil : Civil era c date) (roomy : Roomy (index date)) :
    civilFromDays (index date) = some (date.year, date.month, date.day) := by
  obtain ⟨fit, low⟩ := roomy
  rw [era_eq civil] at low
  have number := c.number_mem
  have year := c.year_mem
  have doe : index date + 719468 - era * 146097 = c.number := by
    rw [civil.index]
    omega
  have toDoe : sub 64 (index date + 719468) (era * 146097) = some c.number := by
    rw [sub, doe]
    exact checked_of (by rw [fits_64]; omega)
  have bound := fits_64.1 low
  have toEra : mul 64 era 400 = some (era * 400) := checked_of (by rw [fits_64]; omega)
  have toYear : add 64 c.year (era * 400) = some (c.year + era * 400) := checked_of (by rw [fits_64]; omega)
  have first : add 64 (index date) 719468 = some (index date + 719468) := checked_of fit
  have second : mul 64 era 146097 = some (era * 146097) := checked_of low
  rw [civilFromDays]
  dsimp only [Option.bind_eq_bind, Option.pure_def, Option.bind_some]
  rw [first, Option.bind_some, era_eq civil, second, Option.bind_some, toDoe, Option.bind_some, line_years c, toEra,
    line_yoe, Option.bind_some, toYear, Option.bind_some, line_doy c, line_days c, line_mp,
    line_months (cycleMonth_mem c), line_month (cycleMonth_mem c), line_day c civil, asU32_day]
  have isMonth := civil.month
  have month := cycleMonth_mem c
  split
  · rename_i early
    rw [if_pos early] at isMonth
    rw [add, bind_64 (by omega), ← isMonth, asU32_month, line_year c civil low]
  · rename_i late
    rw [if_neg late] at isMonth
    rw [sub, bind_64 (by omega), ← isMonth, asU32_month, line_year c civil low]

theorem line_civil (civil : Civil era c date) : (153 * marchMonth date.month + 2) / 5 + (date.day : Int) - 1 = c.day := by
  have day := civil.day
  rw [civil.marchMonth]
  omega

/-- the lines of a date without its year -/
theorem line_day_of_year (civil : Civil era c date) (next : Int → Option β) :
    ((mul 64 153 (marchMonth date.month)).bind fun a => (add 64 a 2).bind fun b =>
      (add 64 (b.tdiv 5) date.day).bind fun e => (sub 64 e 1).bind next) = next c.day := by
  have mem := cycleMonth_mem c
  have is := line_civil civil
  have day := c.day_mem
  have isDay := civil.day
  rw [civil.marchMonth] at is ⊢
  rw [line_months mem, line_month mem, add, bind_64 (by omega), sub, is, bind_64 (by omega)]

theorem line_number (next : Int → Option β) :
    ((mul 64 c.year 365).bind fun a => (add 64 a (c.year.tdiv 4)).bind fun b => (sub 64 b (c.year.tdiv 100)).bind fun e =>
      (add 64 e c.day).bind next) = next c.number := by
  have number := c.number_mem
  have year := c.year_mem
  have equal := c.number_eq
  have day := c.day_mem
  have is : c.year * 365 + c.year / 4 - c.year / 100 + c.day = c.number := by omega
  rw [tdiv_of_nonneg year.1, tdiv_of_nonneg year.1]
  rw [mul, bind_64 (by omega), add, bind_64 (by omega), sub, bind_64 (by omega), add, is, bind_64 (by omega)]

/-- `daysFromCivil`, once the year begins in March -/
def daysFromMarch (y : Int) (mp d : Int) : Option Int := do
  let yoe ← sub 64 y (← mul 64 (y / 400) 400)
  let doy ← sub 64 (← add 64 ((← add 64 (← mul 64 153 mp) 2).tdiv 5) d) 1
  let doe ← add 64 (← sub 64 (← add 64 (← mul 64 yoe 365) (yoe.tdiv 4)) (yoe.tdiv 100)) doy
  sub 64 (← add 64 (← mul 64 (y / 400) 146097) doe) 719468

theorem daysFromCivil_eq (y : Int) (m : Nat) (d : Int) :
    daysFromCivil y m d =
      if m ≤ 2 then (checked 64 (y - 1)).bind fun y => daysFromMarch y (marchMonth m) d
      else daysFromMarch y (marchMonth m) d := by
  rfl

/-- the last lines of a date of a year that begins in March -/
theorem daysFromMarch_eq (civil : Civil era c date) (times : Fits 64 (era * 400)) :
    daysFromMarch (era * 400 + c.year) (marchMonth date.month) date.day =
      (checked 64 (era * 146097)).bind fun start => (checked 64 (start + c.number)).bind fun z =>
        checked 64 (z - 719468) := by
  have year := c.year_mem
  have toEra : (era * 400 + c.year) / 400 = era := by omega
  have toYear : era * 400 + c.year - era * 400 = c.year := by omega
  rw [daysFromMarch]
  dsimp only [Option.bind_eq_bind]
  rw [toEra, mul, checked_bind times, sub, toYear, bind_64 (by omega),
    line_day_of_year civil, line_number]
  rfl

theorem daysFromCivil_index (civil : Civil era c date) (roomy : Roomy (index date)) (fits : Fits 64 (index date)) :
    daysFromCivil date.year date.month date.day = some (index date) := by
  obtain ⟨fit, low⟩ := roomy
  rw [era_eq civil] at low
  have bound := fits_64.1 low
  have year := c.year_mem
  have times : Fits 64 (era * 400) := by rw [fits_64]; omega
  have toDay : era * 146097 + c.number = index date + 719468 := by
    rw [civil.index]
    omega
  have toIndex : index date + 719468 - 719468 = index date := by omega
  have march : daysFromMarch (marchYear date) (marchMonth date.month) date.day = some (index date) := by
    rw [civil.marchYear, daysFromMarch_eq civil times, checked_bind low, toDay, checked_bind fit, toIndex, checked_of fits]
  have is := civil.marchYear
  rw [daysFromCivil_eq]
  unfold marchYear at march is
  split at march
  · rename_i early
    rw [if_pos early, bind_64 (by omega), march]
  · rename_i late
    rw [if_neg late, march]

/-- a date whose conversion returns has a number with room -/
theorem index_of_daysFromCivil {z : Int} (date : Calendar.Date)
    (returns : daysFromCivil date.year date.month date.day = some z) :
    z = index date ∧ Roomy z ∧ Fits 64 z := by
  obtain ⟨era, c, civil⟩ := Civil.of_date date
  have year := c.year_mem
  have march : daysFromMarch (marchYear date) (marchMonth date.month) date.day = some z := by
    rw [daysFromCivil_eq] at returns
    unfold marchYear
    split at returns
    · rename_i early
      rw [if_pos early]
      exact (returns_of_bind returns).2
    · rename_i late
      rw [if_neg late]
      exact returns
  have times : Fits 64 (era * 400) := by
    rw [civil.marchYear, daysFromMarch] at march
    have toEra : (era * 400 + c.year) / 400 = era := by omega
    have first := (returns_of_bind march).1
    rwa [toEra] at first
  rw [civil.marchYear, daysFromMarch_eq civil times] at march
  obtain ⟨low, march⟩ := returns_of_bind march
  obtain ⟨fit, march⟩ := returns_of_bind march
  have toDay : era * 146097 + c.number - 719468 = index date := by
    rw [civil.index]
  rw [toDay] at march
  obtain ⟨fits, is⟩ : Fits 64 (index date) ∧ index date = z := by
    by_cases fits : Fits 64 (index date)
    · exact ⟨fits, Option.mem_unique (checked_of fits) march⟩
    · rw [checked, if_neg fits] at march
      cases march
  subst is
  have same : index date + 719468 = era * 146097 + c.number := by omega
  refine ⟨rfl, ⟨same ▸ fit, ?_⟩, fits⟩
  rw [era_eq civil]
  exact low

end Subscript.Runtime.Date
