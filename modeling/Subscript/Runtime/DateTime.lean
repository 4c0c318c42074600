import Subscript.Runtime.DateExact
import Mathlib.Order.Basic

/-! Day numbers, dates and times of day: the conversions are exact inverses of each other, and `utcMs` carries. -/

namespace Subscript.Runtime.Date

open Calendar

theorem index_injective : Function.Injective index := by
  intro date date' same
  obtain ⟨era, c, civil⟩ := Civil.of_date date
  obtain ⟨era', c', civil'⟩ := Civil.of_date date'
  have eras : era = era' := by rw [← era_eq civil, ← era_eq civil', same]
  have numbers : c.number = c'.number := by
    have first := civil.index
    have second := civil'.index
    omega
  have years : c.year = c'.year := by rw [← c.year_of_number, ← c'.year_of_number, numbers]
  have days : c.day = c'.day := by
    have first := c.number_eq
    have second := c'.number_eq
    omega
  have months : cycleMonth c = cycleMonth c' := by rw [cycleMonth, cycleMonth, days]
  ext
  · rw [civil.year, civil'.year, eras, years, months]
  · have first := civil.month
    have second := civil'.month
    rw [← months] at second
    exact Int.ofNat.inj (first.trans second.symm)
  · have first := civil.day
    have second := civil'.day
    rw [← months, ← days] at second
    exact Int.ofNat.inj (first.trans second.symm)

theorem nth_index (date : Calendar.Date) : .nth (index date) = date := index_injective (index_nth _)

variable {z : Int}

theorem roomy_of_civilFromDays {r : Int × Nat × Nat} (returns : civilFromDays z = some r) : Roomy z := by
  obtain ⟨fit, returns⟩ := returns_of_bind returns
  exact ⟨fit, (returns_of_bind returns).1⟩

theorem civilFromDays_nth (roomy : Roomy z) :
    civilFromDays z = some ((Date.nth z).year, (Date.nth z).month, (Date.nth z).day) := by
  obtain ⟨era, c, civil⟩ := Civil.of_date (.nth z)
  have is := index_nth z
  have reads := civilFromDays_index civil (is.symm ▸ roomy)
  rwa [is] at reads

theorem daysFromCivil_nth (roomy : Roomy z) (fits : Fits 64 z) :
    daysFromCivil (Date.nth z).year (Date.nth z).month (Date.nth z).day = some z := by
  obtain ⟨era, c, civil⟩ := Civil.of_date (.nth z)
  have is := index_nth z
  have counts := daysFromCivil_index civil (is.symm ▸ roomy) (is.symm ▸ fits)
  rwa [is] at counts

theorem roomy_of_small (low : -1000000000000000000 ≤ z) (high : z ≤ 1000000000000000000) :
    Roomy z ∧ Fits 64 z := by
  refine ⟨⟨?_, ?_⟩, ?_⟩
  · rw [fits_64]
    omega
  · rw [fits_64]
    omega
  · rw [fits_64]
    omega

theorem weekdayFromDays_eq (fit : Fits 64 (z + 4)) : weekdayFromDays z = some ((z + 4) % 7).toNat := by
  have small : asU32 ((z + 4) % 7) = ((z + 4) % 7).toNat := asU32_of (by omega) (by omega)
  rw [weekdayFromDays]
  dsimp only [Option.bind_eq_bind, Option.pure_def]
  rw [add, checked_of fit, Option.bind_some, small]

/-- the first day of a month, counted from the first month of the year zero -/
def firstOf (ym : Int) : Calendar.Date :=
  ⟨ym / 12, (ym % 12 + 1).toNat, 1, by omega, by omega, Nat.one_pos, monthLength_pos _ _⟩

theorem index_bound (date : Calendar.Date) :
    (-10000000000 ≤ date.year → -100000000000000 ≤ index date) ∧
      (date.year ≤ 10000000000 → index date ≤ 100000000000000) := by
  obtain ⟨era, c, civil⟩ := Civil.of_date date
  have number := c.number_mem
  have year := c.year_mem
  have is := civil.marchYear
  rw [civil.index]
  unfold marchYear at is
  split at is <;> omega

/-- the year that `utcMs` reads: two digits are of the twentieth century -/
def fullYear (year : Int) : Int := if 0 ≤ year ∧ year ≤ 99 then 1900 + year else year

/-- the milliseconds of a time, with all fields carried -/
def carried (year month0 day hours minutes seconds millis : Int) : Int :=
  (index (firstOf (fullYear year * 12 + month0)) + (day - 1)) * 86400000 + hours * 3600000 + minutes * 60000 +
    seconds * 1000 + millis

variable {hours minutes seconds millis : Int}

/-- the sum of days and times of day is one of 128 bits -/
theorem line_ms {days : Int} (d : -1000000000000000 ≤ days ∧ days ≤ 1000000000000000)
    (h : Fits 32 hours) (mi : Fits 32 minutes) (s : Fits 32 seconds) (ml : Fits 32 millis)
    (next : Int → Option (Option Int)) :
    ((mul 128 days msPerDay).bind fun a => (mul 128 hours 3600000).bind fun b => (add 128 a b).bind fun ms =>
      (mul 128 minutes 60000).bind fun b => (add 128 ms b).bind fun ms => (mul 128 seconds 1000).bind fun b =>
        (add 128 ms b).bind fun ms => (add 128 ms millis).bind next) =
      next (days * 86400000 + hours * 3600000 + minutes * 60000 + seconds * 1000 + millis) := by
  have unit : msPerDay = 86400000 := rfl
  rw [fits_32] at h mi s ml
  rw [unit, mul, checked_bind (fits_128.2 (by omega)), mul, checked_bind (fits_128.2 (by omega)), add,
    checked_bind (fits_128.2 (by omega)), mul, checked_bind (fits_128.2 (by omega)), add, checked_bind (fits_128.2 (by omega)), mul,
    checked_bind (fits_128.2 (by omega)), add, checked_bind (fits_128.2 (by omega)), add, checked_bind (fits_128.2 (by omega))]

theorem utcMs_eq {year month0 day : Int} (y : Fits 32 year) (mo : Fits 32 month0)
    (d : Fits 32 day) (h : Fits 32 hours) (mi : Fits 32 minutes) (s : Fits 32 seconds) (ml : Fits 32 millis) :
    utcMs year month0 day hours minutes seconds millis =
      some (if (carried year month0 day hours minutes seconds millis).natAbs ≤ maxDateMs then
        some (carried year month0 day hours minutes seconds millis) else none) := by
  rw [fits_32] at y mo d
  have full : -2147483648 ≤ fullYear year ∧ fullYear year < 2147483648 := by
    unfold fullYear
    split <;> omega
  have toYear : ∀ next : Int → Option (Option Int),
      (if 0 ≤ year ∧ year ≤ 99 then (add 64 1900 year).bind next else next year) = next (fullYear year) := by
    intro next
    unfold fullYear
    split
    · rw [add, bind_64 (by omega)]
    · rfl
  obtain ⟨ym, isYm⟩ : ∃ ym, ym = fullYear year * 12 + month0 := ⟨_, rfl⟩
  have month : asU32 (ym % 12 + 1) = (firstOf ym).month := asU32_of (Int.toNat_of_nonneg (by omega)).symm (by
    have := (firstOf ym).month_le
    omega)
  have bound := index_bound (firstOf ym)
  have isYear : (firstOf ym).year = ym / 12 := rfl
  have isDay : ((firstOf ym).day : Int) = 1 := rfl
  obtain ⟨n, isIndex⟩ : ∃ n, n = index (firstOf ym) := ⟨_, rfl⟩
  have range : -100000000000000 ≤ n ∧ n ≤ 100000000000000 := by
    rw [isIndex]
    exact ⟨bound.1 (by omega), bound.2 (by omega)⟩
  have room := roomy_of_small (z := index (firstOf ym)) (by omega) (by omega)
  obtain ⟨era, c, civil⟩ := Civil.of_date (firstOf ym)
  have first : daysFromCivil (ym / 12) (firstOf ym).month 1 = some n := by
    rw [isIndex]
    exact daysFromCivil_index civil room.1 room.2
  have value : carried year month0 day hours minutes seconds millis =
      (n + (day - 1)) * 86400000 + hours * 3600000 + minutes * 60000 + seconds * 1000 + millis := by
    rw [carried, ← isYm, ← isIndex]
  rw [value]
  rw [utcMs]
  dsimp only [Option.bind_eq_bind, Option.bind_some, Option.pure_def]
  rw [toYear, mul, bind_64 (by omega), add, ← isYm, bind_64 (by omega), add, bind_64 (by omega),
    month, first, Option.bind_some, sub, bind_64 (by omega), add, bind_64 (by omega),
    line_ms (by omega) h mi s ml]

variable {t : Int}

/-- the fields of a time value -/
theorem decompose_eq (valid : t.natAbs ≤ 8640000000000000) :
    decompose t = some {
      year := (Date.nth (t / 86400000)).year
      month0 := (Date.nth (t / 86400000)).month - 1
      day := (Date.nth (t / 86400000)).day
      weekday := ((t / 86400000 + 4) % 7).toNat
      hours := (t % 86400000 / 3600000).toNat
      minutes := (t % 86400000 / 60000 % 60).toNat
      seconds := (t % 86400000 / 1000 % 60).toNat
      millis := (t % 86400000 % 1000).toNat } := by
  have room := roomy_of_small (z := t / 86400000) (by omega) (by omega)
  have unit : msPerDay = 86400000 := rfl
  have weekday := weekdayFromDays_eq (z := t / 86400000) (by rw [fits_64]; omega)
  obtain ⟨tod, isTod⟩ : ∃ tod, tod = t % 86400000 := ⟨_, rfl⟩
  have nonneg : 0 ≤ tod := by omega
  have below : tod < 86400000 := by omega
  have hours : asU32 (tod.tdiv 3600000) = (tod / 3600000).toNat := by
    rw [tdiv_of_nonneg nonneg]
    exact asU32_of (by omega) (by omega)
  have minutes : asU32 ((tod.tdiv 60000).tmod 60) = (tod / 60000 % 60).toNat := by
    rw [tdiv_of_nonneg nonneg, Int.tmod_eq_emod_of_nonneg (by omega)]
    exact asU32_of (by omega) (by omega)
  have seconds : asU32 ((tod.tdiv 1000).tmod 60) = (tod / 1000 % 60).toNat := by
    rw [tdiv_of_nonneg nonneg, Int.tmod_eq_emod_of_nonneg (by omega)]
    exact asU32_of (by omega) (by omega)
  have millis : asU32 (tod.tmod 1000) = (tod % 1000).toNat := by
    rw [Int.tmod_eq_emod_of_nonneg nonneg]
    exact asU32_of (by omega) (by omega)
  rw [decompose]
  dsimp only [Option.bind_eq_bind, Option.pure_def]
  rw [unit, ← isTod, civilFromDays_nth room.1, Option.bind_some, weekday, Option.bind_some, hours, minutes, seconds, millis]

/-- the first day of the month of a date -/
theorem index_eq_firstOf (date : Calendar.Date) :
    index date = index (firstOf (date.year * 12 + (date.month - 1 : Nat))) + (date.day - 1) := by
  have month_pos := date.month_pos
  have month_le := date.month_le
  have year : (date.year * 12 + ((date.month - 1 : Nat) : Int)) / 12 = date.year := by omega
  have month : ((date.year * 12 + ((date.month - 1 : Nat) : Int)) % 12 + 1).toNat = date.month := by omega
  have first : index (firstOf (date.year * 12 + (date.month - 1 : Nat))) =
      365 * marchYear date + marchYear date / 4 - marchYear date / 100 + marchYear date / 400 +
        ((153 * marchMonth date.month + 2) / 5 + 1 - 1) - 719468 := by
    simp only [index, firstOf, marchYear, year, month]
    rfl
  rw [first, index]
  omega

theorem year_of_valid (valid : t.natAbs ≤ 8640000000000000) :
    Fits 32 (Date.nth (t / 86400000)).year := by
  obtain ⟨era, c, civil⟩ := Civil.of_date (.nth (t / 86400000))
  have is := civil.index
  have year := civil.year
  have mem := c.year_mem
  have number := c.number_mem
  rw [index_nth] at is
  rw [fits_32]
  split at year <;> omega

theorem carried_decompose (old : ¬ (0 ≤ (Date.nth (t / 86400000)).year ∧ (Date.nth (t / 86400000)).year ≤ 99)) :
    carried (Date.nth (t / 86400000)).year ((Date.nth (t / 86400000)).month - 1 : Nat) (Date.nth (t / 86400000)).day
      (t % 86400000 / 3600000).toNat (t % 86400000 / 60000 % 60).toNat (t % 86400000 / 1000 % 60).toNat
      (t % 86400000 % 1000).toNat = t := by
  have days := index_eq_firstOf (.nth (t / 86400000))
  rw [index_nth] at days
  rw [carried, fullYear, if_neg old, ← days]
  omega

/-- The conversions are the calendar's, in both directions, wherever their intermediates are machine integers. A time value
comes back from its fields, and `utcMs` carries all fields from the first day of the month that the year and the month
name. -/
theorem date_arithmetic_exact :
    (∀ z, (civilFromDays z).isSome ↔ Roomy z) ∧
    (∀ z r, Fits 64 z → civilFromDays z = some r →
      r = ((Date.nth z).year, (Date.nth z).month, (Date.nth z).day) ∧ daysFromCivil r.1 r.2.1 r.2.2 = some z) ∧
    (∀ (date : Calendar.Date) z, daysFromCivil date.year date.month date.day = some z →
      date = .nth z ∧ civilFromDays z = some (date.year, date.month, date.day)) ∧
    (weekdayFromDays 0 = some 4 ∧ ∀ z, Fits 64 (z + 4) → Fits 64 (z + 1 + 4) →
      ∃ w, weekdayFromDays z = some w ∧ w < 7 ∧ weekdayFromDays (z + 1) = some ((w + 1) % 7)) ∧
    (∀ t : Int, t.natAbs ≤ maxDateMs → ∃ f, decompose t = some f ∧
      (f.year, f.month0 + 1, f.day) = ((Date.nth (t / msPerDay)).year, (Date.nth (t / msPerDay)).month,
        (Date.nth (t / msPerDay)).day) ∧ weekdayFromDays (t / msPerDay) = some f.weekday ∧
      (¬ (0 ≤ f.year ∧ f.year ≤ 99) →
        utcMs f.year f.month0 f.day f.hours f.minutes f.seconds f.millis = some (some t))) ∧
    ∀ year month0 day hours minutes seconds millis : Int, Fits 32 year → Fits 32 month0 → Fits 32 day → Fits 32 hours →
      Fits 32 minutes → Fits 32 seconds → Fits 32 millis →
      ∃ first ms : Int, ((Date.nth first).year * 12 + (Date.nth first).month = fullYear year * 12 + month0 + 1 ∧
          (Date.nth first).day = 1) ∧
        ms = (first + (day - 1)) * 86400000 + hours * 3600000 + minutes * 60000 + seconds * 1000 + millis ∧
        utcMs year month0 day hours minutes seconds millis = some (if ms.natAbs ≤ maxDateMs then some ms else none) := by
  refine ⟨?_, ?_, ?_, ?_, ?_, ?_⟩
  · intro z
    constructor
    · intro returns
      obtain ⟨r, returns⟩ := Option.isSome_iff_exists.1 returns
      exact roomy_of_civilFromDays returns
    · intro roomy
      rw [civilFromDays_nth roomy]
      rfl
  · intro z r fits returns
    have roomy := roomy_of_civilFromDays returns
    rw [civilFromDays_nth roomy] at returns
    cases returns
    exact ⟨rfl, daysFromCivil_nth roomy fits⟩
  · intro date z returns
    obtain ⟨is, roomy, _⟩ := index_of_daysFromCivil date returns
    have same : .nth z = date := by rw [is, nth_index]
    have reads := civilFromDays_nth roomy
    rw [same] at reads
    exact ⟨same.symm, reads⟩
  · refine ⟨by decide, fun z fit fit' => ⟨_, weekdayFromDays_eq fit, by omega, ?_⟩⟩
    rw [weekdayFromDays_eq fit']
    refine congrArg some ?_
    omega
  · intro t valid
    replace valid : t.natAbs ≤ 8640000000000000 := by
      unfold maxDateMs at valid
      omega
    have month_pos := (Date.nth (t / 86400000)).month_pos
    have month_le := (Date.nth (t / 86400000)).month_le
    have day_le := (Date.nth (t / 86400000)).day_le.trans (monthLength_le _ _)
    have weekday := weekdayFromDays_eq (z := t / 86400000) (by rw [fits_64]; omega)
    refine ⟨_, decompose_eq valid, ?_, weekday, fun old => ?_⟩
    · simp only [Nat.sub_add_cancel month_pos]
      rfl
    · dsimp only
      rw [utcMs_eq (year_of_valid valid) (by rw [fits_32]; omega) (by rw [fits_32]; omega) (by rw [fits_32]; omega)
        (by rw [fits_32]; omega) (by rw [fits_32]; omega) (by rw [fits_32]; omega), carried_decompose old, if_pos]
      unfold maxDateMs
      omega
  · intro year month0 day hours minutes seconds millis y mo d h mi s ml
    refine ⟨index (firstOf (fullYear year * 12 + month0)), _, ?_, rfl, utcMs_eq y mo d h mi s ml⟩
    rw [nth_index]
    refine ⟨?_, rfl⟩
    simp only [firstOf]
    omega

end Subscript.Runtime.Date
