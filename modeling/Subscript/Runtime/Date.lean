import Subscript.Calendar.Gregorian

/-! The `Date` runtime: calendar arithmetic over 64-bit milliseconds. An operation whose result a machine integer cannot
hold has none. -/

namespace Subscript.Runtime.Date

section Checked

/-- the integers of `w` bits -/
def Fits (w : Nat) (x : Int) : Prop := -2 ^ (w - 1) ≤ x ∧ x < 2 ^ (w - 1)

instance (w : Nat) (x : Int) : Decidable (Fits w x) := inferInstanceAs (Decidable (_ ∧ _))

def checked (w : Nat) (x : Int) : Option Int := if Fits w x then some x else none

def add (w : Nat) (x y : Int) : Option Int := checked w (x + y)

def sub (w : Nat) (x y : Int) : Option Int := checked w (x - y)

def mul (w : Nat) (x y : Int) : Option Int := checked w (x * y)

/-- `as u32` -/
def asU32 (x : Int) : Nat := (x % 2 ^ 32).toNat

end Checked

def msPerDay : Int := 86400000

def maxDateMs : Int := 8640000000000000

/-- days since the epoch, with a month from one and a day that may be outside it -/
def daysFromCivil (y : Int) (m : Nat) (d : Int) : Option Int := do
  let y ← if m ≤ 2 then sub 64 y 1 else some y
  let era := y / 400
  let yoe ← sub 64 y (← mul 64 era 400)
  let mp : Int := if m > 2 then ↑(m - 3) else ↑(m + 9)
  let doy ← sub 64 (← add 64 ((← add 64 (← mul 64 153 mp) 2).tdiv 5) d) 1
  let doe ← add 64 (← sub 64 (← add 64 (← mul 64 yoe 365) (yoe.tdiv 4)) (yoe.tdiv 100)) doy
  sub 64 (← add 64 (← mul 64 era 146097) doe) 719468

def civilFromDays (z : Int) : Option (Int × Nat × Nat) := do
  let z ← add 64 z 719468
  let era := z / 146097
  let doe ← sub 64 z (← mul 64 era 146097)
  let years ← sub 64 (← add 64 (← sub 64 doe (doe.tdiv 1460)) (doe.tdiv 36524)) (doe.tdiv 146096)
  let yoe := years.tdiv 365
  let y ← add 64 yoe (← mul 64 era 400)
  let doy ← sub 64 doe (← sub 64 (← add 64 (← mul 64 365 yoe) (yoe.tdiv 4)) (yoe.tdiv 100))
  let mp := (← add 64 (← mul 64 5 doy) 2).tdiv 153
  let d := asU32 (← add 64 (← sub 64 doy ((← add 64 (← mul 64 153 mp) 2).tdiv 5)) 1)
  let m := asU32 (← if mp < 10 then add 64 mp 3 else sub 64 mp 9)
  return (← if m ≤ 2 then add 64 y 1 else some y, m, d)

/-- zero is Sunday -/
def weekdayFromDays (z : Int) : Option Nat := do
  return asU32 ((← add 64 z 4) % 7)

/-- the milliseconds of a date and time; `some none` is a time outside the range of ECMA -/
def utcMs (year month0 day hours minutes seconds millis : Int) : Option (Option Int) := do
  let year ← if 0 ≤ year ∧ year ≤ 99 then add 64 1900 year else some year
  let ym ← add 64 (← mul 64 year 12) month0
  let y := ym / 12
  let m := asU32 (← add 64 (ym % 12) 1)
  let days ← add 64 (← daysFromCivil y m 1) (← sub 64 day 1)
  let ms ← mul 128 days msPerDay
  let ms ← add 128 ms (← mul 128 hours 3600000)
  let ms ← add 128 ms (← mul 128 minutes 60000)
  let ms ← add 128 ms (← mul 128 seconds 1000)
  let ms ← add 128 ms millis
  return if ms.natAbs ≤ maxDateMs then some ms else none

structure DateFields where
  year : Int
  month0 : Nat
  day : Nat
  weekday : Nat
  hours : Nat
  minutes : Nat
  seconds : Nat
  millis : Nat
deriving DecidableEq, Repr

def decompose (ms : Int) : Option DateFields := do
  let days := ms / msPerDay
  let tod := ms % msPerDay
  let (year, m, d) ← civilFromDays days
  return {
    year
    month0 := m - 1
    day := d
    weekday := ← weekdayFromDays days
    hours := asU32 (tod.tdiv 3600000)
    minutes := asU32 ((tod.tdiv 60000).tmod 60)
    seconds := asU32 ((tod.tdiv 1000).tmod 60)
    millis := asU32 (tod.tmod 1000) }

end Subscript.Runtime.Date
