import Subscript.Runtime.DateTime
import Subscript.Text.Padded

/-! The ISO texts of time values stand in the order of the times. -/

namespace Subscript.Runtime.Date

open Calendar Text List

/-- `{:04}-{:02}-{:02}T{:02}:{:02}:{:02}.{:03}Z` -/
def isoFormat : List (Nat × Char) := [(4, '-'), (2, '-'), (2, 'T'), (2, ':'), (2, ':'), (2, '.'), (3, 'Z')]

/-- `some none` is a year without a text -/
def toIso (ms : Int) : Option (Option (List Char)) := do
  let f ← decompose ms
  if ¬ (0 ≤ f.year ∧ f.year ≤ 9999) then return none
  return some (fields isoFormat [f.year.toNat, f.month0 + 1, f.day, f.hours, f.minutes, f.seconds, f.millis])

/-- the order of the calendar -/
def Before (a b : Calendar.Date) : Prop :=
  a.year < b.year ∨ a.year = b.year ∧ (a.month < b.month ∨ a.month = b.month ∧ a.day < b.day)

theorem before_tomorrow (a : Calendar.Date) : Before a a.tomorrow := by
  unfold Calendar.Date.tomorrow
  split_ifs
  · exact .inr ⟨rfl, .inr ⟨rfl, Nat.lt_succ_self _⟩⟩
  · exact .inr ⟨rfl, .inl (Nat.lt_succ_self _)⟩
  · exact .inl (Int.lt_succ _)

/-- the days are counted in this order -/
theorem before_of_lt {z z' : Int} (less : z < z') : Before (.nth z) (.nth z') := by
  induction z', less using Int.leInduction with
  | base => rw [Date.nth_add_one]; exact before_tomorrow _
  | succ z' _ ih =>
    have step := before_tomorrow (.nth z')
    rw [← Date.nth_add_one] at step
    unfold Before at ih step ⊢
    omega

/-- the hours, minutes, seconds and milliseconds of a time of day -/
def clock (r : Nat) : List Nat := [r / 3600000, r / 60000 % 60, r / 1000 % 60, r % 1000]

/-- the numbers of the text of a time -/
def isoValues (t : Int) : List Nat :=
  (Date.nth (t / 86400000)).year.toNat :: (Date.nth (t / 86400000)).month :: (Date.nth (t / 86400000)).day ::
    clock (t % 86400000).toNat

/-- the year has four digits at most and no sign -/
abbrev Writable (t : Int) : Prop := 0 ≤ (Date.nth (t / 86400000)).year ∧ (Date.nth (t / 86400000)).year ≤ 9999

variable {t t' : Int}

theorem holds_isoValues (writable : Writable t) : Forall₂ Holds isoFormat (isoValues t) := by
  have month := (Date.nth (t / 86400000)).month_le
  have day := (Date.nth (t / 86400000)).day_le.trans (monthLength_le _ _)
  have below : (t % 86400000).toNat < 86400000 := by omega
  simp only [isoFormat, isoValues, clock, Holds, forall₂_cons, Forall₂.nil, and_true]
  omega

theorem clock_lt {r r' : Nat} (less : r < r') : clock r < clock r' := by
  simp only [clock, cons_lt_cons_iff]
  omega

theorem isoValues_lt (writable : Writable t) (less : t < t') : isoValues t < isoValues t' := by
  have days : t / 86400000 ≤ t' / 86400000 := by omega
  simp only [isoValues, cons_lt_cons_iff]
  -- the calendar decides, or on one day the clock
  rcases days.lt_or_eq with earlier | same
  · rcases before_of_lt earlier with year | ⟨year, month | ⟨month, day⟩⟩
    · exact .inl (by omega)
    · exact .inr ⟨by rw [year], .inl month⟩
    · exact .inr ⟨by rw [year], .inr ⟨month, .inl day⟩⟩
  · rw [same]
    exact .inr ⟨rfl, .inr ⟨rfl, .inr ⟨rfl, clock_lt (by omega)⟩⟩⟩

theorem toIso_eq (valid : t.natAbs ≤ maxDateMs) :
    toIso t = some (if Writable t then some (fields isoFormat (isoValues t)) else none) := by
  have month := Nat.sub_add_cancel (Date.nth (t / 86400000)).month_pos
  obtain ⟨r, isR⟩ := Int.eq_ofNat_of_zero_le (Int.emod_nonneg t (show 86400000 ≠ 0 by decide))
  simp only [toIso, decompose_eq (Int.ofNat_le.1 valid), Option.bind_eq_bind, Option.bind_some, month, isoValues, isR]
  split_ifs <;> rfl

/-- A time value has an ISO text exactly when its year is one of 0 to 9999. The texts compare as the times do. -/
theorem toIso_order :
    (∀ t : Int, t.natAbs ≤ maxDateMs → (toIso t).isSome ∧ ((∃ text, toIso t = some (some text)) ↔ Writable t)) ∧
    ∀ (t t' : Int) (text text' : List Char), t.natAbs ≤ maxDateMs → t'.natAbs ≤ maxDateMs → toIso t = some (some text) →
      toIso t' = some (some text') → (text < text' ↔ t < t') := by
  refine ⟨fun t valid => ?_, fun t t' text text' valid valid' has has' => ?_⟩
  · rw [toIso_eq valid]
    split_ifs with writable
    · simpa using writable
    · simpa using writable
  · rw [toIso_eq valid] at has
    rw [toIso_eq valid'] at has'
    split_ifs at has has' with writable writable'
    all_goals cases has <;> cases has'
    rw [fields_lt_iff (holds_isoValues writable) (holds_isoValues writable')]
    have rising : StrictMonoOn isoValues {t | Writable t} := fun _ first _ _ less => isoValues_lt first less
    exact rising.lt_iff_lt writable writable'

end Subscript.Runtime.Date
