import Mathlib.Data.List.Basic

/-! A few readers for printed texts: each gives what it read and the rest of the text. -/

namespace Text

variable {w r : List Char} {p : Char → Bool}

abbrev Reader (α : Type) := List Char → Option (α × List Char)

/-- the longest prefix of characters of one kind -/
def readWhile (p : Char → Bool) (cs : List Char) : List Char × List Char :=
  (cs.takeWhile p, cs.dropWhile p)

/-- a fixed text -/
def expect : List Char → List Char → Option (List Char)
  | [], cs => some cs
  | _ :: _, [] => none
  | e :: es, c :: cs => if e = c then expect es cs else none

def readNat (cs : List Char) : Nat × List Char :=
  (Nat.ofDigitChars 10 (cs.takeWhile Char.isDigit) 0, cs.dropWhile Char.isDigit)

/-- the text does not go on with a character of the kind -/
def Stops (p : Char → Bool) (r : List Char) : Prop := r.head?.any p = false

instance : Decidable (Stops p r) := inferInstanceAs (Decidable (_ = false))

theorem Stops.nil : Stops p [] := rfl

theorem Stops.cons {c : Char} (h : p c = false) : Stops p (c :: r) := h

theorem takeWhile_of_stops (h : Stops p r) : r.takeWhile p = [] ∧ r.dropWhile p = r := by
  cases r with
  | nil => exact ⟨rfl, rfl⟩
  | cons c r =>
    have hc : p c = false := h
    simp [hc]

theorem readWhile_append (hw : ∀ c ∈ w, p c = true) (hr : Stops p r) : readWhile p (w ++ r) = (w, r) := by
  obtain ⟨htake, hdrop⟩ := takeWhile_of_stops hr
  rw [readWhile, List.takeWhile_append_of_pos hw, List.dropWhile_append_of_pos hw, htake, hdrop,
    List.append_nil]

@[simp]
theorem expect_append : expect w (w ++ r) = some r := by
  induction w with
  | nil => rfl
  | cons c w ih => simpa [expect] using ih

theorem readNat_digits {n : Nat} (hr : Stops Char.isDigit r) :
    readNat (Nat.toDigits 10 n ++ r) = (n, r) := by
  have hw : ∀ c ∈ Nat.toDigits 10 n, c.isDigit = true := fun c hc =>
    Nat.isDigit_of_mem_toDigits (by omega) (by omega) hc
  obtain ⟨htake, hdrop⟩ := Prod.mk.inj (readWhile_append hw hr)
  rw [readNat, htake, hdrop, Nat.ofDigitChars_ten_toDigits]

end Text
