import Mathlib.Algebra.Order.Group.Nat
import Mathlib.Data.Char
import Mathlib.Data.List.Lex

/-! Decimal fields of fixed widths: their texts compare as the numbers do. -/

namespace Text

open List

/-- a number with zeros in front, up to a width -/
def padded (width n : Nat) : List Char := (Nat.toDigits 10 n).leftpad width '0'

/-- numbers in a row, each with its width and the character behind it -/
def fields (format : List (Nat × Char)) (values : List Nat) : List Char :=
  (format.zip values).flatMap fun ((width, c), n) => padded width n ++ [c]

/-- a number that its width can hold -/
def Holds (field : Nat × Char) (n : Nat) : Prop := 0 < field.1 ∧ n < 10 ^ field.1

variable {width n m : Nat} {a b : List Char} {format : List (Nat × Char)} {values values' : List Nat}

theorem padded_succ (positive : 0 < width) : padded (width + 1) n = padded width (n / 10) ++ [(n % 10).digitChar] := by
  by_cases below : n < 10
  · have zero : Nat.toDigits 10 0 = ['0'] := rfl
    obtain ⟨k, rfl⟩ := Nat.exists_eq_succ_of_ne_zero positive.ne'
    rw [padded, padded, Nat.div_eq_of_lt below, Nat.mod_eq_of_lt below, Nat.toDigits_of_lt_base below, zero]
    simp [leftpad, replicate_succ']
  · rw [padded, padded, Nat.toDigits_of_base_le (by decide) (Nat.le_of_not_lt below)]
    simp [leftpad]

theorem digitChar_cons_lt_iff (hn : n < 10) (hm : m < 10) :
    n.digitChar :: a < m.digitChar :: b ↔ n < m ∨ n = m ∧ a < b := by
  have digits : ∀ n < 10, ∀ m < 10, (n.digitChar < m.digitChar ↔ n < m) ∧ (n.digitChar = m.digitChar ↔ n = m) := by decide
  rw [cons_lt_cons_iff, (digits n hn m hm).1, (digits n hn m hm).2]

/-- a number decides the comparison of the texts that begin with it -/
theorem padded_append_lt_iff (positive : 0 < width) (hn : n < 10 ^ width) (hm : m < 10 ^ width) :
    padded width n ++ a < padded width m ++ b ↔ n < m ∨ n = m ∧ a < b := by
  induction width, positive using Nat.le_induction generalizing n m a b with
  | base =>
    change n < 10 at hn
    change m < 10 at hm
    rw [padded, padded, Nat.toDigits_of_lt_base hn, Nat.toDigits_of_lt_base hm]
    exact digitChar_cons_lt_iff hn hm
  | succ width positive ih =>
    -- the last digit belongs to what stands behind the number without it
    have less : n < m ↔ n / 10 < m / 10 ∨ n / 10 = m / 10 ∧ n % 10 < m % 10 := by omega
    have same : n = m ↔ n / 10 = m / 10 ∧ n % 10 = m % 10 := by omega
    rw [padded_succ positive, padded_succ positive, append_assoc, append_assoc, ih (by omega) (by omega),
      singleton_append, singleton_append, digitChar_cons_lt_iff (Nat.mod_lt _ (by decide)) (Nat.mod_lt _ (by decide)),
      less, same]
    tauto

theorem fields_lt_iff (holds : Forall₂ Holds format values) (holds' : Forall₂ Holds format values') :
    fields format values < fields format values' ↔ values < values' := by
  induction holds generalizing values' with
  | nil => cases holds'; simp [fields]
  | @cons field n format values first _ ih =>
    obtain _ | ⟨first', rest'⟩ := holds'
    have parts := ih rest'
    simp only [fields, zip_cons_cons, flatMap_cons, append_assoc] at parts ⊢
    rw [padded_append_lt_iff first.1 first.2 first'.2, singleton_append, singleton_append, cons_lt_cons_self, parts,
      cons_lt_cons_iff]

end Text
