import Mathlib.Data.List.Basic
import Mathlib.Tactic.Ring

/-! Little-endian words of eight bytes in a row of bytes. -/

namespace Words

open List

/-- the last `k` bytes of a number, lowest first -/
def leBytes : Nat → Nat → List UInt8
  | 0, _ => []
  | k + 1, n => UInt8.ofNat n :: leBytes k (n / 256)

def ofLe : List UInt8 → Nat
  | [] => 0
  | b :: rest => b.toNat + 256 * ofLe rest

/-- the word at an offset -/
def load (bytes : List UInt8) (offset : Nat) : Nat := ofLe ((bytes.drop offset).take 8)

def store (bytes : List UInt8) (offset word : Nat) : List UInt8 :=
  bytes.take offset ++ leBytes 8 word ++ bytes.drop (offset + 8)

@[simp]
theorem length_leBytes (k n : Nat) : (leBytes k n).length = k := by
  induction k generalizing n with
  | zero => rfl
  | succ k ih => rw [leBytes, length_cons, ih]

theorem getElem?_leBytes (k n i : Nat) :
    (leBytes k n)[i]? = if i < k then some (UInt8.ofNat (n / 256 ^ i)) else none := by
  induction k generalizing n i with
  | zero => rfl
  | succ k ih =>
    cases i with
    | zero => rw [leBytes, getElem?_cons_zero, if_pos (Nat.succ_pos _), Nat.pow_zero, Nat.div_one]
    | succ i =>
      rw [leBytes, getElem?_cons_succ, ih, Nat.div_div_eq_div_mul, ← Nat.pow_succ']
      simp only [Nat.add_lt_add_iff_right]

theorem ofLe_leBytes (k n : Nat) : ofLe (leBytes k n) = n % 256 ^ k := by
  induction k generalizing n with
  | zero => rw [leBytes, ofLe, Nat.pow_zero, Nat.mod_one]
  | succ k ih =>
    have low : (UInt8.ofNat n).toNat = n % 256 := UInt8.toNat_ofNat
    rw [leBytes, ofLe, ih, low, Nat.pow_succ, Nat.mul_comm (256 ^ k), Nat.mod_mul]

theorem ofLe_append (first second : List UInt8) :
    ofLe (first ++ second) = ofLe first + 256 ^ first.length * ofLe second := by
  induction first with
  | nil => rw [nil_append, ofLe, length_nil, Nat.pow_zero]; omega
  | cons b rest ih =>
    rw [cons_append, ofLe, ofLe, ih, length_cons, Nat.pow_succ]
    ring

variable {bytes : List UInt8} {offset word : Nat}

@[simp]
theorem length_store (within : offset + 8 ≤ bytes.length) : (store bytes offset word).length = bytes.length := by
  simp only [store, length_append, length_take, length_leBytes, length_drop]
  omega

theorem getElem?_store (within : offset + 8 ≤ bytes.length) (i : Nat) :
    (store bytes offset word)[i]? =
      if offset ≤ i ∧ i < offset + 8 then (leBytes 8 word)[i - offset]? else bytes[i]? := by
  have first : (bytes.take offset).length = offset := length_take_of_le (by omega)
  have second : (bytes.take offset ++ leBytes 8 word).length = offset + 8 := by
    rw [length_append, first, length_leBytes]
  unfold store
  by_cases before : i < offset
  · rw [if_neg (by omega), append_assoc, getElem?_append_left (by omega), getElem?_take_of_lt before]
  · by_cases mid : i < offset + 8
    · rw [if_pos (by omega), getElem?_append_left (by omega), getElem?_append_right (by omega), first]
    · rw [if_neg (by omega), getElem?_append_right (by omega), second, getElem?_drop]
      congr 1
      omega

/-- a load reads eight bytes -/
theorem load_congr {other : List UInt8} (same : ∀ i, offset ≤ i → i < offset + 8 → bytes[i]? = other[i]?) :
    load bytes offset = load other offset := by
  refine congrArg ofLe (ext_getElem? fun i => ?_)
  rw [getElem?_take, getElem?_take, getElem?_drop, getElem?_drop]
  split
  · exact same (offset + i) (by omega) (by omega)
  · rfl

theorem load_store_same (within : offset + 8 ≤ bytes.length) (small : word < 256 ^ 8) :
    load (store bytes offset word) offset = word := by
  have first : (bytes.take offset).length = offset := length_take_of_le (by omega)
  unfold load store
  rw [append_assoc, drop_append_of_le_length (by omega), drop_eq_nil_of_le (by omega), nil_append,
    take_append_of_le_length (by rw [length_leBytes]), take_of_length_le (by rw [length_leBytes]), ofLe_leBytes,
    Nat.mod_eq_of_lt small]

/-- a store that begins inside a word leaves its first bytes -/
theorem load_store_inside {k word' : Nat} (inside : k < 8) (within : offset + k + 8 ≤ bytes.length)
    (small : word < 256 ^ k) (small' : word' < 256 ^ (8 - k)) :
    load (store (store bytes offset word) (offset + k) word') offset = word + 256 ^ k * word' := by
  have within' : offset + k + 8 ≤ (store bytes offset word).length := by rwa [length_store (by omega)]
  have taken : ((store (store bytes offset word) (offset + k) word').drop offset).take 8 =
      leBytes k word ++ leBytes (8 - k) word' := by
    refine ext_getElem? fun i => ?_
    rw [getElem?_take, getElem?_drop, getElem?_store within', getElem?_store (by omega)]
    by_cases outside : i < 8
    · rw [if_pos outside]
      by_cases first : i < k
      · rw [if_neg (by omega), if_pos (by omega), Nat.add_sub_cancel_left,
          getElem?_append_left (by rwa [length_leBytes]), getElem?_leBytes, getElem?_leBytes, if_pos outside,
          if_pos first]
      · have shift : offset + i - (offset + k) = i - k := by omega
        rw [if_pos (by omega), shift, getElem?_append_right (by rw [length_leBytes]; omega), length_leBytes,
          getElem?_leBytes, getElem?_leBytes, if_pos (by omega), if_pos (by omega)]
    · rw [if_neg outside, getElem?_eq_none]
      rw [length_append, length_leBytes, length_leBytes]
      omega
  rw [load, taken, ofLe_append, ofLe_leBytes, ofLe_leBytes, length_leBytes, Nat.mod_eq_of_lt small, Nat.mod_eq_of_lt small']

end Words
