import Mathlib.Data.List.Basic

/-! The keys of `Map` and `Set`: `runtime/src/assocops.rs` hashes, compares and stores the bits of a key slot by the
kind of the key. Float keys are compared with SameValueZero, string keys by their bytes. -/

namespace Subscript.Runtime

inductive KeyWidth where
  | one
  | two
  | four
  | eight

abbrev KeyWidth.bits : KeyWidth → Nat
  | .one => 8
  | .two => 16
  | .four => 32
  | .eight => 64

/-- `KeyKind`, with the key sizes that `shape_ok` admits -/
inductive KeyKind where
  | bits (width : KeyWidth)
  | f32
  | f64
  | str
  | ref

/-- what a key slot holds; a string handle is the bytes it names, or null -/
abbrev KeySlot : KeyKind → Type
  | .bits width => BitVec width.bits
  | .f32 => BitVec 32
  | .f64 => BitVec 64
  | .str => Option (List UInt8)
  | .ref => BitVec 64

/-! ### IEEE bits -/

/-- the bits of infinity, which the NaNs lie above, and the NaN that stands for all of them -/
structure FloatFormat (w : Nat) where
  infinity : BitVec w
  canonicalNan : BitVec w
  canonical : infinity < canonicalNan &&& BitVec.allOnes w >>> 1

namespace FloatFormat

variable {w : Nat} (format : FloatFormat w)

/-- the bits without the sign -/
def magnitude (x : BitVec w) : BitVec w := x &&& BitVec.allOnes w >>> 1

def isNan (x : BitVec w) : Bool := format.infinity < magnitude x

def isZero (x : BitVec w) : Bool := magnitude x = 0

/-- `==` of floats -/
def equal (x y : BitVec w) : Bool := !format.isNan x && !format.isNan y && (x = y || isZero x && isZero y)

/-- `f32_key_bits` and `f64_key_bits` -/
def keyBits (x : BitVec w) : BitVec w :=
  if format.equal x 0 then 0 else if format.isNan x then format.canonicalNan else x

/-- `a == b || (a.is_nan() && b.is_nan())` -/
def keysEqual (x y : BitVec w) : Bool := format.equal x y || format.isNan x && format.isNan y

variable {format} {x y : BitVec w}

theorem isNan_canonicalNan : format.isNan format.canonicalNan = true := decide_eq_true format.canonical

theorem isNan_of_isZero (h : isZero x = true) : format.isNan x = false := by
  have hzero : magnitude x = 0 := of_decide_eq_true h
  rw [isNan, hzero]
  exact decide_eq_false BitVec.not_lt_zero

theorem keyBits_of_isNan (h : format.isNan x = true) : format.keyBits x = format.canonicalNan := by
  simp [keyBits, equal, h]

theorem isZero_zero : isZero (0 : BitVec w) = true := decide_eq_true BitVec.zero_and

theorem equal_zero : format.equal x 0 = isZero x := by
  rw [equal, isNan_of_isZero isZero_zero, isZero_zero]
  cases hzero : isZero x with
  | true => simp [isNan_of_isZero hzero]
  | false =>
    have hne : x ≠ 0 := by
      rintro rfl
      exact absurd (hzero.symm.trans isZero_zero) nofun
    rw [decide_eq_false hne, Bool.false_and, Bool.or_self, Bool.and_false]

theorem keyBits_of_isZero (h : isZero x = true) : format.keyBits x = 0 := by
  rw [keyBits, equal_zero, if_pos h]

theorem keyBits_of_not (hnan : format.isNan x = false) (hzero : isZero x = false) : format.keyBits x = x := by
  rw [keyBits, equal_zero, hzero, hnan]
  rfl

/-- a NaN stays one, and nothing else becomes one -/
theorem isNan_keyBits : format.isNan (format.keyBits x) = format.isNan x := by
  cases hnan : format.isNan x with
  | true => rw [keyBits_of_isNan hnan, isNan_canonicalNan]
  | false =>
    cases hzero : isZero x with
    | true => rw [keyBits_of_isZero hzero, isNan_of_isZero isZero_zero]
    | false => rw [keyBits_of_not hnan hzero, hnan]

theorem isZero_keyBits : isZero (format.keyBits x) = isZero x := by
  cases hzero : isZero x with
  | true => rw [keyBits_of_isZero hzero, isZero_zero]
  | false =>
    cases hnan : format.isNan x with
    | true =>
      rw [keyBits_of_isNan hnan]
      cases hcanonical : isZero format.canonicalNan with
      | true => exact isNan_canonicalNan.symm.trans (isNan_of_isZero hcanonical)
      | false => rfl
    | false => rw [keyBits_of_not hnan hzero, hzero]

theorem keyBits_keyBits : format.keyBits (format.keyBits x) = format.keyBits x := by
  cases hnan : format.isNan x with
  | true => rw [keyBits_of_isNan (isNan_keyBits.trans hnan), keyBits_of_isNan hnan]
  | false =>
    cases hzero : isZero x with
    | true => rw [keyBits_of_isZero (isZero_keyBits.trans hzero), keyBits_of_isZero hzero]
    | false => rw [keyBits_of_not (isNan_keyBits.trans hnan) (isZero_keyBits.trans hzero)]

/-- the stored bits are the same for just the keys that are compared as equal -/
theorem keyBits_eq_iff : format.keyBits x = format.keyBits y ↔ format.keysEqual x y = true := by
  constructor
  · intro h
    have hnan : format.isNan x = format.isNan y := by rw [← isNan_keyBits, h, isNan_keyBits]
    have hkept : isZero (format.keyBits x) = isZero x := isZero_keyBits
    have hzero : isZero x = isZero y := by rw [← hkept, h, isZero_keyBits]
    cases hx : format.isNan y with
    | true => simp [keysEqual, hnan, hx]
    | false =>
      cases hz : isZero y with
      | true => simp [keysEqual, equal, hnan, hx, hzero, hz]
      | false =>
        rw [keyBits_of_not hx hz, keyBits_of_not (hnan.trans hx) (hzero.trans hz)] at h
        simp [keysEqual, equal, hx, h]
  · intro h
    simp only [keysEqual, equal, Bool.or_eq_true, Bool.and_eq_true, decide_eq_true_eq] at h
    rcases h with ⟨-, rfl | ⟨hx, hy⟩⟩ | ⟨hx, hy⟩
    · rfl
    · rw [keyBits_of_isZero hx, keyBits_of_isZero hy]
    · rw [keyBits_of_isNan hx, keyBits_of_isNan hy]

end FloatFormat

def f32Format : FloatFormat 32 := ⟨0x7f800000, 0x7fc00000, by decide⟩

def f64Format : FloatFormat 64 := ⟨0x7ff0000000000000, 0x7ff8000000000000, by decide⟩

/-! ### Keys -/

def mix64 (value : UInt64) : UInt64 :=
  let value := value ^^^ value >>> 33
  let value := value * 0xff51afd7ed558ccd
  let value := value ^^^ value >>> 33
  let value := value * 0xc4ceb9fe1a85ec53
  value ^^^ value >>> 33

def fnv1a (bytes : List UInt8) : UInt64 :=
  bytes.foldl (fun hash byte => (hash ^^^ byte.toUInt64) * 0x00000100000001b3) 0xcbf29ce484222325

/-- `read_uint`: the bits zero-extended -/
def readUint {w : Nat} (key : BitVec w) : UInt64 := UInt64.ofBitVec (key.setWidth 64)

def hashKey : (kind : KeyKind) → KeySlot kind → UInt64
  | .bits _, key => mix64 (readUint key)
  | .f32, key => mix64 (readUint (f32Format.keyBits key))
  | .f64, key => mix64 (readUint (f64Format.keyBits key))
  | .str, none => mix64 0
  | .str, some bytes => fnv1a bytes
  | .ref, key => mix64 (readUint key)

def keysEqual : (kind : KeyKind) → KeySlot kind → KeySlot kind → Bool
  | .bits _, left, right => readUint left = readUint right
  | .f32, left, right => f32Format.keysEqual left right
  | .f64, left, right => f64Format.keysEqual left right
  | .str, some left, some right => left = right
  | .str, left, right => left.isNone && right.isNone
  | .ref, left, right => readUint left = readUint right

/-- `copy_stored_key` -/
def storedKey : (kind : KeyKind) → KeySlot kind → KeySlot kind
  | .bits _, key => key
  | .f32, key => f32Format.keyBits key
  | .f64, key => f64Format.keyBits key
  | .str, key => key
  | .ref, key => key

/-- the equality of keys that scripts see: the same bits or text, with one zero and one NaN -/
def sameValueZero : (kind : KeyKind) → KeySlot kind → KeySlot kind → Bool
  | .bits _, left, right => left = right
  | .f32, left, right => left = right || FloatFormat.isZero left && FloatFormat.isZero right ||
      f32Format.isNan left && f32Format.isNan right
  | .f64, left, right => left = right || FloatFormat.isZero left && FloatFormat.isZero right ||
      f64Format.isNan left && f64Format.isNan right
  | .str, left, right => left = right
  | .ref, left, right => left = right

theorem readUint_inj {w : Nat} (hw : w ≤ 64) {x y : BitVec w} : readUint x = readUint y ↔ x = y := by
  constructor
  · intro h
    have h := congrArg UInt64.toBitVec h
    have hx : (x.setWidth 64).setWidth w = x := by rw [BitVec.setWidth_setWidth_of_le x hw, BitVec.setWidth_eq]
    have hy : (y.setWidth 64).setWidth w = y := by rw [BitVec.setWidth_setWidth_of_le y hw, BitVec.setWidth_eq]
    rw [← hx, ← hy]
    exact congrArg (BitVec.setWidth w) h
  · rintro rfl
    rfl

theorem KeyWidth.bits_le : (width : KeyWidth) → width.bits ≤ 64
  | .one => by decide
  | .two => by decide
  | .four => by decide
  | .eight => by decide

theorem FloatFormat.keysEqual_eq {w : Nat} (format : FloatFormat w) (x y : BitVec w) :
    format.keysEqual x y = (x = y || isZero x && isZero y || format.isNan x && format.isNan y) := by
  cases hx : format.isNan x <;> cases hy : format.isNan y
  · simp [keysEqual, equal, hx, hy]
  · have hne : x ≠ y := by
      rintro rfl
      exact absurd (hx.symm.trans hy) nofun
    have hzero : isZero y = false := by
      cases hz : isZero y with
      | true => exact hy.symm.trans (isNan_of_isZero hz)
      | false => rfl
    simp [keysEqual, equal, hx, hy, hne, hzero]
  · have hne : x ≠ y := by
      rintro rfl
      exact absurd (hx.symm.trans hy) nofun
    have hzero : isZero x = false := by
      cases hz : isZero x with
      | true => exact hx.symm.trans (isNan_of_isZero hz)
      | false => rfl
    simp [keysEqual, equal, hx, hy, hne, hzero]
  · simp [keysEqual, equal, hx, hy]

theorem keysEqual_eq_sameValueZero (kind : KeyKind) (left right : KeySlot kind) :
    keysEqual kind left right = sameValueZero kind left right := by
  cases kind with
  | bits width => exact decide_eq_decide.mpr (readUint_inj width.bits_le)
  | f32 => exact f32Format.keysEqual_eq left right
  | f64 => exact f64Format.keysEqual_eq left right
  | str => cases left <;> cases right <;> simp [keysEqual, sameValueZero]
  | ref => exact decide_eq_decide.mpr (readUint_inj (Nat.le_refl 64))

/-- the stored keys are one representative of each class of equal keys -/
theorem storedKey_eq_iff (kind : KeyKind) (left right : KeySlot kind) :
    storedKey kind left = storedKey kind right ↔ keysEqual kind left right = true := by
  cases kind with
  | bits width => exact (readUint_inj width.bits_le).symm.trans (decide_eq_true_iff).symm
  | f32 => exact FloatFormat.keyBits_eq_iff
  | f64 => exact FloatFormat.keyBits_eq_iff
  | str => cases left <;> cases right <;> simp [keysEqual, storedKey]
  | ref => exact (readUint_inj (Nat.le_refl 64)).symm.trans (decide_eq_true_iff).symm

theorem storedKey_storedKey (kind : KeyKind) (key : KeySlot kind) :
    storedKey kind (storedKey kind key) = storedKey kind key := by
  cases kind with
  | bits width => rfl
  | f32 => exact FloatFormat.keyBits_keyBits
  | f64 => exact FloatFormat.keyBits_keyBits
  | str => rfl
  | ref => rfl

theorem hashKey_storedKey (kind : KeyKind) (key : KeySlot kind) : hashKey kind (storedKey kind key) = hashKey kind key := by
  cases kind with
  | bits width => rfl
  | f32 => exact congrArg (mix64 ∘ readUint) FloatFormat.keyBits_keyBits
  | f64 => exact congrArg (mix64 ∘ readUint) FloatFormat.keyBits_keyBits
  | str => rfl
  | ref => rfl

/-- keys that are equal have the same hash -/
theorem hashKey_of_keysEqual {kind : KeyKind} {left right : KeySlot kind} (h : keysEqual kind left right = true) :
    hashKey kind left = hashKey kind right := by
  rw [← hashKey_storedKey, (storedKey_eq_iff kind left right).mpr h, hashKey_storedKey]

end Subscript.Runtime
