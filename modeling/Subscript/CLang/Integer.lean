import Mathlib.Data.Int.ModEq
import Mathlib.Algebra.Order.Ring.Int

/-! Integer expressions of C11 on a platform with 32-bit `int`, two's complement, wrapping signed overflow and
arithmetic right shifts. -/

namespace CLang

inductive IntTy where
  | i8 | u8 | i16 | u16 | i32 | u32 | i64 | u64
  deriving DecidableEq

namespace IntTy

def bits : IntTy → ℕ
  | i8 | u8 => 8
  | i16 | u16 => 16
  | i32 | u32 => 32
  | i64 | u64 => 64

def signed : IntTy → Bool
  | i8 | i16 | i32 | i64 => true
  | u8 | u16 | u32 | u64 => false

/-- the unsigned type of the same width -/
def carrier : IntTy → IntTy
  | i8 | u8 => u8
  | i16 | u16 => u16
  | i32 | u32 => u32
  | i64 | u64 => u64

/-- integer promotion -/
def promote (ty : IntTy) : IntTy := if ty.bits < 32 then i32 else ty

/-- the usual arithmetic conversions -/
def common (a b : IntTy) : IntTy :=
  let a := a.promote
  let b := b.promote
  if a.signed = b.signed then if a.bits < b.bits then b else a
  else if a.signed then if b.bits < a.bits then a else b
  else if a.bits < b.bits then b else a

/-- the values of the type -/
def InRange (ty : IntTy) (x : ℤ) : Prop :=
  if ty.signed then -(2 ^ (ty.bits - 1)) ≤ x ∧ x < 2 ^ (ty.bits - 1) else 0 ≤ x ∧ x < 2 ^ ty.bits

instance (ty : IntTy) (x : ℤ) : Decidable (ty.InRange x) :=
  inferInstanceAs (Decidable (if ty.signed then _ else _))

/-- conversion to the type -/
def wrap (ty : IntTy) (z : ℤ) : ℤ := if ty.signed then z.bmod (2 ^ ty.bits) else z % 2 ^ ty.bits

/-- the bit pattern of a value -/
def pattern (ty : IntTy) (z : ℤ) : ℕ := (z % 2 ^ ty.bits).toNat

end IntTy

inductive BinOp where
  | add | sub | mul | div | rem | and | or | xor | shl | shr | eq | ne | lt | le | gt | ge

inductive Expr where
  | value (ty : IntTy) (x : ℤ)
  | cast (ty : IntTy) (e : Expr)
  | neg (e : Expr)
  | compl (e : Expr)
  | binary (op : BinOp) (l r : Expr)
  | cond (c t e : Expr)

/-- an operator on two values of one promoted type -/
def arith (op : BinOp) (ty : IntTy) (a b : ℤ) : ℤ :=
  match op with
  | .add => ty.wrap (a + b)
  | .sub => ty.wrap (a - b)
  | .mul => ty.wrap (a * b)
  | .div => ty.wrap (a.tdiv b)
  | .rem => ty.wrap (a.tmod b)
  | .and => ty.wrap (ty.pattern a &&& ty.pattern b : ℕ)
  | .or => ty.wrap (ty.pattern a ||| ty.pattern b : ℕ)
  | .xor => ty.wrap (ty.pattern a ^^^ ty.pattern b : ℕ)
  | .shl => ty.wrap (a * 2 ^ b.toNat)
  | .shr => ty.wrap (a / 2 ^ b.toNat)
  | .eq => if a = b then 1 else 0
  | .ne => if a ≠ b then 1 else 0
  | .lt => if a < b then 1 else 0
  | .le => if a ≤ b then 1 else 0
  | .gt => if b < a then 1 else 0
  | .ge => if b ≤ a then 1 else 0

/-- the type and the value of an expression -/
def Expr.eval : Expr → IntTy × ℤ
  | value ty x => (ty, x)
  | cast ty e => (ty, ty.wrap e.eval.2)
  | neg e => (e.eval.1.promote, e.eval.1.promote.wrap (-e.eval.2))
  | compl e => (e.eval.1.promote, e.eval.1.promote.wrap (-e.eval.2 - 1))
  | cond c t e =>
    let ty := t.eval.1.common e.eval.1
    (ty, ty.wrap (if c.eval.2 ≠ 0 then t.eval.2 else e.eval.2))
  | binary op l r =>
    let ty := l.eval.1.common r.eval.1
    match op with
    | .shl | .shr => (l.eval.1.promote, arith op l.eval.1.promote l.eval.2 r.eval.2)
    | .eq | .ne | .lt | .le | .gt | .ge => (.i32, arith op ty (ty.wrap l.eval.2) (ty.wrap r.eval.2))
    | _ => (ty, arith op ty (ty.wrap l.eval.2) (ty.wrap r.eval.2))

namespace IntTy

variable {ty ty' : IntTy} {x y z : ℤ}

theorem wrap_modEq (ty : IntTy) (z : ℤ) : ty.wrap z ≡ z [ZMOD 2 ^ ty.bits] := by
  unfold wrap
  split
  · have h := Int.bmod_emod (x := z) (m := 2 ^ ty.bits)
    simpa [Int.ModEq] using h
  · exact Int.mod_modEq z _

theorem wrap_congr (h : x ≡ y [ZMOD 2 ^ ty.bits]) : ty.wrap x = ty.wrap y := by
  unfold wrap
  split
  · rw [← Int.emod_bmod, ← Int.emod_bmod (x := y)]
    simp only [Nat.cast_pow, Nat.cast_ofNat]
    rw [h]
  · exact h

theorem wrap_of_inRange (h : ty.InRange x) : ty.wrap x = x := by
  cases ty <;> simp [InRange, wrap, signed, bits, Int.bmod] at h ⊢ <;> omega

/-- a wider type keeps what a narrower one reads -/
theorem wrap_modEq_of_le (h : ty.bits ≤ ty'.bits) (z : ℤ) : ty'.wrap z ≡ z [ZMOD 2 ^ ty.bits] :=
  (ty'.wrap_modEq z).of_dvd (pow_dvd_pow 2 h)

theorem pattern_modEq_of_le (h : ty.bits ≤ ty'.bits) (z : ℤ) : (ty'.pattern z : ℤ) % 2 ^ ty.bits = z % 2 ^ ty.bits := by
  rw [pattern, Int.toNat_of_nonneg (Int.emod_nonneg _ (pow_ne_zero _ two_ne_zero))]
  exact Int.emod_emod_of_dvd z (pow_dvd_pow 2 h)

end IntTy

end CLang
