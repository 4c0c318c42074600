import Subscript.CLang.Integer
import Subscript.Lir.Syntax
import Subscript.Numeric.Round

/-! Integer operators and conversions: the reference interpreter (`interpreter/operations.rs`) computes in 64 bits
and truncates, the C emitter (`cemit/arith.rs`) writes an expression of C. -/

namespace Subscript.Interpreter

open CLang

/-- an integer value of the interpreter: an `i64` or a `u64` -/
inductive Value where
  | I (v : BitVec 64)
  | U (v : BitVec 64)

/-- `as_u64`; `as_i64` reads the same bits as signed -/
def Value.bits : Value → BitVec 64
  | I v | U v => v

def Value.toInt : Value → ℤ
  | I v => v.toInt
  | U v => v.toNat

/-- how the interpreter holds a value of the type -/
def Value.of (ty : IntTy) (x : ℤ) : Value := if ty.signed then I (.ofInt 64 x) else U (.ofInt 64 x)

def maskBits (value : BitVec 64) (bits : ℕ) : BitVec 64 :=
  if bits = 64 then value else value &&& ((1#64 <<< bits) - 1)

def signExtend (value : BitVec 64) (bits : ℕ) : BitVec 64 :=
  if bits = 64 then value else (value <<< (64 - bits)).sshiftRight (64 - bits)

def integerResult (ty : IntTy) (value : BitVec 64) : Value :=
  let value := maskBits value ty.bits
  if ty.signed then .I (signExtend value ty.bits) else .U value

inductive Outcome where
  | int (x : ℤ)
  | bool (b : Bool)
  /-- the exact value of a float; a rounded integer is one -/
  | float (x : ℤ)
  | trap
  deriving DecidableEq

def isDivision (op : Lir.BinaryOp) : Bool := op = .div ∨ op = .rem

/-- the integer arithmetic of `binary` -/
def binaryBits (op : Lir.BinaryOp) (ty : IntTy) (a b : BitVec 64) : BitVec 64 :=
  let shift := (b &&& .ofNat 64 (ty.bits - 1)).toNat
  match op with
  | .add => a + b
  | .sub => a - b
  | .mul => a * b
  | .div => if ty.signed then (signExtend a ty.bits).sdiv (signExtend b ty.bits) else a / b
  | .rem => if ty.signed then (signExtend a ty.bits).srem (signExtend b ty.bits) else a % b
  | .bitAnd => a &&& b
  | .bitOr => a ||| b
  | .bitXor => a ^^^ b
  | .shl => a <<< shift
  | .shr => if ty.signed then (signExtend a ty.bits).sshiftRight shift else maskBits a ty.bits >>> shift
  | .uShr => maskBits a ty.bits >>> shift
  -- answered before
  | .eq | .ne | .lt | .le | .gt | .ge => 0

/-- `compare_i64` and `compare_u64` -/
def compare (op : Lir.BinaryOp) (a b : ℤ) : Bool :=
  match op with
  | .lt => a < b
  | .le => a ≤ b
  | .gt => b < a
  | .ge => b ≤ a
  | _ => false

/-- two `i64` are ordered as signed, anything else as unsigned -/
def order (op : Lir.BinaryOp) : Value → Value → Bool
  | .I a, .I b => compare op a.toInt b.toInt
  | left, right => compare op left.bits.toNat right.bits.toNat

def binary (op : Lir.BinaryOp) (ty : IntTy) (left right : Value) : Outcome :=
  if isDivision op ∧ right.bits = 0 then .trap
  else
    match op with
    | .eq => .bool (left.bits = right.bits)
    | .ne => .bool (¬ left.bits = right.bits)
    | .lt | .le | .gt | .ge => .bool (order op left right)
    | op => .int (integerResult ty (binaryBits op ty left.bits right.bits)).toInt

/-- rounding to nearest even with `p` significant bits -/
def roundInt (p : ℕ) (x : ℤ) : ℤ := x.sign * Numeric.roundBits p x.natAbs

def Value.asF64 (v : Value) : ℤ := roundInt 53 v.toInt

/-- an operator or a conversion, with operands of its type -/
inductive Computation where
  | negate (ty : IntTy) (x : {x // ty.InRange x})
  | complement (ty : IntTy) (x : {x // ty.InRange x})
  | binary (op : Lir.BinaryOp) (ty : IntTy) (x y : {x // ty.InRange x})
  | toInteger (source target : IntTy) (x : {x // source.InRange x})
  | toF32 (source : IntTy) (x : {x // source.InRange x})
  | toF64 (source : IntTy) (x : {x // source.InRange x})

def interpret : Computation → Outcome
  | .negate ty x => .int (integerResult ty (-(Value.of ty x).bits)).toInt
  | .complement ty x => .int (integerResult ty (~~~(Value.of ty x).bits)).toInt
  | .binary op ty x y => binary op ty (.of ty x) (.of ty y)
  | .toInteger source target x => .int (integerResult target (Value.of source x).bits).toInt
  | .toF32 source x => .float (roundInt 24 (Value.of source x).asF64)
  | .toF64 source x => .float (Value.of source x).asF64

/-! What the C emitter writes. -/

def cOperator : Lir.BinaryOp → BinOp
  | .add => .add
  | .sub => .sub
  | .mul => .mul
  | .div => .div
  | .rem => .rem
  | .eq => .eq
  | .ne => .ne
  | .lt => .lt
  | .le => .le
  | .gt => .gt
  | .ge => .ge
  | .bitAnd => .and
  | .bitOr => .or
  | .bitXor => .xor
  | .shl => .shl
  | .shr | .uShr => .shr

def shiftExpression (op : Lir.BinaryOp) (ty : IntTy) (left right : Expr) : Expr :=
  let amount := .binary .and right (.value .u32 (ty.bits - 1))
  let carrier := if op = .shr then ty else ty.carrier
  .cast ty (.binary (cOperator op) (.cast carrier left) amount)

/-- `emit_binary`, behind the guard of a division -/
def emitBinary (op : Lir.BinaryOp) (ty : IntTy) (left right : Expr) : Expr :=
  let isMinusOne := .binary .eq right (.cast ty (.neg (.value .i32 1)))
  match op with
  | .div =>
    if ty.signed then
      .cond isMinusOne (.cast ty (.binary .sub (.value .i32 0) (.cast ty.carrier left))) (.cast ty (.binary .div left right))
    else .cast ty (.binary .div left right)
  | .rem =>
    if ty.signed then .cond isMinusOne (.cast ty (.value .i32 0)) (.cast ty (.binary .rem left right))
    else .cast ty (.binary .rem left right)
  | .shl | .shr | .uShr => shiftExpression op ty left right
  | .add | .sub | .mul => .cast ty (.binary (cOperator op) (.cast ty.carrier left) (.cast ty.carrier right))
  | op => .binary (cOperator op) left right

def isComparison (op : Lir.BinaryOp) : Bool := op ∈ [.eq, .ne, .lt, .le, .gt, .ge]

/-- the value that the destination variable of the type gets -/
def assigned (ty : IntTy) (e : Expr) : Outcome := .int (ty.wrap e.eval.2)

def emitted : Computation → Outcome
  | .negate ty x => assigned ty (.neg (.value ty x))
  | .complement ty x => assigned ty (.compl (.value ty x))
  | .binary op ty x y =>
    if isDivision op ∧ y.1 = 0 then .trap
    else if isComparison op then .bool ((emitBinary op ty (.value ty x) (.value ty y)).eval.2 ≠ 0)
    else assigned ty (emitBinary op ty (.value ty x) (.value ty y))
  | .toInteger source target x =>
    assigned target (if source = target then .value source x else .cast target (.value source x))
  | .toF32 _ x => .float (roundInt 24 x)
  | .toF64 _ x => .float (roundInt 53 x)

/-- a conversion to `f32` in which the detour over `f64` lands on a tie -/
def Computation.DoubleRounds : Computation → Prop
  | .toF32 _ x => Numeric.DoubleRounds 24 29 x.1.natAbs
  | _ => False

/-! The exact result, of which both sides keep the low bits. -/

def shiftAmount (ty : IntTy) (y : ℤ) : ℕ := (y % ty.bits).toNat

def exact (op : Lir.BinaryOp) (ty : IntTy) (x y : ℤ) : ℤ :=
  match op with
  | .add => x + y
  | .sub => x - y
  | .mul => x * y
  | .div => x.tdiv y
  | .rem => x.tmod y
  | .bitAnd => (ty.pattern x &&& ty.pattern y : ℕ)
  | .bitOr => (ty.pattern x ||| ty.pattern y : ℕ)
  | .bitXor => (ty.pattern x ^^^ ty.pattern y : ℕ)
  | .shl => x * 2 ^ shiftAmount ty y
  | .shr => x / 2 ^ shiftAmount ty y
  | .uShr => x % 2 ^ ty.bits / 2 ^ shiftAmount ty y
  | .eq | .ne | .lt | .le | .gt | .ge => 0

variable {ty : IntTy} {x y : ℤ} {op : Lir.BinaryOp}

theorem bits_le (ty : IntTy) : ty.bits ≤ 64 := by cases ty <;> decide

section Interpreter

theorem bits_of : (Value.of ty x).bits = .ofInt 64 x := by
  unfold Value.of
  split <;> rfl

theorem toNat_maskBits (ty : IntTy) (v : BitVec 64) : (maskBits v ty.bits).toNat = v.toNat % 2 ^ ty.bits := by
  unfold maskBits
  split
  · rename_i h
    rw [h]
    exact (Nat.mod_eq_of_lt v.isLt).symm
  · have mask : ((1#64 <<< ty.bits) - 1).toNat = 2 ^ ty.bits - 1 := by cases ty <;> rfl
    rw [BitVec.toNat_and, mask, Nat.and_two_pow_sub_one_eq_mod]

theorem toInt_signExtend (ty : IntTy) (v : BitVec 64) :
    (signExtend v ty.bits).toInt = (v.toNat : ℤ).bmod (2 ^ ty.bits) := by
  unfold signExtend
  split
  · rename_i h
    rw [h, BitVec.toInt_eq_toNat_bmod]
  · rw [BitVec.toInt_sshiftRight, BitVec.toInt_shiftLeft, Int.shiftRight_eq_div_pow, Nat.shiftLeft_eq]
    cases ty <;> simp [IntTy.bits, Int.bmod] at * <;> omega

theorem toInt_integerResult (ty : IntTy) (v : BitVec 64) : (integerResult ty v).toInt = ty.wrap v.toNat := by
  unfold integerResult IntTy.wrap
  cases ty.signed with
  | true =>
    simp only [Value.toInt, if_true, toInt_signExtend, toNat_maskBits]
    exact_mod_cast Int.emod_bmod (x := (v.toNat : ℤ)) (n := 2 ^ ty.bits)
  | false => simp [Value.toInt, toNat_maskBits]

/-- the bits of a value, read as any narrower integer -/
theorem ofInt_modEq (ty : IntTy) (x : ℤ) : ((BitVec.ofInt 64 x).toNat : ℤ) ≡ x [ZMOD 2 ^ ty.bits] := by
  have h : ((BitVec.ofInt 64 x).toNat : ℤ) ≡ x [ZMOD 2 ^ 64] := by
    rw [BitVec.toNat_ofInt, Int.toNat_of_nonneg (Int.emod_nonneg _ (by decide))]
    exact Int.mod_modEq x _
  exact h.of_dvd (pow_dvd_pow 2 (bits_le ty))

theorem bmod_modEq (ty : IntTy) (z : ℤ) : z.bmod (2 ^ 64) ≡ z [ZMOD 2 ^ ty.bits] := by
  have h : z.bmod (2 ^ 64) ≡ z [ZMOD 2 ^ 64] := Int.bmod_emod
  exact h.of_dvd (pow_dvd_pow 2 (bits_le ty))

theorem toNat_modEq_toInt (ty : IntTy) (v : BitVec 64) : (v.toNat : ℤ) ≡ v.toInt [ZMOD 2 ^ ty.bits] := by
  rw [BitVec.toInt_eq_toNat_bmod]
  exact (bmod_modEq ty _).symm

theorem signExtend_ofInt (hs : ty.signed = true) (hx : ty.InRange x) : (signExtend (.ofInt 64 x) ty.bits).toInt = x := by
  have h := IntTy.wrap_congr (ofInt_modEq ty x)
  rw [IntTy.wrap_of_inRange hx, IntTy.wrap, if_pos hs] at h
  rw [toInt_signExtend]
  exact h

theorem toNat_ofInt (hs : ty.signed = false) (hx : ty.InRange x) : ((BitVec.ofInt 64 x).toNat : ℤ) = x := by
  cases ty <;> simp [IntTy.InRange, IntTy.signed, IntTy.bits] at hs hx ⊢ <;> omega

theorem nonneg_of_inRange (hs : ty.signed = false) (hx : ty.InRange x) : 0 ≤ x := by
  rw [IntTy.InRange, hs] at hx
  exact hx.1

theorem toInt_of (hx : ty.InRange x) : (Value.of ty x).toInt = x := by
  unfold Value.of
  cases hs : ty.signed with
  | false => exact toNat_ofInt hs hx
  | true =>
    rw [if_pos rfl, Value.toInt, BitVec.toInt_ofInt]
    cases ty <;> simp [IntTy.InRange, IntTy.signed, IntTy.bits, Int.bmod] at hs hx ⊢ <;> omega

theorem shift_ofInt (ty : IntTy) (y : ℤ) :
    (BitVec.ofInt 64 y &&& .ofNat 64 (ty.bits - 1)).toNat = shiftAmount ty y := by
  unfold shiftAmount
  have h := ofInt_modEq ty y
  have low : ∀ k, (BitVec.ofInt 64 y).toNat &&& 2 ^ k - 1 = (BitVec.ofInt 64 y).toNat % 2 ^ k :=
    fun k => Nat.and_two_pow_sub_one_eq_mod _ k
  cases ty with
  | i8 | u8 =>
    have := low 3
    simp [IntTy.bits, Int.ModEq] at h this ⊢
    omega
  | i16 | u16 =>
    have := low 4
    simp [IntTy.bits, Int.ModEq] at h this ⊢
    omega
  | i32 | u32 =>
    have := low 5
    simp [IntTy.bits, Int.ModEq] at h this ⊢
    omega
  | i64 | u64 =>
    have := low 6
    simp [IntTy.bits, Int.ModEq] at h this ⊢
    omega

theorem toNat_mod_modEq (ty : IntTy) (n : ℕ) : ((n % 2 ^ 64 : ℕ) : ℤ) ≡ n [ZMOD 2 ^ ty.bits] := by
  have h : ((n % 2 ^ 64 : ℕ) : ℤ) ≡ n [ZMOD 2 ^ 64] := by
    push_cast
    exact Int.mod_modEq _ _
  exact h.of_dvd (pow_dvd_pow 2 (bits_le ty))

/-- a bitwise operator works on each bit by itself -/
theorem bitwise_modEq {f : ℕ → ℕ → ℕ} (hf : ∀ a b n, f a b % 2 ^ n = f (a % 2 ^ n) (b % 2 ^ n)) {a b : ℕ}
    (ha : (a : ℤ) ≡ x [ZMOD 2 ^ ty.bits]) (hb : (b : ℤ) ≡ y [ZMOD 2 ^ ty.bits]) :
    (f a b : ℤ) ≡ (f (ty.pattern x) (ty.pattern y) : ℕ) [ZMOD 2 ^ ty.bits] := by
  have pattern_eq {z : ℤ} {n : ℕ} (h : (n : ℤ) ≡ z [ZMOD 2 ^ ty.bits]) : ty.pattern z % 2 ^ ty.bits = n % 2 ^ ty.bits := by
    have := (IntTy.pattern_modEq_of_le (le_refl ty.bits) z).trans h.symm
    exact_mod_cast this
  have h : f a b % 2 ^ ty.bits = f (ty.pattern x) (ty.pattern y) % 2 ^ ty.bits := by
    rw [hf, hf (ty.pattern x), pattern_eq ha, pattern_eq hb]
  exact_mod_cast congrArg (Nat.cast : ℕ → ℤ) h

theorem binaryBits_modEq (hx : ty.InRange x) (hy : ty.InRange y) (hv : ¬ isComparison op) :
    ((binaryBits op ty (.ofInt 64 x) (.ofInt 64 y)).toNat : ℤ) ≡ exact op ty x y [ZMOD 2 ^ ty.bits] := by
  have ha := ofInt_modEq ty x
  have hb := ofInt_modEq ty y
  unfold binaryBits
  rw [shift_ofInt]
  cases op with
  | add =>
    simp only [← BitVec.ofInt_add]
    exact ofInt_modEq ty _
  | sub =>
    simp only [BitVec.sub_eq_add_neg, ← BitVec.ofInt_neg, ← BitVec.ofInt_add]
    exact ofInt_modEq ty _
  | mul =>
    simp only [← BitVec.ofInt_mul]
    exact ofInt_modEq ty _
  | div =>
    cases hs : ty.signed with
    | true =>
      refine (toNat_modEq_toInt ty _).trans ?_
      simp only [if_true, BitVec.toInt_sdiv, signExtend_ofInt hs hx, signExtend_ofInt hs hy, exact]
      exact bmod_modEq ty _
    | false =>
      simp only [exact, Bool.false_eq_true, if_false, BitVec.toNat_udiv, Int.natCast_ediv, toNat_ofInt hs hx,
        toNat_ofInt hs hy, Int.tdiv_eq_ediv_of_nonneg (nonneg_of_inRange hs hx)]
      rfl
  | rem =>
    cases hs : ty.signed with
    | true =>
      refine (toNat_modEq_toInt ty _).trans ?_
      simp only [if_true, BitVec.toInt_srem, signExtend_ofInt hs hx, signExtend_ofInt hs hy, exact]
      rfl
    | false =>
      simp only [exact, Bool.false_eq_true, if_false, BitVec.toNat_umod, Int.natCast_emod, toNat_ofInt hs hx,
        toNat_ofInt hs hy, Int.tmod_eq_emod_of_nonneg (nonneg_of_inRange hs hx)]
      rfl
  | bitAnd =>
    exact bitwise_modEq (fun _ _ _ => Nat.and_mod_two_pow) ha hb
  | bitOr =>
    exact bitwise_modEq (fun _ _ _ => Nat.or_mod_two_pow) ha hb
  | bitXor =>
    exact bitwise_modEq (fun _ _ _ => Nat.xor_mod_two_pow) ha hb
  | shl =>
    rw [BitVec.toNat_shiftLeft, Nat.shiftLeft_eq]
    refine (toNat_mod_modEq ty _).trans ?_
    push_cast
    exact ha.mul_right _
  | shr =>
    cases hs : ty.signed with
    | true =>
      refine (toNat_modEq_toInt ty _).trans ?_
      simp only [if_true, BitVec.toInt_sshiftRight, signExtend_ofInt hs hx, exact, Int.shiftRight_eq_div_pow]
      exact_mod_cast Int.ModEq.refl _
    | false =>
      simp only [exact, Bool.false_eq_true, if_false, BitVec.toNat_ushiftRight, Nat.shiftRight_eq_div_pow, toNat_maskBits]
      push_cast
      rw [IntTy.InRange, hs] at hx
      rw [toNat_ofInt hs (by rwa [IntTy.InRange, hs]), Int.emod_eq_of_lt hx.1 hx.2]
  | uShr =>
    simp only [exact, BitVec.toNat_ushiftRight, Nat.shiftRight_eq_div_pow, toNat_maskBits]
    push_cast
    rw [ha]
  | eq | ne | lt | le | gt | ge => simp [isComparison] at hv

end Interpreter

section Emitter

theorem bits_carrier (ty : IntTy) : ty.carrier.bits = ty.bits := by cases ty <;> rfl

theorem bits_le_promote (ty : IntTy) : ty.bits ≤ ty.promote.bits := by cases ty <;> decide

theorem bits_le_common (ty ty' : IntTy) : ty.bits ≤ (ty.common ty').bits := by cases ty <;> cases ty' <;> decide

/-- a type is promoted to one with all its values -/
theorem inRange_common (hx : ty.InRange x) : (ty.common ty).InRange x := by
  cases ty <;> simp [IntTy.InRange, IntTy.common, IntTy.promote, IntTy.signed, IntTy.bits] at hx ⊢ <;> omega

theorem wrap_common (hx : ty.InRange x) : (ty.common ty).wrap x = x := IntTy.wrap_of_inRange (inRange_common hx)

/-- the carrier's values keep the operand's bits through promotion -/
theorem wrap_carrier_modEq (ty : IntTy) (x : ℤ) :
    (ty.carrier.common ty.carrier).wrap (ty.carrier.wrap x) ≡ x [ZMOD 2 ^ ty.bits] := by
  have h := bits_le_common ty.carrier ty.carrier
  rw [bits_carrier] at h
  exact (IntTy.wrap_modEq_of_le h _).trans (IntTy.wrap_modEq_of_le (bits_carrier ty).ge x)

theorem wrap_wrap_of_le {ty' : IntTy} (h : ty.bits ≤ ty'.bits) (z : ℤ) : ty.wrap (ty'.wrap z) = ty.wrap z :=
  IntTy.wrap_congr (IntTy.wrap_modEq_of_le h z)

theorem bits_le_carrier_common (ty : IntTy) : ty.bits ≤ (ty.carrier.common ty.carrier).bits := by
  have h := bits_le_common ty.carrier ty.carrier
  rwa [bits_carrier] at h

/-- the guard of a signed division -/
theorem eval_isMinusOne (hs : ty.signed = true) (hy : ty.InRange y) :
    (Expr.binary .eq (.value ty y) (.cast ty (.neg (.value .i32 1)))).eval.2 ≠ 0 ↔ y = -1 := by
  have one : ty.wrap (IntTy.i32.promote.wrap (-1)) = -1 := by
    cases ty <;> first | rfl | exact absurd hs (by decide)
  have minusOne : ty.InRange (-1) := by
    cases ty <;> simp [IntTy.InRange, IntTy.signed, IntTy.bits] at hs ⊢
  simp [Expr.eval, arith, one, wrap_common hy, wrap_common minusOne]

/-- the masked amount of a shift -/
theorem eval_amount (ty : IntTy) (y : ℤ) :
    (Expr.binary .and (.value ty y) (.value .u32 (ty.bits - 1))).eval.2 = shiftAmount ty y := by
  obtain ⟨k, hk, hk6⟩ : ∃ k, ty.bits = 2 ^ k ∧ k ≤ 6 := by
    cases ty
    exacts [⟨3, rfl, by decide⟩, ⟨3, rfl, by decide⟩, ⟨4, rfl, by decide⟩, ⟨4, rfl, by decide⟩,
      ⟨5, rfl, by decide⟩, ⟨5, rfl, by decide⟩, ⟨6, rfl, by decide⟩, ⟨6, rfl, by decide⟩]
  have mask : (ty.common .u32).pattern ((ty.common .u32).wrap (ty.bits - 1)) = 2 ^ k - 1 := by
    rw [← hk]
    cases ty <;> rfl
  have wide : 6 ≤ (ty.common .u32).bits := by cases ty <;> decide
  have low : ((ty.common .u32).pattern ((ty.common .u32).wrap y) : ℤ) % 2 ^ k = y % 2 ^ k := by
    rw [← Int.emod_emod_of_dvd _ (pow_dvd_pow 2 (hk6.trans wide)), IntTy.pattern_modEq_of_le le_rfl,
      Int.emod_emod_of_dvd _ (pow_dvd_pow 2 (hk6.trans wide))]
    exact ((ty.common .u32).wrap_modEq y).of_dvd (pow_dvd_pow 2 (hk6.trans wide))
  have small : (ty.common .u32).InRange (y % 2 ^ k) := by
    have h0 : 0 ≤ y % 2 ^ k := Int.emod_nonneg _ (pow_ne_zero _ two_ne_zero)
    have h1 : y % 2 ^ k < 64 :=
      (Int.emod_lt_of_pos _ (pow_pos two_pos _)).trans_le (pow_le_pow_right₀ one_le_two hk6)
    cases ty <;> simp [IntTy.InRange, IntTy.common, IntTy.promote, IntTy.signed, IntTy.bits] <;> omega
  have amount : (shiftAmount ty y : ℤ) = y % 2 ^ k := by
    rw [shiftAmount, hk, Int.toNat_of_nonneg (Int.emod_nonneg _ (by simp))]
    rfl
  simp only [Expr.eval, arith]
  rw [mask, Nat.and_two_pow_sub_one_eq_mod]
  push_cast
  rw [low, IntTy.wrap_of_inRange small, amount]

theorem wrap_cond (ty : IntTy) (c t e : Expr) :
    ty.wrap (Expr.cond c (.cast ty t) (.cast ty e)).eval.2 =
      if c.eval.2 ≠ 0 then ty.wrap t.eval.2 else ty.wrap e.eval.2 := by
  simp only [Expr.eval]
  rw [wrap_wrap_of_le (bits_le_common ty ty)]
  split <;> exact wrap_wrap_of_le le_rfl _

/-- the arm for a divisor of minus one -/
theorem wrap_zero_sub (ty : IntTy) (x : ℤ) :
    ty.wrap (Expr.binary .sub (.value .i32 0) (.cast ty.carrier (.value ty x))).eval.2 = ty.wrap (-x) := by
  have wide : ty.bits ≤ (IntTy.i32.common ty.carrier).bits := by cases ty <;> decide
  have hx : (IntTy.i32.common ty.carrier).wrap (ty.carrier.wrap x) ≡ x [ZMOD 2 ^ ty.bits] :=
    (IntTy.wrap_modEq_of_le wide _).trans (IntTy.wrap_modEq_of_le (bits_carrier ty).ge x)
  simp only [Expr.eval, arith]
  rw [wrap_wrap_of_le wide, ← zero_sub]
  exact IntTy.wrap_congr ((IntTy.wrap_modEq_of_le wide 0).sub hx)

/-- the expression behind a division's guard has the low bits of the exact result -/
theorem wrap_emitBinary (hx : ty.InRange x) (hy : ty.InRange y) (hv : ¬ isComparison op) :
    ty.wrap (emitBinary op ty (.value ty x) (.value ty y)).eval.2 = ty.wrap (exact op ty x y) := by
  have hc := bits_le_common ty ty
  have hcar := bits_le_carrier_common ty
  have ha := wrap_carrier_modEq ty x
  have hb := wrap_carrier_modEq ty y
  have low (z : ℤ) : ((ty.common ty).pattern z : ℤ) ≡ z [ZMOD 2 ^ ty.bits] := IntTy.pattern_modEq_of_le hc z
  have hp : ty.bits ≤ ty.carrier.promote.bits := (bits_carrier ty).ge.trans (bits_le_promote ty.carrier)
  cases op with
  | add =>
    simp only [emitBinary, cOperator, Expr.eval, arith, exact]
    rw [wrap_wrap_of_le le_rfl, wrap_wrap_of_le hcar]
    exact IntTy.wrap_congr (ha.add hb)
  | sub =>
    simp only [emitBinary, cOperator, Expr.eval, arith, exact]
    rw [wrap_wrap_of_le le_rfl, wrap_wrap_of_le hcar]
    exact IntTy.wrap_congr (ha.sub hb)
  | mul =>
    simp only [emitBinary, cOperator, Expr.eval, arith, exact]
    rw [wrap_wrap_of_le le_rfl, wrap_wrap_of_le hcar]
    exact IntTy.wrap_congr (ha.mul hb)
  | div =>
    have plain : ty.wrap (Expr.binary .div (.value ty x) (.value ty y)).eval.2 = ty.wrap (x.tdiv y) := by
      simp only [Expr.eval, arith, wrap_common hx, wrap_common hy]
      exact wrap_wrap_of_le hc _
    cases hs : ty.signed with
    | false =>
      simp only [emitBinary, hs, exact, Bool.false_eq_true, if_false]
      exact (wrap_wrap_of_le le_rfl _).trans plain
    | true =>
      simp only [emitBinary, hs, if_true, exact]
      rw [wrap_cond, plain, wrap_zero_sub]
      by_cases h : y = -1
      · rw [if_pos ((eval_isMinusOne hs hy).2 h), h, Int.tdiv_neg, Int.tdiv_one]
      · rw [if_neg (mt (eval_isMinusOne hs hy).1 h)]
  | rem =>
    have plain : ty.wrap (Expr.binary .rem (.value ty x) (.value ty y)).eval.2 = ty.wrap (x.tmod y) := by
      simp only [Expr.eval, arith, wrap_common hx, wrap_common hy]
      exact wrap_wrap_of_le hc _
    cases hs : ty.signed with
    | false =>
      simp only [emitBinary, hs, exact, Bool.false_eq_true, if_false]
      exact (wrap_wrap_of_le le_rfl _).trans plain
    | true =>
      simp only [emitBinary, hs, if_true, exact]
      rw [wrap_cond, plain]
      by_cases h : y = -1
      · rw [if_pos ((eval_isMinusOne hs hy).2 h), h, Int.tmod_neg, Int.tmod_one]
        rfl
      · rw [if_neg (mt (eval_isMinusOne hs hy).1 h)]
  | bitAnd =>
    simp only [emitBinary, cOperator, Expr.eval, arith, exact, wrap_common hx, wrap_common hy]
    rw [wrap_wrap_of_le hc]
    exact IntTy.wrap_congr (bitwise_modEq (fun _ _ _ => Nat.and_mod_two_pow) (low x) (low y))
  | bitOr =>
    simp only [emitBinary, cOperator, Expr.eval, arith, exact, wrap_common hx, wrap_common hy]
    rw [wrap_wrap_of_le hc]
    exact IntTy.wrap_congr (bitwise_modEq (fun _ _ _ => Nat.or_mod_two_pow) (low x) (low y))
  | bitXor =>
    simp only [emitBinary, cOperator, Expr.eval, arith, exact, wrap_common hx, wrap_common hy]
    rw [wrap_wrap_of_le hc]
    exact IntTy.wrap_congr (bitwise_modEq (fun _ _ _ => Nat.xor_mod_two_pow) (low x) (low y))
  | shl =>
    have h : (emitBinary .shl ty (.value ty x) (.value ty y)).eval.2 =
        ty.wrap (ty.carrier.promote.wrap (ty.carrier.wrap x * 2 ^
          (Expr.binary .and (.value ty y) (.value .u32 (ty.bits - 1))).eval.2.toNat)) := rfl
    rw [h, eval_amount, Int.toNat_natCast, wrap_wrap_of_le le_rfl, wrap_wrap_of_le hp]
    exact IntTy.wrap_congr ((IntTy.wrap_modEq_of_le (bits_carrier ty).ge x).mul_right _)
  | shr =>
    have h : (emitBinary .shr ty (.value ty x) (.value ty y)).eval.2 =
        ty.wrap (ty.promote.wrap (ty.wrap x / 2 ^
          (Expr.binary .and (.value ty y) (.value .u32 (ty.bits - 1))).eval.2.toNat)) := rfl
    rw [h, eval_amount, Int.toNat_natCast, wrap_wrap_of_le le_rfl, wrap_wrap_of_le (bits_le_promote ty),
      IntTy.wrap_of_inRange hx, exact]
  | uShr =>
    have unsigned : ty.carrier.wrap x = x % 2 ^ ty.bits := by cases ty <;> rfl
    have h : (emitBinary .uShr ty (.value ty x) (.value ty y)).eval.2 =
        ty.wrap (ty.carrier.promote.wrap (ty.carrier.wrap x / 2 ^
          (Expr.binary .and (.value ty y) (.value .u32 (ty.bits - 1))).eval.2.toNat)) := rfl
    rw [h, eval_amount, Int.toNat_natCast, wrap_wrap_of_le le_rfl, wrap_wrap_of_le hp, unsigned, exact]
  | eq | ne | lt | le | gt | ge => simp [isComparison] at hv

end Emitter

theorem ofInt_injOn (hx : ty.InRange x) (hy : ty.InRange y) :
    BitVec.ofInt 64 x = BitVec.ofInt 64 y ↔ x = y := by
  refine ⟨fun h => ?_, congrArg _⟩
  have hv : Value.of ty x = Value.of ty y := by rw [Value.of, Value.of, h]
  rw [← toInt_of hx, ← toInt_of hy, hv]

theorem order_of (hx : ty.InRange x) (hy : ty.InRange y) (op : Lir.BinaryOp) :
    order op (.of ty x) (.of ty y) = compare op x y := by
  have hvx := toInt_of hx
  have hvy := toInt_of hy
  unfold Value.of at hvx hvy ⊢
  cases hs : ty.signed with
  | true =>
    simp only [hs, if_true, Value.toInt] at hvx hvy ⊢
    rw [order, hvx, hvy]
  | false =>
    simp only [hs, Bool.false_eq_true, if_false, Value.toInt] at hvx hvy ⊢
    simp only [order, Value.bits, hvx, hvy]

theorem binary_agrees (op : Lir.BinaryOp) (x y : {x // ty.InRange x}) :
    interpret (.binary op ty x y) = emitted (.binary op ty x y) := by
  obtain ⟨x, hx⟩ := x
  obtain ⟨y, hy⟩ := y
  have hzero : (Value.of ty y).bits = 0 ↔ y = 0 := by
    have h0 : ty.InRange 0 := by cases ty <;> decide
    rw [bits_of]
    exact ofInt_injOn hy h0
  simp only [interpret, emitted, binary, hzero]
  by_cases htrap : isDivision op = true ∧ y = 0
  · rw [if_pos htrap, if_pos htrap]
  rw [if_neg htrap, if_neg htrap]
  have value (hv : ¬ isComparison op) :
      Outcome.int (integerResult ty (binaryBits op ty (Value.of ty x).bits (Value.of ty y).bits)).toInt =
        assigned ty (emitBinary op ty (.value ty x) (.value ty y)) := by
    rw [assigned, toInt_integerResult, bits_of, bits_of, wrap_emitBinary hx hy hv,
      IntTy.wrap_congr (binaryBits_modEq hx hy hv)]
  cases op with
  | eq | ne =>
    simp [isComparison, emitBinary, cOperator, Expr.eval, arith, wrap_common hx, wrap_common hy, bits_of, ofInt_injOn hx hy]
  | lt | le | gt | ge =>
    simp [isComparison, emitBinary, cOperator, Expr.eval, arith, wrap_common hx, wrap_common hy, order_of hx hy, compare]
  | _ => exact value (by decide)

theorem roundBits_zero {p : ℕ} (hp : 0 < p) : Numeric.roundBits p 0 = 0 :=
  Numeric.roundBits_of_lt hp (pow_pos two_pos p)

theorem roundInt_sign_mul {p : ℕ} (hp : 0 < p) (x : ℤ) (n : ℕ) :
    roundInt p (x.sign * n) = x.sign * Numeric.roundBits p n := by
  rcases Nat.eq_zero_or_pos n with rfl | hn
  · simp [roundInt, roundBits_zero hp]
  rcases lt_trichotomy x 0 with hx | rfl | hx
  · simp [roundInt, Int.sign_eq_neg_one_of_neg hx, Int.sign_eq_one_of_pos (Int.natCast_pos.2 hn)]
  · simp [roundInt]
  · simp [roundInt, Int.sign_eq_one_of_pos hx, Int.sign_eq_one_of_pos (Int.natCast_pos.2 hn)]

theorem roundInt_twice_iff (x : ℤ) :
    roundInt 24 (roundInt 53 x) = roundInt 24 x ↔ ¬ Numeric.DoubleRounds 24 29 x.natAbs := by
  rw [← Numeric.roundBits_twice (by decide) (by decide)]
  conv_lhs => rw [roundInt.eq_1 53, roundInt_sign_mul (by decide), roundInt]
  rcases eq_or_ne x 0 with rfl | hx
  · simp [roundBits_zero]
  · rw [mul_right_inj' (mt Int.sign_eq_zero_iff_zero.1 hx)]
    exact Int.natCast_inj

/-- The interpreter and the emitted C agree on every operator and conversion, up to conversions to `f32` that round
twice. -/
theorem interpret_eq_emitted_iff (c : Computation) : interpret c = emitted c ↔ ¬ c.DoubleRounds := by
  cases c with
  | negate ty x =>
    refine iff_of_true ?_ id
    rw [interpret, emitted, assigned, toInt_integerResult, bits_of, ← BitVec.ofInt_neg]
    simp only [Expr.eval]
    rw [wrap_wrap_of_le (bits_le_promote ty), IntTy.wrap_congr (ofInt_modEq ty _)]
  | complement ty x =>
    refine iff_of_true ?_ id
    have hnot : ~~~(BitVec.ofInt 64 x.1) = BitVec.ofInt 64 (-x.1 - 1) := by
      rw [sub_eq_add_neg, BitVec.ofInt_add, BitVec.ofInt_neg, BitVec.neg_eq_not_add, BitVec.add_assoc]
      exact (BitVec.add_zero _).symm
    rw [interpret, emitted, assigned, toInt_integerResult, bits_of, hnot]
    simp only [Expr.eval]
    rw [wrap_wrap_of_le (bits_le_promote ty), IntTy.wrap_congr (ofInt_modEq ty _)]
  | binary op ty x y => exact iff_of_true (binary_agrees op x y) id
  | toInteger source target x =>
    refine iff_of_true ?_ id
    rw [interpret, emitted, assigned, toInt_integerResult, bits_of, IntTy.wrap_congr (ofInt_modEq target _)]
    split
    · rfl
    · rw [Expr.eval, wrap_wrap_of_le le_rfl, Expr.eval]
  | toF32 source x =>
    simp only [interpret, emitted, Value.asF64, toInt_of x.2, Outcome.float.injEq]
    exact roundInt_twice_iff x
  | toF64 source x =>
    refine iff_of_true ?_ id
    rw [interpret, emitted, Value.asF64, toInt_of x.2]

/-- 2^60 + 2^36 + 1 lies above the middle of two neighbours in `f32`; in `f64` it is rounded to the middle. -/
theorem interpret_ne_emitted_tie :
    interpret (.toF32 .i64 ⟨1152921573326323713, by decide⟩) ≠
      emitted (.toF32 .i64 ⟨1152921573326323713, by decide⟩) := by
  decide

end Subscript.Interpreter
