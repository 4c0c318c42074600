import Mathlib.Data.List.Basic
import Mathlib.Algebra.Group.Nat.Defs
import Mathlib.Algebra.Group.Int.Defs

/-! Resolved language types (`types.rs`) and source positions. The types that only the checker of a
generic body meets (type parameters, interfaces, generic numbers and unions) are left out: no HIR
and no LIR carries one. -/

namespace Subscript

structure Pos where
  file : String
  line : Nat
  col : Nat
  deriving DecidableEq

/-- the absence spelling of a nullable type -/
inductive Absence where
  | null
  | undefined
  deriving DecidableEq

abbrev ClassId := Nat
abbrev EnumId := Nat
abbrev StringAliasId := Nat

mutual
inductive Ty where
  | i8 | u8 | i16 | u16 | i32 | u32 | i64 | u64
  | f32 | f64 | f16
  | bool | str | date | regExp | taskGroup | void | null | object
  | cls (id : ClassId)
  | enum (id : EnumId)
  | stringAlias (id : StringAliasId)
  | fixedArray (element : Ty) (len : Nat)
  | array (element : Ty)
  | map (key value : Ty)
  | set (element : Ty)
  | worker (input output : Ty)
  | inbox (message : Ty)
  | outbox (message : Ty)
  | func (params : Tys) (ret : Ty)
  | nullable (inner : Ty) (absence : Absence)
  | generator (element : Ty)
  | asyncHandle (value : Ty)
  | iterResult (value : Ty)
  | error

-- the parameter types of a function type, as a type of its own so that equality is derived
inductive Tys where
  | nil
  | cons (head : Ty) (tail : Tys)
end

deriving instance DecidableEq for Ty, Tys

namespace Ty

def isInteger : Ty → Bool
  | i8 | u8 | i16 | u16 | i32 | u32 | i64 | u64 => true
  | _ => false

/-- the inclusive range of a sized integer type -/
def intBounds : Ty → Option (Int × Int)
  | i8 => some (-2 ^ 7, 2 ^ 7 - 1)
  | u8 => some (0, 2 ^ 8 - 1)
  | i16 => some (-2 ^ 15, 2 ^ 15 - 1)
  | u16 => some (0, 2 ^ 16 - 1)
  | i32 => some (-2 ^ 31, 2 ^ 31 - 1)
  | u32 => some (0, 2 ^ 32 - 1)
  | i64 => some (-2 ^ 63, 2 ^ 63 - 1)
  | u64 => some (0, 2 ^ 64 - 1)
  | _ => none

end Ty

mutual

/-- the debug form of a type, which findings and the declaration hash print -/
def Ty.debug : Ty → String
  | .i8 => "I8"
  | .u8 => "U8"
  | .i16 => "I16"
  | .u16 => "U16"
  | .i32 => "I32"
  | .u32 => "U32"
  | .i64 => "I64"
  | .u64 => "U64"
  | .f32 => "F32"
  | .f64 => "F64"
  | .f16 => "F16"
  | .bool => "Bool"
  | .str => "Str"
  | .date => "Date"
  | .regExp => "RegExp"
  | .taskGroup => "TaskGroup"
  | .void => "Void"
  | .null => "Null"
  | .object => "Object"
  | .error => "Error"
  | .cls id => "Class(ClassId(" ++ toString id ++ "))"
  | .enum id => "Enum(EnumId(" ++ toString id ++ "))"
  | .stringAlias id => "StringAlias(StringAliasId(" ++ toString id ++ "))"
  | .fixedArray element len => "FixedArray(" ++ element.debug ++ ", " ++ toString len ++ ")"
  | .array element => "Array(" ++ element.debug ++ ")"
  | .map key value => "Map(" ++ key.debug ++ ", " ++ value.debug ++ ")"
  | .set element => "Set(" ++ element.debug ++ ")"
  | .worker input output => "Worker(" ++ input.debug ++ ", " ++ output.debug ++ ")"
  | .inbox message => "Inbox(" ++ message.debug ++ ")"
  | .outbox message => "Outbox(" ++ message.debug ++ ")"
  | .func params ret =>
    "Func(FuncType \x7b params: [" ++ params.debug ++ "], ret: " ++ ret.debug ++ " \x7d)"
  | .nullable inner .null => "Nullable(" ++ inner.debug ++ ")"
  | .nullable inner .undefined => "Nullable(" ++ inner.debug ++ ", Undefined)"
  | .generator element => "Generator(" ++ element.debug ++ ")"
  | .asyncHandle value => "AsyncHandle(" ++ value.debug ++ ")"
  | .iterResult value => "IterResult(" ++ value.debug ++ ")"

def Tys.debug : Tys → String
  | .nil => ""
  | .cons head .nil => head.debug
  | .cons head tail => head.debug ++ ", " ++ tail.debug

end

end Subscript
