import Subscript.Types

/-! The C layout of the classes of a module (`layout.rs`): the builder with its memo of finished classes. -/

namespace Subscript.Reload

def maxAggregateBytes : Nat := 2147483647

inductive LayoutError where
  | internal (message : String)
  -- never the result of a build, see `build_ne_outOfFuel`
  | outOfFuel
  deriving DecidableEq

/-- a class as the layout reads it -/
structure ClassShape where
  name : String
  isValue : Bool
  alignment : Option Nat
  fields : List Ty

structure ClassLayout where
  size : Nat
  align : Nat
  fieldOffsets : List Nat
  fieldTypes : List Ty
  isValue : Bool
  deriving DecidableEq

abbrev Layout := Except LayoutError

@[simp] theorem ok_bind {α β : Type} (a : α) (f : α → Layout β) : ((.ok a : Layout α) >>= f) = f a := rfl

@[simp] theorem pure_eq_ok {α : Type} (a : α) : (pure a : Layout α) = .ok a := rfl

def internal {α : Type} (message : String) : Layout α :=
  .error (.internal ("internal lowering error: " ++ message))

def ensureSupportedSize (size : Nat) (context : String) : Layout Nat :=
  if size ≤ maxAggregateBytes then .ok size
  else internal s!"{context} is {size} bytes; maximum supported aggregate size is {maxAggregateBytes} bytes"

def checkedAddSize (left right : Nat) (context : String) : Layout Nat :=
  if left + right < 2 ^ 32 then ensureSupportedSize (left + right) context
  else internal s!"{context} overflows u32"

def checkedMulSize (left right : Nat) (context : String) : Layout Nat :=
  if left * right < 2 ^ 32 then ensureSupportedSize (left * right) context
  else internal s!"{context} overflows u32"

def isPowerOfTwo (n : Nat) : Bool := n != 0 && n &&& (n - 1) == 0

def roundUp (value align : Nat) : Layout Nat :=
  let context := "aligned aggregate layout"
  if isPowerOfTwo align then
    let sum := value + (align - 1)
    -- clearing the low bits of a power of two
    if sum < 2 ^ 32 then ensureSupportedSize (sum / align * align) context
    else internal s!"{context} overflows u32 during alignment"
  else internal s!"{context} has invalid alignment {align}"

/-- size and alignment of every type that is neither a class nor an aggregate of other types -/
def scalarSizeAlign : Ty → Layout (Nat × Nat)
  | .i8 | .u8 | .bool => .ok (1, 1)
  | .i16 | .u16 | .f16 => .ok (2, 2)
  | .i32 | .u32 | .f32 | .enum _ | .stringAlias _ => .ok (4, 4)
  | .i64 | .u64 | .f64 | .date => .ok (8, 8)
  | .func _ _ | .nullable (.func _ _) _ => .ok (16, 8)
  | .str | .regExp | .taskGroup | .object | .array _ | .map _ _ | .set _ | .worker _ _ | .inbox _ | .outbox _
  | .generator _ | .asyncHandle _ | .nullable _ _ | .null => .ok (8, 8)
  | .void | .error => .ok (0, 1)
  | ty => internal s!"unsized type {ty.debug}"

/-- the finished classes -/
abbrev Slots := List (Option ClassLayout)

section Builder

variable (shapes : List ClassShape)

/-- `classLayout` is the builder's, with the classes in progress fixed -/
def sizeAlign (classLayout : ClassId → Slots → Layout (ClassLayout × Slots)) :
    Ty → Slots → Layout ((Nat × Nat) × Slots)
  | .cls id, slots =>
    match shapes[id]? with
    | none => internal s!"class id {id} out of range"
    | some c =>
      if c.isValue then do
        let (l, slots) ← classLayout id slots
        return ((l.size, l.align), slots)
      else return ((8, 8), slots)
  | .fixedArray elem n, slots => do
    let ((es, ea), slots) ← sizeAlign classLayout elem slots
    let stride ← roundUp es ea
    return ((← checkedMulSize stride n "FixedArray byte size", ea), slots)
  | .iterResult v, slots => do
    let ((vs, va), slots) ← sizeAlign classLayout v slots
    let a := max va 1
    let valueOffset ← roundUp 1 a
    let stop ← checkedAddSize valueOffset vs "IterResult layout"
    return ((← roundUp stop a, a), slots)
  | other, slots => do return (← scalarSizeAlign other, slots)

/-- the loop over the fields: the size and the alignment so far, and the offsets of the fields passed -/
def placeFields (sizeAlign : Ty → Slots → Layout ((Nat × Nat) × Slots)) :
    List Ty → Nat → Nat → Slots → Layout ((Nat × Nat × List Nat) × Slots)
  | [], size, align, slots => .ok ((size, align, []), slots)
  | field :: fields, size, align, slots => do
    let ((fs, fa), slots) ← sizeAlign field slots
    let offset ← roundUp size fa
    let size ← checkedAddSize offset fs "class field layout"
    let ((size, align, offsets), slots) ← placeFields sizeAlign fields size (max align fa) slots
    return ((size, align, offset :: offsets), slots)

def withOverride (align : Nat) (alignment : Option Nat) : Nat :=
  match alignment with
  | some override => max align override
  | none => align

/-- `visiting` are the classes in progress: the source's flags, which only matter while no error is met -/
def classLayout : Nat → List ClassId → ClassId → Slots → Layout (ClassLayout × Slots)
  | 0, _, _, _ => .error .outOfFuel
  | fuel + 1, visiting, id, slots =>
    match slots[id]? with
    | some (some l) => .ok (l, slots)
    | _ =>
      match shapes[id]? with
      | none => internal s!"class id {id} out of range"
      | some c =>
        if id ∈ visiting then internal ("value-class containment cycle through \x60" ++ c.name ++ "\x60")
        else do
          let nested := sizeAlign shapes (classLayout fuel (id :: visiting))
          let ((size, align, offsets), slots) ← placeFields nested c.fields 0 1 slots
          let align := withOverride align c.alignment
          let size ← roundUp (max size 1) align
          let layout : ClassLayout := {
            size, align, fieldOffsets := offsets, fieldTypes := c.fields, isValue := c.isValue }
          return (layout, slots.set id (some layout))

def buildFrom : List ClassId → Slots → Layout Slots
  | [], slots => .ok slots
  | id :: ids, slots => do
    let (_, slots) ← classLayout shapes (shapes.length + 1) [] id slots
    buildFrom ids slots

def collect : Nat → Slots → Layout (List ClassLayout)
  | _, [] => .ok []
  | i, none :: _ => internal s!"class {i} not laid out"
  | i, some l :: slots => do return l :: (← collect (i + 1) slots)

def buildShapes : Layout (List ClassLayout) := do
  let slots ← buildFrom shapes (List.range shapes.length) (List.replicate shapes.length none)
  collect 0 slots

end Builder

end Subscript.Reload
