import Subscript.Types

/-! The ordered low-level IR (`lir.rs`): functions as graphs of basic blocks. Only the fields that a
modelled pass reads are kept. -/

namespace Subscript.Lir

abbrev FunctionId := Nat
abbrev MethodId := Nat
abbrev ForeignFunctionId := Nat
abbrev GlobalId := Nat
abbrev FieldId := Nat
abbrev LocalId := Nat
abbrev BlockId := Nat
abbrev ValueId := Nat

inductive ForOfKind where
  | arrayValues | arrayKeys | arrayValuesReverse | arrayKeysReverse
  | mapKeys | mapValues | setValues | stringCodePoints
  deriving DecidableEq

structure AddressType where
  pointee : Ty
  arrayBase : Option ValueId
  deriving DecidableEq

structure IteratorType where
  kind : ForOfKind
  element : Ty
  deriving DecidableEq

inductive ValueType where
  | data (ty : Ty)
  | address (ty : AddressType)
  | iterator (ty : IteratorType)
  deriving DecidableEq

inductive UnaryOp where
  | neg | not | bitNot
  deriving DecidableEq

inductive BinaryOp where
  | add | sub | mul | div | rem | eq | ne | lt | le | gt | ge
  | bitAnd | bitOr | bitXor | shl | shr | uShr
  deriving DecidableEq

inductive FieldRef where
  | cls (id : FieldId)
  | iterDone
  | iterValue
  deriving DecidableEq

inductive SpreadKind where
  | array | fixedArray | setValues | stringCodePoints
  deriving DecidableEq

inductive FormatKind where
  | i32 | u32 | i64 | u64 | f16 | f32 | f64 | bool | str
  | stringAlias (id : StringAliasId)
  deriving DecidableEq

inductive TemplatePart where
  | text (text : String)
  | operand (index : Nat) (format : FormatKind)
  deriving DecidableEq

inductive IntrinsicFamily where
  | ambient | contextBytes | math | number | date | json | text | string | regex
  | array | map | set | worker
  deriving DecidableEq

structure Intrinsic where
  family : IntrinsicFamily
  operation : Nat
  typeArgument : Option Ty
  workerEntry : Option Nat
  deriving DecidableEq

inductive BuiltinMethod where
  | arrayPush | arrayPop | arrayClear | stringSlice | generatorNext
  deriving DecidableEq

inductive CallTargetKind where
  | function (id : FunctionId)
  | staticClosure (id : FunctionId)
  | method (id : MethodId)
  | foreign (id : ForeignFunctionId)
  | indirect
  | intrinsic (operation : Intrinsic)
  | builtinMethod (method : BuiltinMethod)
  deriving DecidableEq

structure CallTarget where
  kind : CallTargetKind
  parameterTypes : List ValueType
  returnType : Option ValueType
  deriving DecidableEq

inductive NarrowOrigin where
  | sharedRead | «local»
  deriving DecidableEq

inductive IteratorBoundKind where
  | live | fixed
  deriving DecidableEq

inductive TaskGroupOperation where
  | create | add | join | release
  deriving DecidableEq

inductive StandardHostOperation where
  | readText | readBytes | writeText | writeBytes
  deriving DecidableEq

inductive HostCompletionTarget where
  | foreign (id : ForeignFunctionId)
  | standard (operation : StandardHostOperation)
  deriving DecidableEq

inductive FinalizerCompletion where
  | fallThrough | «return» | throw
  | «break» (block : BlockId)
  | «continue» (block : BlockId)
  deriving DecidableEq

inductive InstructionKind where
  | copy
  | stringLiteral (text : String)
  | loadLocal (id : LocalId)
  | storeLocal (id : LocalId)
  | addressOfLocal (id : LocalId)
  | loadGlobal (id : GlobalId)
  | storeGlobal (id : GlobalId)
  | addressOfGlobal (id : GlobalId)
  | functionRef (id : FunctionId)
  | unary (op : UnaryOp)
  | binary (op : BinaryOp)
  | cast
  | coerce
  | stringOperand
  | narrowNonNull (origin : NarrowOrigin)
  | allocateClass (id : ClassId)
  | boxBoundaryValue (payload : ClassId)
  | addressOfValue
  | addressOfField (field : FieldRef)
  | addressOfIndex (checked : Bool)
  | loadAddress
  | storeAddress
  | loadField (field : FieldRef)
  | length
  | foreignArrayData
  | arrayLiteral
  | arrayWithCapacity
  | arraySpreadLiteral (spreads : List (Option SpreadKind))
  | setFromSource (kind : SpreadKind)
  | mapFromSource
  | template (parts : List TemplatePart)
  | makeClosure (id : FunctionId)
  | call (target : CallTarget)
  | asyncHandleCreate (target : CallTarget)
  | asyncAll
  | hostCompletion (target : HostCompletionTarget) (resultSize resultKind : Nat)
      (errorMetadata : List Nat)
  | taskGroup (operation : TaskGroupOperation)
  | asyncHandleRetain
  | asyncHandleRelease
  | asyncHandleArrayRetain
  | asyncHandleArrayRelease
  | iteratorCreate (kind : ForOfKind) (bound : IteratorBoundKind)
  | iteratorHasNext
  | iteratorValue
  | iteratorBound
  | iteratorAdvance
  | zero
  | throw
  | catchEntry
  | exceptionPark
  | exceptionResume
  | exceptionMessage
  | exceptionPosition
  | exceptionRestore
  | finalizerEnter (completion : Option FinalizerCompletion)
  | generatorClose
  | generatorIsClosing
  | generatorFinalizer (pos : Pos)
  | awaitRaise
  deriving DecidableEq

inductive RaiseEdge where
  | handler (block : BlockId)
  | propagate
  deriving DecidableEq

inductive TrapKind where
  | allocation | call
  | raise (edge : RaiseEdge)
  | unreachable | divisionByZero | indexRead | indexWrite | generatorDoneValue
  | nullNarrowing | sharedNullNarrowing
  | classMismatch (id : ClassId)
  | devOnlyLifetime (operand : Nat)
  | devOnlyRelease (operand : Nat)
  | devReloadOnlyStaleCoroutine
  | wireEnumValue (id : StringAliasId)
  | disposeRaisedDuringExit
  deriving DecidableEq

structure Trap where
  kind : TrapKind
  pos : Pos
  deriving DecidableEq

inductive ConstantKind where
  | integer (value : Int)
  | floatBits (bits : Nat)
  | boolean (value : Bool)
  | null
  deriving DecidableEq

structure Constant where
  ty : Ty
  kind : ConstantKind
  deriving DecidableEq

inductive Operand where
  | value (id : ValueId)
  | constant (c : Constant)
  deriving DecidableEq

def Operand.value? : Operand → Option ValueId
  | value id => some id
  | constant _ => none

structure Instruction where
  result : Option ValueId := none
  kind : InstructionKind
  operands : List Operand := []
  invalidates : List ValueId := []
  traps : List Trap := []
  deriving DecidableEq

def Trap.raiseEdge? (trap : Trap) : Option RaiseEdge :=
  match trap.kind with
  | .raise edge => some edge
  | _ => none

namespace Instruction

def raiseEdge (i : Instruction) : Option RaiseEdge := i.traps.findSome? Trap.raiseEdge?

/-- the handler block that the raise edge of this instruction reaches -/
def handler (i : Instruction) : Option BlockId :=
  match i.raiseEdge with
  | some (.handler block) => some block
  | some .propagate | none => none

def valueUses (i : Instruction) : List ValueId := i.operands.filterMap Operand.value?

end Instruction

structure BlockTarget where
  block : BlockId
  arguments : List Operand := []
  ownership : List Bool := []
  deriving DecidableEq

structure SwitchArm where
  value : Constant
  target : BlockTarget
  deriving DecidableEq

inductive SuspendKind where
  | yield (value : Option ValueId)
  | async
  | asyncCall (target : CallTarget) (operands : List ValueId)
  | asyncHandle (handle : ValueId) (owned : Bool)
  deriving DecidableEq

structure Suspend where
  kind : SuspendKind
  pos : Pos
  successor : BlockId
  resumeValue : Option ValueId := none
  arguments : List Operand := []
  ownership : List Bool := []
  invalidates : List ValueId := []
  traps : List Trap := []
  deriving DecidableEq

inductive Terminator where
  | branch (target : BlockTarget)
  | conditionalBranch (condition : Operand) (thenTarget elseTarget : BlockTarget)
  | switch (value : Operand) (arms : List SwitchArm) (default : BlockTarget)
  | return (value : Option Operand)
  | unreachable
  | trap (trap : Trap)
  | suspend (s : Suspend)
  deriving DecidableEq

namespace Terminator

def targets : Terminator → List BlockTarget
  | branch target => [target]
  | conditionalBranch _ thenTarget elseTarget => [thenTarget, elseTarget]
  | switch _ arms default => arms.map SwitchArm.target ++ [default]
  | suspend s => [⟨s.successor, s.arguments, s.ownership⟩]
  | «return» _ | unreachable | trap _ => []

def successors (t : Terminator) : List BlockId := t.targets.map BlockTarget.block

def suspendUses : SuspendKind → List ValueId
  | .yield value => value.toList
  | .async => []
  | .asyncCall _ operands => operands
  | .asyncHandle handle _ => [handle]

def valueUses : Terminator → List ValueId
  | branch target => target.arguments.filterMap Operand.value?
  | conditionalBranch condition thenTarget elseTarget =>
    (condition :: (thenTarget.arguments ++ elseTarget.arguments)).filterMap Operand.value?
  | switch value arms default =>
    (value :: (arms.flatMap (·.target.arguments) ++ default.arguments)).filterMap Operand.value?
  | «return» value => value.toList.filterMap Operand.value?
  | suspend s => s.arguments.filterMap Operand.value? ++ suspendUses s.kind
  | unreachable | trap _ => []

/-- the resume successor of a suspension -/
def resume? : Terminator → Option BlockId
  | suspend s => some s.successor
  | _ => none

end Terminator

structure BasicBlock where
  id : BlockId
  parameters : List ValueId := []
  instructions : List Instruction := []
  terminator : Terminator
  deriving DecidableEq

namespace BasicBlock

/-- handler edges in instruction order, then the edges of the terminator -/
def successors (b : BasicBlock) : List BlockId :=
  b.instructions.filterMap Instruction.handler ++ b.terminator.successors

/-- every value a block reads, in order -/
def valueUses (b : BasicBlock) : List ValueId :=
  b.instructions.flatMap Instruction.valueUses ++ b.terminator.valueUses

end BasicBlock

inductive LocalStorageClass where
  | activation | frame
  deriving DecidableEq

structure Local where
  id : LocalId
  ty : ValueType
  storage : LocalStorageClass := .activation
  deriving DecidableEq

structure Value where
  id : ValueId
  ty : ValueType
  freshOwner : Bool := false
  deriving DecidableEq

structure Parameter where
  storage : Option LocalId := none
  value : ValueId
  deriving DecidableEq

structure Function where
  id : FunctionId
  sourceName : String
  isGenerator : Bool := false
  isAsync : Bool := false
  canRaise : Bool := false
  parameters : List Parameter := []
  returnType : Ty := .void
  locals : List Local := []
  values : List Value := []
  blocks : List BasicBlock
  entry : BlockId := 0
  deriving DecidableEq

structure Method where
  id : MethodId
  function : FunctionId
  deriving DecidableEq

structure Class where
  constructor : Option Method
  methods : List Method
  deriving DecidableEq

structure IntrinsicOperation where
  family : IntrinsicFamily
  operation : Nat
  semanticName : String
  deriving DecidableEq

structure Module where
  classes : List Class := []
  functions : List Function
  intrinsicOperations : List IntrinsicOperation := []

end Subscript.Lir
