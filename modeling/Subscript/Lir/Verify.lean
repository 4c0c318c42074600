import Subscript.Lir.Syntax

/-! Structure and types of a function (`verify.rs`, `verify_terminator.rs`): tables carry their own
ids, every value has one definition, every operand is known and every edge fits its target. The
contracts of single instructions are not part of this model. -/

namespace Subscript.Lir

structure VerifyError where
  message : String
  deriving DecidableEq

def finding (f : Function) (message : String) : VerifyError :=
  ⟨s!"function {f.id} (`{f.sourceName}`): {message}"⟩

/-- a list of findings that holds the message when the check fails -/
def require (f : Function) (ok : Bool) (message : String) : List VerifyError :=
  if ok then [] else [finding f message]

def ForOfKind.debug : ForOfKind → String
  | arrayValues => "ArrayValues"
  | arrayKeys => "ArrayKeys"
  | arrayValuesReverse => "ArrayValuesReverse"
  | arrayKeysReverse => "ArrayKeysReverse"
  | mapKeys => "MapKeys"
  | mapValues => "MapValues"
  | setValues => "SetValues"
  | stringCodePoints => "StringCodePoints"

def ValueType.debug : ValueType → String
  | data ty => "Data(" ++ ty.debug ++ ")"
  | address ty =>
    let base := match ty.arrayBase with
      | some base => "Some(ValueId(" ++ toString base ++ "))"
      | none => "None"
    "Address(AddressType \x7b pointee: " ++ ty.pointee.debug ++ ", array_base: " ++ base ++ " \x7d)"
  | iterator ty =>
    "Iterator(IteratorType \x7b kind: " ++ ty.kind.debug ++ ", element: " ++ ty.element.debug ++
      " \x7d)"

def ConstantKind.debug : ConstantKind → String
  | integer value => "Integer(" ++ toString value ++ ")"
  | floatBits bits => "FloatBits(" ++ toString bits ++ ")"
  | boolean value => "Boolean(" ++ toString value ++ ")"
  | null => "Null"

def Constant.debug (c : Constant) : String :=
  "Constant \x7b ty: " ++ c.ty.debug ++ ", kind: " ++ c.kind.debug ++ " \x7d"

def valueType (f : Function) (v : ValueId) : Option ValueType :=
  (f.values[v]?.filter (·.id = v)).map Value.ty

def operandType (f : Function) : Operand → Option ValueType
  | .value v => valueType f v
  | .constant c => some (.data c.ty)

def Constant.valid (c : Constant) : Bool :=
  match c.kind with
  | .boolean _ => c.ty = .bool
  | .null =>
    match c.ty with
    | .null | .nullable .. | .object | .cls _ | .array _ | .map .. | .set _ | .worker .. | .inbox _
    | .outbox _ | .func .. | .generator _ | .regExp => true
    | _ => false
  | .floatBits _ =>
    match c.ty with
    | .f16 | .f32 | .f64 => true
    | _ => false
  | .integer _ =>
    match c.ty with
    | .i8 | .u8 | .i16 | .u16 | .i32 | .u32 | .i64 | .u64 | .f16 | .date | .enum _
    | .stringAlias _ => true
    | _ => false

def verifyConstant (f : Function) (operand : Operand) (context : String) : List VerifyError :=
  match operand with
  | .value _ => []
  | .constant c =>
    require f c.valid s!"{context} has an invalid constant/type pairing: {c.debug}"

def verifyOperandType (f : Function) (operand : Operand) (expected : ValueType) (context : String) :
    List VerifyError :=
  (match operandType f operand with
    | some actual =>
      require f (actual = expected)
        s!"{context} has type {actual.debug}, expected {expected.debug}"
    | none => [finding f s!"{context} names an unknown value"]) ++
  verifyConstant f operand context

/-- arguments against the parameters of a target block, pairwise -/
def verifyArguments (f : Function) (arguments : List Operand) (parameters : List ValueId)
    (context : String) : List VerifyError :=
  (arguments.zip parameters).flatMap fun (argument, parameter) =>
    match valueType f parameter with
    | some expected => verifyOperandType f argument expected context
    | none => []

def verifyEdge (f : Function) (source : BasicBlock) (edge : BlockTarget) : List VerifyError :=
  match f.blocks[edge.block]? with
  | none => [finding f s!"block {source.id} branches to missing block {edge.block}"]
  | some destination =>
    require f (edge.arguments.length = destination.parameters.length)
      s!"edge {source.id} -> {edge.block} has {edge.arguments.length} arguments for {destination.parameters.length} parameters" ++
    verifyArguments f edge.arguments destination.parameters s!"edge {source.id} -> {edge.block}"

def declaredFunction (m : Module) (id : FunctionId) : Option Function :=
  m.functions[id]?.filter (·.id = id)

def Class.allMethods (c : Class) : List Method := c.constructor.toList ++ c.methods

def declaredMethodFunction (m : Module) (id : MethodId) : Option Function :=
  (m.classes.findSome? fun c => (c.allMethods.find? (·.id = id)).map Method.function).bind
    (declaredFunction m)

def callTypeMatches : ValueType → ValueType → Bool
  | .address actual, .address declared => actual.pointee = declared.pointee
  | actual, declared => actual = declared

def callParametersMatch (actual declared : List ValueType) : Bool :=
  actual.length = declared.length && (actual.zip declared).all fun (a, d) => callTypeMatches a d

/-- the async function that an async-call suspension names: a function or a method -/
def declaredAsync (m : Module) (target : CallTarget) : Option Function :=
  match target.kind with
  | .function id => declaredFunction m id
  | .method id => declaredMethodFunction m id
  | _ => none

def functionSignature (f : Function) : List ValueType × Option ValueType :=
  (f.parameters.filterMap fun p => valueType f p.value,
    if f.returnType = .void then none else some (.data f.returnType))

def isArray : Option ValueType → Bool
  | some (.data (.array _)) => true
  | _ => false

def verifySuspendKind (m : Module) (f : Function) (block : BlockId) (s : Suspend) :
    List VerifyError :=
  match s.kind with
  | .yield none =>
    require f (f.isGenerator && f.returnType = .generator .void)
      s!"block {block} value-less yield requires a generator of void"
  | .yield (some value) =>
    require f (valueType f value).isSome s!"block {block} yield names unknown value {value}"
  | .async => []
  | .asyncCall target operands =>
    require f ((declaredAsync m target).any Function.isAsync)
      s!"block {block} async-call target is not async" ++
    (match declaredAsync m target with
      | some callee =>
        require f
          (callParametersMatch target.parameterTypes (functionSignature callee).1 &&
            target.returnType = (functionSignature callee).2)
          s!"block {block} async-call signature disagrees with the target declaration"
      | none => [finding f s!"block {block} async-call target declaration is missing"]) ++
    require f (operands.length = target.parameterTypes.length)
      s!"block {block} async-call arity is invalid" ++
    ((operands.zip target.parameterTypes).flatMap fun (operand, expected) =>
      require f ((valueType f operand).any (callTypeMatches · expected))
        s!"block {block} async-call operand type is invalid") ++
    require f (target.returnType = s.resumeValue.bind (valueType f))
      s!"block {block} async-call resume type is invalid"
  | .asyncHandle handle _ =>
    let stale := s.traps.filter (·.kind = .devReloadOnlyStaleCoroutine)
    require f (stale.map Trap.pos = [s.pos])
      s!"block {block} held await needs one stale-coroutine site at its own position" ++
    (match valueType f handle with
      | some (.data (.asyncHandle value)) =>
        require f
          ((if value = .void then none else some (.data value)) = s.resumeValue.bind (valueType f))
          s!"block {block} held await resume type is invalid"
      | _ => [finding f s!"block {block} held await has an invalid handle"])

def verifySuspend (m : Module) (f : Function) (block : BlockId) (s : Suspend) : List VerifyError :=
  match f.blocks[s.successor]? with
  | none => [finding f s!"block {block} suspend successor {s.successor} is missing"]
  | some destination =>
    let parameters := destination.parameters.drop s.resumeValue.toList.length
    require f (s.resumeValue.isNone || s.resumeValue = destination.parameters.head?)
      s!"block {block} suspend resume value is not its successor parameter" ++
    require f (s.arguments.length = parameters.length)
      s!"block {block} suspend edge to {s.successor} has {s.arguments.length} arguments for {parameters.length} live-in parameters" ++
    verifyArguments f s.arguments parameters s!"suspend edge {block} -> {s.successor}" ++
    verifySuspendKind m f block s ++
    s.invalidates.flatMap fun v =>
      require f (isArray (valueType f v)) s!"block {block} suspend invalidates non-array value {v}"

/-- the traps that only an instruction may carry -/
def verifyTerminatorTrap (f : Function) (trap : Trap) : List VerifyError :=
  match trap.kind with
  | .sharedNullNarrowing =>
    [finding f "shared null narrowing requires a nullable-to-value conversion"]
  | .generatorDoneValue => [finding f "generator value guard requires a value field read"]
  | .nullNarrowing => [finding f "as null narrowing requires a checked cast"]
  | _ => []

def Terminator.traps : Terminator → List Trap
  | .trap t => [t]
  | .suspend s => s.traps
  | _ => []

def verifyTerminatorTypes (m : Module) (f : Function) (block : BasicBlock) : List VerifyError :=
  block.terminator.traps.flatMap (verifyTerminatorTrap f) ++
  match block.terminator with
  | .branch target => verifyEdge f block target
  | .conditionalBranch condition thenTarget elseTarget =>
    verifyEdge f block thenTarget ++ verifyEdge f block elseTarget ++
    verifyOperandType f condition (.data .bool) s!"block {block.id} conditional"
  | .switch value arms default =>
    (arms.map SwitchArm.target ++ [default]).flatMap (verifyEdge f block) ++
    require f (!arms.isEmpty) s!"block {block.id} switch has no arm (compiler.md §211)" ++
    arms.flatMap fun arm =>
      require f (operandType f value = some (.data arm.value.ty))
        s!"block {block.id} switch arm type differs from discriminant"
  | .return none =>
    require f (f.isGenerator || f.returnType = .void) s!"block {block.id} return type is invalid"
  | .return (some value) =>
    if f.returnType = .void then [finding f s!"block {block.id} return type is invalid"]
    else verifyOperandType f value (.data f.returnType) s!"block {block.id} return"
  | .unreachable | .trap _ => []
  | .suspend s => verifySuspend m f block.id s

inductive DefinitionSite where
  | entry
  | blockEntry (block : BlockId)
  | instruction (block : BlockId) (index : Nat)
  deriving DecidableEq

/-- the definitions of a block: its parameters, then the results of its instructions -/
def BasicBlock.definitionSites (block : BasicBlock) : List (ValueId × DefinitionSite) :=
  block.parameters.map (·, .blockEntry block.id) ++
  block.instructions.zipIdx.filterMap fun (i, index) =>
    i.result.map (·, .instruction block.id index)

/-- every definition of a value, in the order in which the verifier meets it -/
def definitionSites (f : Function) : List (ValueId × DefinitionSite) :=
  f.parameters.map (fun p => (p.value, .entry)) ++ f.blocks.flatMap BasicBlock.definitionSites

def definitionCount (f : Function) (v : ValueId) : Nat :=
  ((definitionSites f).filter (·.1 = v)).length

def countDefinition (f : Function) (v : ValueId) : List VerifyError :=
  require f (v < f.values.length) s!"definition names undeclared value {v}"

def verifyParameter (f : Function) (p : Parameter) : List VerifyError :=
  countDefinition f p.value ++
  require f (!f.values[p.value]?.any Value.freshOwner)
    s!"parameter value {p.value} is marked as a fresh async owner" ++
  match p.storage with
  | none => []
  | some storage =>
    let ok := match f.locals[storage]? with
      | some l => l.id = storage && some l.ty = valueType f p.value
      | none => false
    require f ok s!"parameter value {p.value} has invalid address-taken storage {storage}"

def verifyInstruction (f : Function) (block : BlockId) (i : Instruction) (index : Nat) :
    List VerifyError :=
  i.result.toList.flatMap (countDefinition f) ++
  (i.operands.zipIdx.flatMap fun (operand, operandIndex) =>
    require f (operandType f operand).isSome
      s!"block {block} instruction {index} operand {operandIndex} names an unknown value" ++
    verifyConstant f operand s!"block {block} instruction {index} operand {operandIndex}") ++
  i.invalidates.flatMap fun v =>
    require f (isArray (valueType f v))
      s!"block {block} instruction {index} invalidates non-array value {v}"

def verifyBlock (m : Module) (f : Function) (block : BasicBlock) (index : Nat) : List VerifyError :=
  require f (block.id = index) s!"block table index {index} carries id {block.id}" ++
  block.parameters.flatMap (countDefinition f) ++
  (block.instructions.zipIdx.flatMap fun (i, k) => verifyInstruction f block.id i k) ++
  verifyTerminatorTypes m f block

def verifyStructureAndTypes (m : Module) (f : Function) : List VerifyError :=
  (f.blocks.flatMap fun block => block.terminator.targets.flatMap fun edge =>
    require f (edge.ownership.length = edge.arguments.length)
      s!"block {block.id} edge to {edge.block} needs one ownership flag per argument") ++
  require f (f.blocks[f.entry]?.any (·.id = f.entry))
    s!"entry block {f.entry} is missing" ++
  (f.locals.zipIdx.flatMap fun (l, index) =>
    require f (l.id = index) s!"local table index {index} carries id {l.id}") ++
  (f.values.zipIdx.flatMap fun (v, index) =>
    require f (v.id = index) s!"value table index {index} carries id {v.id}") ++
  f.parameters.flatMap (verifyParameter f) ++
  (f.blocks.zipIdx.flatMap fun (block, index) => verifyBlock m f block index) ++
  (List.range f.values.length).flatMap fun v =>
    require f (definitionCount f v = 1)
      s!"value {v} has {definitionCount f v} definitions (expected exactly one)"

end Subscript.Lir
