import Subscript.Lir.Verify

/-! Raise sites and handler edges (`verify_raise.rs`): a handler block starts with a catch entry, is
reached from one raise site, and itself reads nothing that the raising block defines late. -/

namespace Subscript.Lir

/-- whether the function of a direct call target carries `can_raise` -/
def targetCanRaise (m : Module) (target : CallTarget) : Bool :=
  let functionCanRaise (id : FunctionId) := m.functions[id]?.any Function.canRaise
  match target.kind with
  | .function id | .staticClosure id => functionCanRaise id
  | .method id =>
    ((m.classes.flatMap Class.allMethods).find? (·.id = id)).any (functionCanRaise ·.function)
  | .indirect => true
  | .intrinsic _ | .builtinMethod _ | .foreign _ => false

/-- whether an operation of the table calls a script callback -/
def IntrinsicOperation.callsBack (op : IntrinsicOperation) : Bool :=
  match op.family with
  | .array =>
    ["ForEach", "Map", "Filter", "Reduce", "ReduceRight", "Some", "Every", "FindIndex", "Find",
      "FindLast", "FindLastIndex", "FlatMap", "Sort"].contains op.semanticName
  | .map => ["ForEach", "GroupBy"].contains op.semanticName
  | .set => op.semanticName = "ForEach"
  | _ => false

/-- whether awaiting a suspension of this kind can raise -/
def SuspendKind.raises (m : Module) : SuspendKind → Bool
  | asyncHandle .. => true
  | asyncCall target _ => targetCanRaise m target
  | yield _ | async => false

def SuspendKind.isAwait : SuspendKind → Bool
  | asyncHandle .. | asyncCall .. => true
  | yield _ | async => false

/-- the suspensions of a function -/
def Function.suspensions (f : Function) : List Suspend :=
  f.blocks.filterMap fun block =>
    match block.terminator with
    | .suspend s => some s
    | _ => none

/-- whether `i` can leave an exception pending -/
def isRaiseSite (m : Module) (f : Function) (block : BlockId) (i : Instruction) : Bool :=
  match i.kind with
  | .throw | .exceptionResume | .exceptionRestore => true
  | .awaitRaise => f.suspensions.any fun s => s.successor = block && s.kind.raises m
  | .call target =>
    match target.kind with
    | .intrinsic operation =>
      (m.intrinsicOperations.find? fun op =>
        op.family = operation.family && op.operation = operation.operation).any
          IntrinsicOperation.callsBack
    | .builtinMethod _ => false
    | _ => targetCanRaise m target
  | _ => false

def startsHandler (i : Instruction) : Bool :=
  match i.kind with
  | .catchEntry | .exceptionPark | .exceptionMessage => true
  | _ => false

/-- the three instructions that capture a frame-owned exception stand first in the block -/
def capturesException (block : BasicBlock) : Bool :=
  block.instructions[1]?.any (·.kind = .exceptionPosition) &&
  block.instructions[2]?.any fun i => i.kind = .catchEntry && i.result.isSome

def verifyRaiseSite (m : Module) (f : Function) (block : BasicBlock) (i : Instruction)
    (index : Nat) : List VerifyError :=
  let site := s!"block {block.id} instruction {index}"
  let edges := (i.traps.filter fun t => t.raiseEdge?.isSome).length
  require f (edges ≤ 1) s!"{site} carries {edges} raise edges" ++
  require f (!(edges = 0 && isRaiseSite m f block.id i))
    s!"{site} is a raise site with no raise edge" ++
  require f (!(i.raiseEdge = some .propagate && !f.canRaise && !f.isGenerator))
    s!"{site} propagates an exception from a function that cannot raise" ++
  require f (!(i.kind = .exceptionMessage && !(index = 0 && capturesException block)))
    s!"{site} has no complete frame-owned exception capture" ++
  require f
    (!(startsHandler i && index ≠ 0 &&
      !(index = 2 && i.kind = .catchEntry &&
        block.instructions[0]?.any (·.kind = .exceptionMessage) &&
        block.instructions[1]?.any (·.kind = .exceptionPosition))))
    s!"{site} is a catch entry that does not start its block"

/-- the raise sites whose edge names a handler: the handler, the raising block and the site -/
def handlerEdges (f : Function) : List (BlockId × BlockId × Nat) :=
  f.blocks.flatMap fun block => block.instructions.zipIdx.filterMap fun (i, index) =>
    i.handler.map (·, block.id, index)

/-- whether block `source` defines `v` at or after `site` -/
def definesLate (f : Function) (source : BlockId) (site : Nat) (v : ValueId) : Bool :=
  f.blocks[source]?.any fun block => block.instructions.zipIdx.any fun (i, index) =>
    site ≤ index && i.result = some v

def verifyHandler (f : Function) (handler : BlockId) (sources : List (BlockId × Nat)) :
    List VerifyError :=
  match f.blocks[handler]?.filter (·.id = handler) with
  | none => [finding f s!"raise edge names missing handler block {handler}"]
  | some block =>
    require f (block.instructions.head?.any startsHandler)
      s!"handler block {handler} does not start with a catch entry" ++
    require f block.parameters.isEmpty
      s!"handler block {handler} has block parameters; a raise edge carries none" ++
    require f (sources.length = 1)
      s!"handler block {handler} is the target of {sources.length} raise sites" ++
    block.valueUses.flatMap fun v => sources.flatMap fun (source, site) =>
      require f (!definesLate f source site v)
        s!"handler block {handler} reads value {v} that block {source} defines at or after its raise site"

def verifyAwaitRaises (m : Module) (f : Function) : List VerifyError :=
  let required := (f.suspensions.filter (·.kind.raises m)).map Suspend.successor
  let reads := (f.suspensions.filter (·.kind.isAwait)).map Suspend.successor
  f.blocks.flatMap fun block =>
    (block.instructions.zipIdx.flatMap fun (i, index) =>
      let quietRead := reads.contains block.id && i.traps.all (·.kind = .call)
      require f
        (!(i.kind = .awaitRaise &&
          (index ≠ 0 || (!required.contains block.id && !quietRead))))
        s!"block {block.id} instruction {index} is an await raise site outside the start of a raising await's resume successor") ++
    require f
      (!(required.contains block.id && !block.instructions.head?.any (·.kind = .awaitRaise)))
      s!"block {block.id} resumes an await that can raise and does not start with its raise site"

def verifyRaiseEdges (m : Module) (f : Function) : List VerifyError :=
  (f.blocks.flatMap fun block => block.instructions.zipIdx.flatMap fun (i, index) =>
    verifyRaiseSite m f block i index) ++
  (f.blocks.flatMap fun block => block.terminator.successors.flatMap fun target =>
    require f (!f.blocks[target]?.any fun block => block.instructions.head?.any startsHandler)
      s!"block {block.id} reaches catch-entry block {target} by an ordinary edge") ++
  -- the source visits the handlers in the order of a hash map; here in the order of their first site
  (((handlerEdges f).map Prod.fst).eraseDups.flatMap fun handler =>
    verifyHandler f handler (((handlerEdges f).filter (·.1 = handler)).map Prod.snd)) ++
  verifyAwaitRaises m f ++
  f.blocks.flatMap fun block =>
    match block.terminator with
    | .trap t =>
      require f
        (!(t.kind = .disposeRaisedDuringExit &&
          !block.instructions.head?.any (·.kind = .catchEntry)))
        s!"block {block.id} traps with dispose-raised-during-exit without a catch entry"
    | _ => []

end Subscript.Lir
