import Subscript.Lir.LiveIns
import Subscript.Lir.Versions
import Subscript.Flow.Worklist

/-! `thread_suspension_live_ins` (`liveness.rs`): every value that is live across a suspend edge becomes a
parameter of the suspend successor, and the uses below are given the version that reaches them. -/

namespace Subscript.Lir

structure LowerError where
  message : String
  deriving DecidableEq

/-- the counted owners at one state of a generator, by its suspension -/
structure GeneratorCleanup where
  suspension : Option BlockId
  owners : List ValueId
  deriving DecidableEq

structure Liveness where
  /-- the values live at each block entry -/
  liveIns : List (List ValueId)
  /-- the original value of each version -/
  valueOrigins : List ValueId
  generatorCleanup : List GeneratorCleanup
  deriving DecidableEq

section Rewriting

def replaceId (original : ValueId) (replacement : Option ValueId) (v : ValueId) : ValueId :=
  match replacement with
  | some r => if v = original then r else v
  | none => v

def Operand.mapValue (map : ValueId → ValueId) : Operand → Operand
  | value v => value (map v)
  | constant c => constant c

def replaceOperands (original : ValueId) (replacement : Option ValueId) (operands : List Operand) : List Operand :=
  operands.map (Operand.mapValue (replaceId original replacement))

def replaceIds (original : ValueId) (replacement : Option ValueId) (values : List ValueId) : List ValueId :=
  values.map (replaceId original replacement)

def BlockTarget.mapValues (map : ValueId → ValueId) (target : BlockTarget) : BlockTarget :=
  { target with arguments := target.arguments.map (Operand.mapValue map) }

def SuspendKind.mapValues (map : ValueId → ValueId) : SuspendKind → SuspendKind
  | yield value => yield (value.map map)
  | async => async
  | asyncCall target operands => asyncCall target (operands.map map)
  | asyncHandle handle owned => asyncHandle (map handle) owned

/-- `map_values`: the reads and the invalidations, not the resume value -/
def Terminator.mapValues (map : ValueId → ValueId) : Terminator → Terminator
  | branch target => branch (target.mapValues map)
  | conditionalBranch condition thenTarget elseTarget =>
    conditionalBranch (condition.mapValue map) (thenTarget.mapValues map) (elseTarget.mapValues map)
  | switch value arms default =>
    switch (value.mapValue map) (arms.map fun arm => { arm with target := arm.target.mapValues map })
      (default.mapValues map)
  | «return» value => «return» (value.map (Operand.mapValue map))
  | suspend s =>
    suspend { s with
      kind := s.kind.mapValues map
      arguments := s.arguments.map (Operand.mapValue map)
      invalidates := s.invalidates.map map }
  | unreachable => unreachable
  | trap t => trap t

def replaceTerminatorUses (original : ValueId) (replacement : Option ValueId) (t : Terminator) : Terminator :=
  t.mapValues (replaceId original replacement)

def replaceAddressBase (values : List Value) (v original : ValueId) (replacement : Option ValueId) : List Value :=
  values.modify v fun value =>
    match value.ty, replacement with
    | .address ⟨pointee, some base⟩, some r =>
      if base = original then { value with ty := .address ⟨pointee, some r⟩ } else value
    | _, _ => value

def BlockTarget.append (destination : BlockId) (argument : Operand) (target : BlockTarget) : BlockTarget :=
  if target.block = destination then
    { target with arguments := target.arguments ++ [argument], ownership := target.ownership ++ [false] }
  else target

def appendNormalEdgeArgument (destination : BlockId) (argument : Operand) : Terminator → Terminator
  | .branch target => .branch (target.append destination argument)
  | .conditionalBranch condition thenTarget elseTarget =>
    .conditionalBranch condition (thenTarget.append destination argument) (elseTarget.append destination argument)
  | .switch value arms default =>
    .switch value (arms.map fun arm => { arm with target := arm.target.append destination argument })
      (default.append destination argument)
  | .return value => .return value
  | .unreachable => .unreachable
  | .trap t => .trap t
  | .suspend s => .suspend s

end Rewriting

section Graph

def successorsOf (f : Function) (b : BlockId) : List BlockId := (f.blocks[b]?.map BasicBlock.successors).getD []

def reachableBlocks (f : Function) : List Bool :=
  let visited := Flow.visits (successorsOf f) ((f.blocks.map (·.successors.length)).sum + 2) [f.entry] ∅
  (List.range f.blocks.length).map (· ∈ visited)

def versionGraph (f : Function) : VersionGraph where
  count := f.blocks.length
  predecessors b := (predecessors f).getD b []
  reachable b := (reachableBlocks f).getD b false

/-- for each block the originals that it carries, with their parameters -/
abbrev Carried := List (List (ValueId × ValueId))

/-- the parameter in which block `b` carries the original -/
def Carried.parameter (carried : Carried) (original : ValueId) (b : BlockId) : Option ValueId :=
  (carried.getD b []).findSome? fun (candidate, parameter) => if candidate = original then some parameter else none

def originFacts (f : Function) (count : Nat) (liveIn : LiveSets) (carried : Carried) (origin : ValueId) :
    OriginFacts where
  origin
  special := carried.parameter origin
  entryDefinition b := f.blocks[b]?.any fun block =>
    (block.parameters.takeWhile (· < count)).any (· = origin) ||
      (block.id = f.entry && f.parameters.any (·.value = origin))
  instructionDefinition b := f.blocks[b]?.any (·.instructions.any (·.result = some origin))
  live b := origin ∈ liveIn.of b

end Graph

section Carrying

/-- a suspension keeps only the invalidations of values that its successor needs -/
def retainInvalidates (liveIn : LiveSets) (block : BasicBlock) : BasicBlock :=
  match block.terminator with
  | .suspend s =>
    { block with terminator := .suspend { s with invalidates := s.invalidates.filter (· ∈ liveIn.of s.successor) } }
  | _ => block

structure Carrying where
  function : Function
  valueOrigins : List ValueId
  carried : Carried

def carryValue (destination : BlockId) (c : Carrying) (original : ValueId) : Except LowerError Carrying :=
  match c.function.values[original]? with
  | none => .error ⟨s!"live-in value {original} is missing"⟩
  | some definition =>
    let parameter := c.function.values.length
    .ok {
      function := { c.function with
        values := c.function.values ++ [{ definition with id := parameter }]
        blocks := c.function.blocks.modify destination fun block =>
          { block with parameters := block.parameters ++ [parameter] } }
      valueOrigins := c.valueOrigins ++ [original]
      carried := c.carried.modify destination (· ++ [(original, parameter)]) }

def carrySuccessor (liveIn : LiveSets) (c : Carrying) (successor : BlockId) : Except LowerError Carrying :=
  match c.function.blocks[successor]? with
  | none => .error ⟨s!"suspend successor block {successor} is missing"⟩
  | some destination => (ascending (liveIn.of successor)).foldlM (carryValue destination.id) c

def suspendSuccessors (f : Function) : List BlockId :=
  ascending (f.blocks.filterMap (·.terminator.resume?)).toFinset

def carryLiveIns (f : Function) (liveIn : LiveSets) : Except LowerError Carrying :=
  (suspendSuccessors f).foldlM (carrySuccessor liveIn)
    { function := { f with blocks := f.blocks.map (retainInvalidates liveIn) }
      valueOrigins := List.range f.values.length
      carried := List.replicate f.blocks.length [] }

def Carrying.origins (c : Carrying) : List ValueId :=
  ascending (c.carried.flatMap (·.map Prod.fst)).toFinset

end Carrying

section Origin

structure Threading where
  function : Function
  valueOrigins : List ValueId
  cleanup : List GeneratorCleanup

/-- the merge parameters, which the loop only numbered, enter the function -/
def pushMerges (O : OriginFacts) (s : Versions) (t : Threading) : Threading :=
  let first := t.function.values.length
  let copies := (t.function.values[O.origin]?).elim [] fun definition =>
    (List.range (s.fresh - first)).map fun i => { definition with id := first + i }
  { t with
    function := { t.function with
      values := t.function.values ++ copies
      blocks := t.function.blocks.mapIdx fun b block =>
        { block with parameters := block.parameters ++ (s.merges.of b).toList } }
    valueOrigins := t.valueOrigins ++ List.replicate (s.fresh - first) O.origin }

/-- the rewriting of a block as far as it has come, with the version that is current -/
structure BlockRewrite where
  values : List Value
  current : Option ValueId
  instructions : List Instruction

def BlockRewrite.instruction (origin : ValueId) (r : BlockRewrite) (i : Instruction) : BlockRewrite where
  values := i.result.elim r.values fun result => replaceAddressBase r.values result origin r.current
  current := if i.result = some origin then some origin else r.current
  instructions := r.instructions ++ [{ i with
    operands := replaceOperands origin r.current i.operands
    invalidates := replaceIds origin r.current i.invalidates }]

def rewriteBlock (origin : ValueId) (current : Option ValueId) (block : BasicBlock) (values : List Value) :
    BlockRewrite :=
  let values := block.parameters.foldl
    (fun values p => if p = origin then values else replaceAddressBase values p origin current) values
  block.instructions.foldl (BlockRewrite.instruction origin) ⟨values, current, []⟩

def rewriteCleanup (origin : ValueId) (current : Option ValueId) (b : BlockId) (cleanup : List GeneratorCleanup) :
    List GeneratorCleanup :=
  cleanup.map fun c =>
    if c.suspension = some b then { c with owners := replaceIds origin current c.owners } else c

def rewriteVisit (G : VersionGraph) (O : OriginFacts) (s : Versions) (t : Threading) (b : BlockId) : Threading :=
  match G.reachable b, t.function.blocks[b]? with
  | true, some block =>
    let current := if O.entryDefinition b then some O.origin else s.incoming.of b
    let r := rewriteBlock O.origin current block t.function.values
    { t with
      function := { t.function with
        values := r.values
        blocks := t.function.blocks.set b { block with
          instructions := r.instructions
          terminator := replaceTerminatorUses O.origin r.current block.terminator } }
      cleanup := rewriteCleanup O.origin r.current block.id t.cleanup }
  | _, _ => t

/-- every normal edge into the merging block `destination` passes the version of its source -/
def passMerge (G : VersionGraph) (s : Versions) (blocks : List BasicBlock) (destination : BlockId) : List BasicBlock :=
  match s.merges.of destination, blocks[destination]? with
  | some _, some target =>
    blocks.mapIdx fun b block =>
      match G.reachable b, s.outgoing.of b with
      | true, some version =>
        { block with terminator := appendNormalEdgeArgument target.id (.value version) block.terminator }
      | _, _ => block
  | _, _ => blocks

/-- a suspension into a block that carries the origin passes the version of its source -/
def passSuspend (O : OriginFacts) (s : Versions) (b : BlockId) (block : BasicBlock) : Except LowerError BasicBlock :=
  match block.terminator with
  | .suspend sus =>
    if (O.special sus.successor).isSome then
      match s.outgoing.of b with
      | none =>
        .error ⟨s!"value {O.origin} is live at suspend in block {block.id} but has no reaching definition"⟩
      | some version =>
        .ok { block with terminator := .suspend { sus with
          arguments := sus.arguments ++ [.value version]
          ownership := sus.ownership ++ [false] } }
    else .ok block
  | _ => .ok block

/-- the uses of one origin, once its versions are known -/
def applyVersions (G : VersionGraph) (O : OriginFacts) (s : Versions) (t : Threading) : Except LowerError Threading :=
  let t := (List.range G.count).foldl (rewriteVisit G O s) (pushMerges O s t)
  let blocks := (List.range G.count).foldl (passMerge G s) t.function.blocks
  match (blocks.zipIdx).mapM fun (block, b) => passSuspend O s b block with
  | .ok blocks => .ok { t with function := { t.function with blocks } }
  | .error e => .error e

def threadOrigins (fuel : Nat) (G : VersionGraph) (facts : Function → ValueId → OriginFacts) :
    List ValueId → Threading → Option (Except LowerError Threading)
  | [], t => some (.ok t)
  | origin :: rest, t =>
    match versions G (facts t.function origin) fuel t.function.values.length with
    | none => none
    | some s =>
      match applyVersions G (facts t.function origin) s t with
      | .error e => some (.error e)
      | .ok t => threadOrigins fuel G facts rest t

end Origin

/-- The pass. `fuel` bounds the rounds of each of its loops; without a result it has not ended. -/
def threadSuspensionLiveIns (fuel : Nat) (f : Function) (cleanup : List GeneratorCleanup) :
    Option (Except LowerError (Function × Liveness)) :=
  match lirLiveIns fuel f f.values.length with
  | none => none
  | some liveIn =>
    match carryLiveIns f liveIn with
    | .error e => some (.error e)
    | .ok c =>
      let facts := fun function => originFacts function f.values.length liveIn c.carried
      match threadOrigins fuel (versionGraph c.function) facts c.origins ⟨c.function, c.valueOrigins, cleanup⟩ with
      | none => none
      | some (.error e) => some (.error e)
      | some (.ok t) => some (.ok (t.function, ⟨liveIn.map ascending, t.valueOrigins, t.cleanup⟩))

end Subscript.Lir
