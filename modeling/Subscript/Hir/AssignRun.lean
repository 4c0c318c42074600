import Subscript.Flow.Comp
import Subscript.Flow.Scope
import Subscript.Hir.Syntax

/-! What HIR bodies do at run time, as far as the assignment of locals and of the fields of `this` goes. Expressions
evaluate their children in order. Branches go either way unless the condition is a literal, an exception can be raised
everywhere, and a run may be cut anywhere, so that each prefix of a run is a run. -/

namespace Subscript.Hir.Assign

open Flow

/-- how statements are left early; `closed` is a generator that is dropped at a `yield`, `cut` the end of a prefix -/
inductive Leave where
  | brk
  | cont
  | ret
  | threw
  | closed
  | cut
  deriving DecidableEq

inductive Event where
  -- a read of a local that holds no value yet, with its declaration
  | unassigned (name : String) (declaration : Pos)
  -- the value that a `switch` dispatches on
  | dispatch (disc : Expr) (cases : List SwitchCase) (value : Int)

structure Slot where
  -- absent for parameters and for the variables of `for`-`of` and `catch`
  declaration : Option Pos
  assigned : Bool

/-- the locals in scope, innermost first, and the fields of `this` that were assigned -/
structure Store where
  locals : Scope String Slot
  fields : List String

abbrev Run := Comp Store Event Leave

namespace Run

def anyBool : Run Bool := Comp.choose fun b : Bool => pure b

def anyInt : Run Int := Comp.choose fun n : Int => pure n

/-- an exception, or the end of the prefix -/
def mayStop : Run Unit :=
  Comp.choose fun stop : Option Bool =>
    match stop with
    | none => pure ()
    | some true => Comp.leave .threw
    | some false => Comp.leave .cut

def mayClose : Run Unit := Comp.choose fun close : Bool => if close then Comp.leave .closed else pure ()

def readLocal (name : String) : Run Unit := do
  match (← Comp.get).locals.lookup name with
  | some ⟨some declaration, false⟩ => Comp.emit (.unassigned name declaration)
  | _ => pure ()

/-- the innermost local of the name holds a value now -/
def assigned (name : String) : Scope String Slot → Scope String Slot
  | [] => []
  | (n, slot) :: locals => if n = name then (n, { slot with assigned := true }) :: locals else (n, slot) :: assigned name locals

def write : Expr → Run Unit
  | .mk (.localVar name) _ _ _ _ => Comp.modify fun s => { s with locals := assigned name s.locals }
  | .mk (.field name) _ _ [.mk .this _ _ _ _] _ => Comp.modify fun s => { s with fields := name :: s.fields }
  | _ => pure ()

def declare (name : String) (slot : Slot) : Run Unit :=
  Comp.modify fun s => { s with locals := (name, slot) :: s.locals }

def declareCaught (binding : Option (String × Ty)) : Run Unit :=
  match binding with
  | some (name, _) => declare name ⟨none, true⟩
  | none => pure ()

def leaveScope (outer s : Store) : Store := { s with locals := Scope.leave outer.locals s.locals }

def inScope {α : Type} (c : Run α) : Run α := Comp.within leaveScope c

/-- the body of a loop: whether the loop goes on -/
def loopBody (c : Run Unit) : Run Bool :=
  Comp.after (inScope c) fun
    | .done () | .left .cont => pure true
    | .left .brk => pure false
    | .left k => Comp.leave k

/-- the arms of a `switch` end with a `break` -/
def switchBody (c : Run Unit) : Run Unit :=
  Comp.after c fun
    | .done () | .left .brk => pure ()
    | .left k => Comp.leave k

def catching (c handler : Run Unit) : Run Unit :=
  Comp.after c fun
    | .done () => pure ()
    | .left .threw => handler
    | .left k => Comp.leave k

/-- what runs however `c` ends, unless the run is cut -/
def finally_ (c finalizer : Run Unit) : Run Unit :=
  Comp.after c fun
    | .done () => finalizer
    | .left .cut => Comp.leave .cut
    | .left k => do
      finalizer
      Comp.leave k

def outcome (test : Expr) : Run Bool :=
  match test.op with
  | .bool value => pure value
  | _ => anyBool

/-- whether a test of a `switch` matches the value -/
def isMatch (value : Int) (test : Expr) : Run Bool :=
  match test.op with
  | .int n => pure (n == value)
  | .enumMember n => pure (n == value)
  | _ => anyBool

end Run

open Run

mutual

/-- the value of an expression, or the address of an assignment's target -/
def evalAs (place : Bool) : Expr → Run Unit
  | .mk op _ _ args _ => do
    mayStop
    match op, args with
    | .localVar name, _ => if place then pure () else readLocal name
    | .assign op, [target, value] => do
      evalAs op.isNone target
      evalAs false value
      mayStop
      write target
    | .binary .and, [left, right] => do
      evalAs false left
      if ← anyBool then evalAs false right else pure ()
    | .binary .or, [left, right] => do
      evalAs false left
      if ← anyBool then evalAs false right else pure ()
    | .cond, [cond, then_, els] => do
      evalAs false cond
      if ← anyBool then evalAs false then_ else evalAs false els
    -- the body runs when the lambda is called, with locals of its own
    | .lambda _ _ _ _, _ => pure ()
    | .yield, args => do
      evalAll args
      mayClose
    | _, args => do
      evalAll args
      mayStop

def evalAll : List Expr → Run Unit
  | [] => pure ()
  | e :: es => do
    evalAs false e
    evalAll es

end

abbrev eval : Expr → Run Unit := evalAs false

def evalCondition : Option Expr → Run Bool
  | none => pure true
  | some e => do
    eval e
    outcome e

def isAlias : Ty → Bool
  | .stringAlias _ => true
  | _ => false

/-- the tests of a `switch`, in order, up to one that matches -/
def matchTest (value : Int) : List SwitchCase → Nat → Run (Option Nat)
  | [], _ => pure none
  | .mk none _ :: cases, i => matchTest value cases (i + 1)
  | .mk (some test) _ :: cases, i => do
    eval test
    if ← isMatch value test then pure (some i) else matchTest value cases (i + 1)

def defaultIndex (cases : List SwitchCase) : Option Nat :=
  cases.findIdx? fun | .mk test _ => test.isNone

mutual

def exec : Stmt → Run Unit
  | .letDecl name _ _ init pos => do
    eval init
    declare name ⟨some pos, !init.isUnassigned⟩
  | .expr e => do
    eval e
    if e.isUnreachable then Comp.leave .cut else pure ()
  | .ret none => Comp.leave .ret
  | .ret (some value) => do
    eval value
    Comp.leave .ret
  | .ifElse cond then_ els => do
    if ← evalCondition (some cond) then inScope (execAll then_) else inScope (execAll els)
  | .whileLoop cond body => Comp.loop do
    if ← evalCondition (some cond) then loopBody (execAll body) else pure false
  | .doWhile body cond => Comp.loop do
    if ← loopBody (execAll body) then evalCondition (some cond) else pure false
  | .forLoop init cond step body => inScope do
    execInit init
    Comp.loop do
      if ← evalCondition cond then
        if ← loopBody (execAll body) then
          inScope (execAll step)
          pure true
        else pure false
      else pure false
  | .forOf name _ subject _ body _ => do
    eval subject
    Comp.loop do
      if ← anyBool then
        loopBody do
          declare name ⟨none, true⟩
          execAll body
      else pure false
  | .generatorForOf name _ _ subject body _ => do
    eval subject
    Comp.loop do
      mayStop
      if ← anyBool then
        loopBody do
          declare name ⟨none, true⟩
          execAll body
      else pure false
  | .switch disc cases => do
    eval disc
    let value ← anyInt
    Comp.emit (.dispatch disc cases value)
    let found ← matchTest value cases 0
    match found.or (defaultIndex cases) with
    | some i => switchBody (execFrom cases i)
    | none => if isAlias disc.ty then Comp.leave .cut else pure ()
  | .breakLoop => Comp.leave .brk
  | .continueLoop => Comp.leave .cont
  | .block body => inScope (execAll body)
  | .throw value => do
    eval value
    Comp.leave .threw
  | .tryCatch body binding handler _ =>
    catching (inScope (execAll body)) <| inScope do
      declareCaught binding
      execAll handler
  -- a hook can raise, and the finalizer runs after it
  | .using _ body finalizer _ =>
    finally_ (finally_ (inScope (execAll body)) mayStop) (inScope (execAll finalizer))

def execInit : Option Stmt → Run Unit
  | none => pure ()
  | some s => exec s

def execAll : List Stmt → Run Unit
  | [] => mayStop
  | s :: ss => do
    exec s
    execAll ss

/-- the arms from the given one on -/
def execFrom : List SwitchCase → Nat → Run Unit
  | [], _ => pure ()
  | .mk _ body :: cases, 0 => do
    inScope (execAll body)
    execFrom cases 0
  | _ :: cases, i + 1 => execFrom cases i

end

end Subscript.Hir.Assign
