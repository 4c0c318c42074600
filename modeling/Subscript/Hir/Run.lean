import Subscript.Flow.Comp
import Subscript.Flow.Scope
import Subscript.Hir.Syntax

/-! What HIR bodies do at run time, as far as locals, integers and accesses without a bounds check go. A
form whose value does not matter here evaluates some of its children, in any order, and gives any value; every
expression may throw, and a run may be cut anywhere, so that each prefix of a run is a run. -/

namespace Subscript

/-- the value of a sized integer after wrapping -/
def Ty.wrap (ty : Ty) (n : Int) : Int :=
  match ty.intBounds with
  | some (lo, hi) => lo + (n - lo) % (hi - lo + 1)
  | none => n

namespace Hir

open Flow

inductive Val where
  | int (n : Int)
  | bool (b : Bool)
  -- every other value
  | opaqueValue
  deriving DecidableEq

/-- how statements are left early; `cut` is the end of a prefix of a run -/
inductive Leave where
  | brk
  | cont
  | ret
  | threw
  | cut
  deriving DecidableEq

inductive Event where
  -- an access without a check: the index, and the length of the array
  | access (index : Int) (len : Nat)
  -- an addition, subtraction or multiplication that wrapped, inside an index or a `for` header or not
  | wrapped (decisive : Bool)
  deriving DecidableEq

/-- the locals in scope, innermost first -/
abbrev Env := Scope String Val

abbrev Run := Comp Env Event Leave

namespace Run

def anyValue : Run Val := Comp.choose fun v : Val => pure v

def anyBool : Run Bool := Comp.choose fun b : Bool => pure b

/-- an exception, or the end of the prefix -/
def mayStop : Run Unit :=
  Comp.choose fun stop : Option Bool =>
    match stop with
    | none => pure ()
    | some true => Comp.leave .threw
    | some false => Comp.leave .cut

def readLocal (name : String) : Run Val := do
  match (← Comp.get).lookup name with
  | some v => pure v
  | none => anyValue

def writeLocal (name : String) (v : Val) : Run Unit := Comp.modify (Scope.assign name v)

def declare (name : String) (v : Val) : Run Unit := Comp.modify ((name, v) :: ·)

/-- the variable of a `for`-`of` -/
def declareElement (name : String) : Run Unit := do
  let v ← anyValue
  declare name v

def declareCaught (binding : Option (String × Ty)) : Run Unit :=
  match binding with
  | some (name, _) => declare name .opaqueValue
  | none => pure ()

/-- an integer result in its type -/
def wrapped (ty : Ty) (n : Int) : Run Val :=
  if ty.wrap n = n then pure (.int n)
  else do
    Comp.emit (.wrapped false)
    pure (.int (ty.wrap n))

def binary (op : BinOp) (ty : Ty) (a b : Val) : Run Val :=
  match op, a, b with
  | .add, .int a, .int b => wrapped ty (a + b)
  | .sub, .int a, .int b => wrapped ty (a - b)
  | .mul, .int a, .int b => wrapped ty (a * b)
  | .lt, .int a, .int b => pure (.bool (a < b))
  | .le, .int a, .int b => pure (.bool (a ≤ b))
  | _, _, _ => anyValue

/-- the new value of a local -/
def assigned (op : Option BinOp) (ty : Ty) (old v : Val) : Run Val :=
  match op with
  | some op => binary op ty old v
  | none => pure v

def cast (ty : Ty) : Val → Run Val
  | .int n => pure (.int (ty.wrap n))
  | _ => anyValue

def length : Ty → Run Val
  | .fixedArray _ len => pure (.int len)
  | _ => anyValue

def access (checked : Bool) (ty : Ty) (index : Val) : Run Unit :=
  match checked, ty, index with
  | false, .fixedArray _ len, .int n => Comp.emit (.access n len)
  | _, _, _ => pure ()

/-- the wrapping inside an index or a `for` header decides what the analysis may conclude -/
def markDecisive : Event → Event
  | .wrapped _ => .wrapped true
  | e => e

def decisive {α : Type} (c : Run α) : Run α := Comp.mapEvents markDecisive c

def truth : Val → Run Bool
  | .bool b => pure b
  | _ => anyBool

def inScope {α : Type} (c : Run α) : Run α := Comp.within Scope.leave c

/-- the body of a loop: whether the loop goes on -/
def loopBody (c : Run Unit) : Run Bool :=
  Comp.after (inScope c) fun
    | .done () | .left .cont => pure true
    | .left .brk => pure false
    | .left k => Comp.leave k

/-- the rounds of a `for` -/
def rounds (cond : Run Bool) (step body : Run Unit) : Run Unit := Comp.loop do
  if ← decisive cond then
    if ← loopBody body then
      inScope (decisive step)
      pure true
    else pure false
  else pure false

/-- the rounds of a `for`-`of`, each with some element -/
def elements (name : String) (body : Run Unit) : Run Unit := Comp.loop do
  if ← anyBool then
    loopBody do
      declareElement name
      inScope body
  else pure false

/-- the arms of a `switch` end with a `break` -/
def switchBody (c : Run Unit) : Run Unit :=
  Comp.after c fun
    | .done () | .left .brk => pure ()
    | .left k => Comp.leave k

def catching (c handler : Run Unit) : Run Unit :=
  Comp.after c fun
    | .done () => pure ()
    | .left .threw => handler
    | .left k => Comp.leave k

/-- the finalizer runs however the body ends, unless the run is cut -/
def finally_ (c finalizer : Run Unit) : Run Unit :=
  Comp.after c fun
    | .done () => finalizer
    | .left .cut => Comp.leave .cut
    | .left k => do
      finalizer
      Comp.leave k

end Run

open Run

mutual

def eval : Expr → Run Val
  | .mk op ty _ args body => do
    mayStop
    match op, args with
    | .int value, _ => pure (.int value)
    | .enumMember value, _ => pure (.int value)
    | .localVar name, _ => readLocal name
    | .length, [obj] => do
      let _ ← eval obj
      length obj.ty
    | .binary .and, args => do
      Comp.loop (evalOne args)
      anyValue
    | .binary .or, args => do
      Comp.loop (evalOne args)
      anyValue
    | .binary op, [left, right] => do
      let a ← eval left
      let b ← eval right
      binary op ty a b
    | .cast, [inner] => do
      let v ← eval inner
      cast ty v
    | .index checked, [obj, index] => do
      let _ ← eval obj
      let i ← decisive (eval index)
      access checked obj.ty i
      anyValue
    | .assign op, [target, value] =>
      match target.localName with
      | some name => do
        -- a compound assignment reads the local first
        let old ← readLocal name
        let v ← eval value
        let new ← assigned op target.ty old v
        writeLocal name new
        anyValue
      | none => do
        let _ ← eval target
        let _ ← eval value
        anyValue
    -- the calls of a lambda, each in an environment of its own, are put where it is created
    | .lambda _ _ _ _, defaults => do
      Comp.loop do
        Comp.apart (Comp.loop (evalOne defaults))
        Comp.apart (execAll body)
        anyBool
      pure .opaqueValue
    | _, args => do
      Comp.loop (evalOne args)
      anyValue

/-- one of the expressions, or none: a loop of it evaluates some of them, in any order -/
def evalOne : List Expr → Run Bool
  | [] => pure false
  | e :: es => Comp.choose fun first : Bool =>
    if first then do
      let _ ← eval e
      pure true
    else evalOne es

def exec : Stmt → Run Unit
  | .letDecl name _ _ init _ => do
    let v ← eval init
    declare name v
  | .expr e => do
    let _ ← eval e
  | .ret none => Comp.leave .ret
  | .ret (some value) => do
    let _ ← eval value
    Comp.leave .ret
  | .ifElse cond then_ els => do
    let v ← eval cond
    if ← truth v then inScope (execAll then_) else inScope (execAll els)
  | .whileLoop cond body => Comp.loop do
    let v ← eval cond
    if ← truth v then loopBody (execAll body) else pure false
  | .doWhile body cond => Comp.loop do
    if ← loopBody (execAll body) then
      let v ← eval cond
      truth v
    else pure false
  | .forLoop init cond step body => inScope do
    decisive (execInit init)
    rounds (evalCondition cond) (execAll step) (execAll body)
  | .forOf name _ subject _ body _ => do
    let _ ← eval subject
    elements name (execAll body)
  | .generatorForOf name _ _ subject body _ => do
    let _ ← eval subject
    elements name (execAll body)
  | .switch disc cases => do
    let _ ← eval disc
    evalTests cases
    switchBody (execFrom cases)
  | .breakLoop => Comp.leave .brk
  | .continueLoop => Comp.leave .cont
  | .block body => inScope (execAll body)
  | .throw value => do
    let _ ← eval value
    Comp.leave .threw
  | .tryCatch body binding handler _ =>
    catching (inScope (execAll body)) <| inScope do
      declareCaught binding
      execAll handler
  | .using _ body finalizer _ => finally_ (inScope (execAll body)) (inScope (execAll finalizer))

def execInit : Option Stmt → Run Unit
  | none => pure ()
  | some s => exec s

def evalCondition : Option Expr → Run Bool
  | none => pure true
  | some e => do
    let v ← eval e
    truth v

def execAll : List Stmt → Run Unit
  | [] => mayStop
  | s :: ss => do
    exec s
    execAll ss

/-- the tests of a `switch`, as far as they are evaluated -/
def evalTests : List SwitchCase → Run Unit
  | [] => pure ()
  | .mk test _ :: cases => do
    let _ ← evalCondition test
    if ← anyBool then evalTests cases else pure ()

/-- one arm, and those after it -/
def execFrom : List SwitchCase → Run Unit
  | [] => pure ()
  | .mk _ body :: cases => Comp.choose fun here : Bool =>
    if here then do
      inScope (execAll body)
      execRest cases
    else execFrom cases

def execRest : List SwitchCase → Run Unit
  | [] => pure ()
  | .mk _ body :: cases => do
    inScope (execAll body)
    execRest cases

end

end Hir

end Subscript
