import Subscript.Hir.Syntax

/-! Which bounds checks of fixed arrays are removed (`trap_sites.rs`): intervals of index expressions, with
the counters of counted loops in the ranges the loop headers give them. -/

namespace Subscript.Hir

/-- an inclusive interval -/
structure Interval where
  lo : Int
  hi : Int
  deriving DecidableEq

def i64Min : Int := -2 ^ 63
def i64Max : Int := 2 ^ 63 - 1

namespace Interval

def point (value : Int) : Interval := ⟨value, value⟩

def fit (lo hi : Int) : Option Interval :=
  if i64Min ≤ lo ∧ lo ≤ i64Max ∧ i64Min ≤ hi ∧ hi ≤ i64Max ∧ lo ≤ hi then some ⟨lo, hi⟩ else none

def add (a b : Interval) : Option Interval := fit (a.lo + b.lo) (a.hi + b.hi)

def sub (a b : Interval) : Option Interval := fit (a.lo - b.hi) (a.hi - b.lo)

def mul (a b : Interval) : Option Interval :=
  fit (min (min (a.lo * b.lo) (a.lo * b.hi)) (min (a.hi * b.lo) (a.hi * b.hi)))
    (max (max (a.lo * b.lo) (a.lo * b.hi)) (max (a.hi * b.lo) (a.hi * b.hi)))

end Interval

def intTypeRange (ty : Ty) : Option Interval :=
  match ty.intBounds with
  | none => none
  | some (lo, hi) => if hi ≤ i64Max then some ⟨max i64Min (min lo i64Max), hi⟩ else none

/-- the proven ranges of the counters in scope -/
def Ranges : Type := String → Option Interval

namespace Ranges

def empty : Ranges := fun _ => none

def remove (ranges : Ranges) (name : String) : Ranges := fun n => if n = name then none else ranges n

def insert (ranges : Ranges) (name : String) (range : Interval) : Ranges :=
  fun n => if n = name then some range else ranges n

end Ranges

section Assigns

/-- the form of an assignment to the local -/
def assignsLocal (name : String) : Op → List Expr → Bool
  | .assign _, target :: _ => target.localName = some name
  | _, _ => false

variable (name : String)

mutual

def exprAssignsTo : Expr → Bool
  | .mk (.lambda _ _ _ _) _ _ _ _ => false
  | .mk op _ _ args _ => assignsLocal name op args || exprsAssignTo args

def exprsAssignTo : List Expr → Bool
  | [] => false
  | e :: es => exprAssignsTo e || exprsAssignTo es

def stmtAssignsTo : Stmt → Bool
  | .letDecl _ _ _ init _ => exprAssignsTo init
  | .expr e => exprAssignsTo e
  | .ret none => false
  | .ret (some value) => exprAssignsTo value
  | .ifElse cond then_ els => exprAssignsTo cond || stmtsAssignTo then_ || stmtsAssignTo els
  | .whileLoop cond body => exprAssignsTo cond || stmtsAssignTo body
  | .doWhile body cond => stmtsAssignTo body || exprAssignsTo cond
  | .forLoop init cond step body =>
    (match init with
      | some s => stmtAssignsTo s
      | none => false) ||
    (match cond with
      | some e => exprAssignsTo e
      | none => false) || stmtsAssignTo step || stmtsAssignTo body
  | .forOf _ _ subject _ body _ => exprAssignsTo subject || stmtsAssignTo body
  | .generatorForOf _ _ _ subject body _ => exprAssignsTo subject || stmtsAssignTo body
  | .switch disc cases => exprAssignsTo disc || casesAssignTo cases
  | .breakLoop => false
  | .continueLoop => false
  | .block body => stmtsAssignTo body
  | .throw value => exprAssignsTo value
  | .tryCatch body _ handler _ => stmtsAssignTo body || stmtsAssignTo handler
  | .using _ body finalizer _ => stmtsAssignTo body || stmtsAssignTo finalizer

def stmtsAssignTo : List Stmt → Bool
  | [] => false
  | s :: ss => stmtAssignsTo s || stmtsAssignTo ss

def casesAssignTo : List SwitchCase → Bool
  | [] => false
  | .mk test body :: cases =>
    (match test with
      | some e => exprAssignsTo e
      | none => false) || stmtsAssignTo body || casesAssignTo cases

end

end Assigns

/-- the interval that holds every value of an integer expression -/
def intervalOf (ranges : Ranges) : Expr → Option Interval
  | .mk op ty _ args _ =>
    if ty.isInteger then
      match op, args with
      | .int value, _ => some (.point value)
      | .enumMember value, _ => some (.point value)
      | .localVar name, _ => ranges name
      | .length, [obj] =>
        match obj.ty with
        | .fixedArray _ len => some (.point len)
        | _ => none
      | .binary op, [left, right] =>
        match intervalOf ranges left, intervalOf ranges right with
        | some l, some r =>
          match op with
          | .add => l.add r
          | .sub => l.sub r
          | .mul => l.mul r
          | _ => none
        | _, _ => none
      | .cast, [inner] =>
        if inner.ty.isInteger then
          match intervalOf ranges inner, intTypeRange ty with
          | some range, some target => if target.lo ≤ range.lo ∧ range.hi ≤ target.hi then some range else none
          | _, _ => none
        else none
      | _, _ => none
    else none

def indexInBounds (ranges : Ranges) (index : Expr) (len : Nat) : Bool :=
  match intervalOf ranges index with
  | some range => 0 ≤ range.lo ∧ range.hi < len
  | none => false

/-- `i < bound` and `i <= bound`: the largest value of the counter in the body -/
def conditionLimit (ranges : Ranges) (name : String) : Option Expr → Option Int
  | some (.mk (.binary op) _ _ [left, right] _) =>
    if left.localName = some name then
      match intervalOf ranges right with
      | some bound =>
        match op with
        | .lt => if i64Min ≤ bound.hi - 1 then some (bound.hi - 1) else none
        | .le => some bound.hi
        | _ => none
      | none => none
    else none
  | _ => none

/-- `i += c`: the interval of `c` -/
def stepIncrement (ranges : Ranges) (name : String) : List Stmt → Option Interval
  | [.expr (.mk (.assign (some .add)) _ _ [target, value] _)] =>
    if target.localName = some name then intervalOf ranges value else none
  | _ => none

/-- the counter of a counted loop and its range in the body -/
def inductionInterval (ranges : Ranges) (init : Option Stmt) (cond : Option Expr) (step body : List Stmt) :
    Option (String × Interval) :=
  match init with
  | some (.letDecl name ty _ init _) =>
    if ty.isInteger then
      match intervalOf ranges init, conditionLimit ranges name cond, stepIncrement ranges name step,
          intTypeRange ty with
      | some start, some hi, some increment, some range =>
        if start.lo = start.hi ∧ increment.lo = increment.hi ∧ 0 < increment.lo ∧ start.lo ≤ hi ∧
            hi + increment.lo ≤ range.hi ∧ range.lo ≤ start.lo ∧ stmtsAssignTo name body = false then
          some (name, ⟨start.lo, hi⟩)
        else none
      | _, _, _, _ => none
    else none
  | _ => none

namespace Analyzer

/-- whether the check of an access stays -/
def checked (ranges : Ranges) : List Expr → Bool
  | [obj, index] =>
    match obj.ty with
    | .fixedArray _ len => !indexInBounds ranges index len
    | _ => true
  | _ => true

/-- the ranges in the condition, the body and the step of a loop -/
def loopRanges (ranges : Ranges) (init : Option Stmt) (cond : Option Expr) (step body : List Stmt) : Ranges :=
  match inductionInterval ranges init cond step body with
  | some (name, range) => ranges.insert name range
  | none => ranges

mutual

def expr (ranges : Ranges) : Expr → Expr
  | .mk op ty pos args body =>
    match op with
    | .lambda params captures isAsync ownsEnvironment =>
      .mk (.lambda params captures isAsync ownsEnvironment) ty pos (exprs .empty args) (stmts .empty body).1
    | .index _ => .mk (.index (checked ranges (exprs ranges args))) ty pos (exprs ranges args) body
    | op => .mk op ty pos (exprs ranges args) body

def exprs (ranges : Ranges) : List Expr → List Expr
  | [] => []
  | e :: es => expr ranges e :: exprs ranges es

/-- the statement with its accesses decided, and the ranges after it -/
def stmt (ranges : Ranges) : Stmt → Stmt × Ranges
  | .letDecl name ty isMutable init pos =>
    (.letDecl name ty isMutable (expr ranges init) pos, ranges.remove name)
  | .expr e => (.expr (expr ranges e), ranges)
  | .ret none => (.ret none, ranges)
  | .ret (some value) => (.ret (some (expr ranges value)), ranges)
  | .ifElse cond then_ els => (.ifElse (expr ranges cond) (stmts ranges then_).1 (stmts ranges els).1, ranges)
  | .whileLoop cond body => (.whileLoop (expr ranges cond) (stmts ranges body).1, ranges)
  | .doWhile body cond => (.doWhile (stmts ranges body).1 (expr ranges cond), ranges)
  | .forLoop none cond step body =>
    let inner := loopRanges ranges none cond step body
    (.forLoop none (optionExpr inner cond) (stmts inner step).1 (stmts inner body).1, ranges)
  | .forLoop (some init) cond step body =>
    let (init, started) := stmt ranges init
    let inner := loopRanges started (some init) cond step body
    (.forLoop (some init) (optionExpr inner cond) (stmts inner step).1 (stmts inner body).1, ranges)
  | .forOf name ty subject kind body pos =>
    (.forOf name ty (expr ranges subject) kind (stmts ranges body).1 pos, ranges)
  | .generatorForOf name ty isMutable subject body pos =>
    (.generatorForOf name ty isMutable (expr ranges subject) (stmts ranges body).1 pos, ranges)
  | .switch disc cases => (.switch (expr ranges disc) (switchCases ranges cases), ranges)
  | .breakLoop => (.breakLoop, ranges)
  | .continueLoop => (.continueLoop, ranges)
  | .block body => (.block (stmts ranges body).1, ranges)
  | .throw value => (.throw (expr ranges value), ranges)
  -- the children of the next two are visited in order, without a scope of their own
  | .tryCatch body binding handler pos =>
    let (body, ranges) := stmts ranges body
    let (handler, ranges) := stmts ranges handler
    (.tryCatch body binding handler pos, ranges)
  | .using bindings body finalizer declared =>
    let (body, ranges) := stmts ranges body
    let (finalizer, ranges) := stmts ranges finalizer
    (.using bindings body finalizer declared, ranges)

def optionExpr (ranges : Ranges) : Option Expr → Option Expr
  | none => none
  | some e => some (expr ranges e)

def stmts (ranges : Ranges) : List Stmt → List Stmt × Ranges
  | [] => ([], ranges)
  | s :: ss =>
    let (s, ranges) := stmt ranges s
    let (ss, ranges) := stmts ranges ss
    (s :: ss, ranges)

def switchCases (ranges : Ranges) : List SwitchCase → List SwitchCase
  | [] => []
  | .mk test body :: cases =>
    .mk (optionExpr ranges test) (stmts ranges body).1 :: switchCases ranges cases

end

end Analyzer

/-- the body of a function or of a lambda with its bounds checks decided -/
def decideIndexChecks (body : List Stmt) : List Stmt := (Analyzer.stmts .empty body).1

end Subscript.Hir
