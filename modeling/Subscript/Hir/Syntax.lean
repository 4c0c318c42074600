import Subscript.Types

/-! Checked HIR (`hir.rs`): typed expressions and statements. An expression is its form with the children
in source order, so that a pass which treats a form only through its children needs no case for it. -/

namespace Subscript.Hir

inductive BinOp where
  | add | sub | mul | div | rem
  | eq | ne | strEq | strNe | lt | le | gt | ge
  | and | or
  | bitAnd | bitOr | bitXor | shl | shr | uShr
  deriving DecidableEq

inductive ArrFn where
  | indexOf | lastIndexOf | includes | join | slice | fill | reverse | concat | forEach | map | filter
  | reduce | some | every | findIndex | sort | reduceRight | splice | shift | unshift | copyWithin | at
  | find | findLast | findLastIndex | flatMap
  deriving DecidableEq

inductive MapFn where
  | new | size | get | getOr | set | has | delete | clear | forEach | groupBy
  deriving DecidableEq

inductive SetFn where
  | new | size | add | has | delete | clear | forEach | union | intersection | difference
  | symmetricDifference | isSubsetOf | isSupersetOf | isDisjointFrom
  deriving DecidableEq

/-- what a call calls; the callee value and the receiver are the first child of the call -/
inductive Callee where
  | func (symbol : String)
  | foreign (name : String)
  | arr (f : ArrFn)
  | map (f : MapFn)
  | set (f : SetFn)
  | value
  | method (name : String)
  -- the ambient function that traps
  | unreachable
  -- standard host operations and the other ambient, math, number, date, JSON, text and worker functions
  | builtin
  deriving DecidableEq

structure Param where
  name : String
  ty : Ty
  hasDefault : Bool
  pos : Pos

structure Capture where
  name : String
  ty : Ty

/-- the forms of expressions, without their children -/
inductive Op where
  | int (value : Int)
  | float
  | bool (value : Bool)
  | str
  | null
  | this
  | localVar (name : String)
  | global (symbol : String)
  | funcRef (symbol : String)
  | enumMember (value : Int)
  | unary
  | binary (op : BinOp)
  | absenceTest
  -- target, value
  | assign (op : Option BinOp)
  | cast
  | call (callee : Callee)
  | new (cls : ClassId)
  | descriptorLit (cls : ClassId)
  | unassigned
  | zero
  | rawNew (cls : ClassId)
  | field (name : String)
  | length
  -- array, index
  | index (checked : Bool)
  | arrayLit
  | arraySpreadLit
  | template
  -- the children are the parameters' default values and the statements of the body
  | lambda (params : List Param) (captures : List Capture) (isAsync ownsEnvironment : Bool)
  | yield
  | asyncSuspend
  | asyncCall (callee : Callee)
  | asyncHandleCreate (callee : Callee)
  | taskGroup
  | asyncAll
  | asyncHandleAwait
  | asyncHandleTransfer
  | cond
  | seq

inductive ForOfKind where
  | arrayValues | arrayKeys | fixedArrayValues | mapKeys | mapValues | setValues | stringCodePoints
  deriving DecidableEq

structure UsingBinding where
  name : String
  active : Option String

mutual

inductive Expr where
  | mk (op : Op) (ty : Ty) (pos : Pos) (args : List Expr) (body : List Stmt)

-- an absent `else` and an absent finalizer are empty lists; an empty finalizer is declared, an absent one is not
inductive Stmt where
  | letDecl (name : String) (ty : Ty) (isMutable : Bool) (init : Expr) (pos : Pos)
  | expr (e : Expr)
  | ret (value : Option Expr)
  | ifElse (cond : Expr) (then_ els : List Stmt)
  | whileLoop (cond : Expr) (body : List Stmt)
  | doWhile (body : List Stmt) (cond : Expr)
  | forLoop (init : Option Stmt) (cond : Option Expr) (step body : List Stmt)
  | forOf (name : String) (ty : Ty) (subject : Expr) (kind : ForOfKind) (body : List Stmt) (pos : Pos)
  | generatorForOf (name : String) (ty : Ty) (isMutable : Bool) (subject : Expr) (body : List Stmt) (pos : Pos)
  | switch (disc : Expr) (cases : List SwitchCase)
  | breakLoop
  | continueLoop
  | block (body : List Stmt)
  | throw (value : Expr)
  | tryCatch (body : List Stmt) (binding : Option (String × Ty)) (handler : List Stmt) (pos : Pos)
  | using (bindings : List UsingBinding) (body finalizer : List Stmt) (declared : Bool)

inductive SwitchCase where
  | mk (test : Option Expr) (body : List Stmt)

end

namespace Expr

def op : Expr → Op
  | .mk op _ _ _ _ => op

def ty : Expr → Ty
  | .mk _ ty _ _ _ => ty

def pos : Expr → Pos
  | .mk _ _ pos _ _ => pos

def args : Expr → List Expr
  | .mk _ _ _ args _ => args

/-- the value of a local without an initializer -/
def isUnassigned : Expr → Bool
  | .mk .unassigned _ _ _ _ => true
  | _ => false

def isUnreachable : Expr → Bool
  | .mk (.call .unreachable) _ _ _ _ => true
  | _ => false

/-- the name of a local, for an expression that is one -/
def localName : Expr → Option String
  | .mk (.localVar name) _ _ _ _ => some name
  | _ => none

end Expr

end Subscript.Hir
