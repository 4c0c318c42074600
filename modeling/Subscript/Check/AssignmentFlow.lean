import Subscript.Hir.Syntax
import Mathlib.Data.List.Sort

/-! The flow of assignments (`check/assignment_flow.rs`): whether a local without an initializer is assigned wherever it
is read, and whether a constructor assigns a field on every normal exit. -/

namespace Subscript.Check

open Hir

/-- the members of the enums, and how many the string-literal aliases have -/
structure Members where
  enums : EnumId → List Int
  aliases : StringAliasId → Nat

inductive Binding where
  | field (name : String)
  | localVar (name : String) (declaration : Pos)

structure State where
  held : Bool
  active : Bool
  deriving DecidableEq

inductive Exit where
  | next (state : State)
  | brk (state : State)
  | cont (state : State)
  | ret (state : State)
  deriving DecidableEq

/-- the places where the binding is read, each with whether it is assigned there -/
abbrev Reads := List (Pos × Bool)

def State.rank (s : State) : Nat := 2 * s.held.toNat + s.active.toNat

def Exit.rank : Exit → Nat
  | .next s => s.rank
  | .brk s => 4 + s.rank
  | .cont s => 8 + s.rank
  | .ret s => 12 + s.rank

/-- `sort_unstable` and `dedup` -/
def sortDedup {α : Type} [DecidableEq α] (rank : α → Nat) (l : List α) : List α :=
  (l.insertionSort fun a b => rank a ≤ rank b).dedup

namespace AssignmentFlow

def target (b : Binding) (state : State) : Expr → Bool
  | .mk op _ _ args _ =>
    match b, op, args with
    | .field field, .field name, [.mk .this _ _ _ _] => name == field
    | .localVar binding _, .localVar name, _ => state.active && name == binding
    | _, _, _ => false

/-- where a read of the binding is reported -/
def readPos : Expr → Pos
  | .mk (.field _) _ _ [obj] _ => obj.pos
  | e => e.pos

def isBool (value : Bool) : Expr → Bool
  | .mk (.bool v) _ _ _ _ => v == value
  | _ => false

mutual

def expression (b : Binding) : Expr → State → Reads × State
  | .mk op ty pos args body, state =>
    let own := if target b state (.mk op ty pos args body) then [(readPos (.mk op ty pos args body), state.held)] else []
    match op, args with
    | .localVar _, _ => (own, state)
    | .assign op, [left, value] =>
      let writes := target b state left
      -- the address is evaluated before the value; a plain target is not a read
      let (reads, state) := if !writes || op.isSome then expression b left state else ([], state)
      let (reads', state) := expression b value state
      (own ++ reads ++ reads', if writes && op.isNone then { state with held := true } else state)
    | .binary .and, [left, right] =>
      let (reads, state) := expression b left state
      let (reads', conditional) := expression b right state
      (own ++ reads ++ reads', { state with held := state.held && conditional.held })
    | .binary .or, [left, right] =>
      let (reads, state) := expression b left state
      let (reads', conditional) := expression b right state
      (own ++ reads ++ reads', { state with held := state.held && conditional.held })
    | .cond, [cond, then_, els] =>
      let (reads, state) := expression b cond state
      let (reads₁, yes) := expression b then_ state
      let (reads₂, no) := expression b els state
      (own ++ reads ++ reads₁ ++ reads₂, { state with held := yes.held && no.held })
    -- a lambda owns separate locals
    | .lambda _ _ _ _, _ => (own, state)
    | _, args =>
      let (reads, state) := expressions b args state
      (own ++ reads, state)

def expressions (b : Binding) : List Expr → State → Reads × State
  | [], state => ([], state)
  | e :: es, state =>
    let (reads, state) := expression b e state
    let (reads', state) := expressions b es state
    (reads ++ reads', state)

end

def restoreScope (entry : State) : Exit → Exit
  | .next s => .next { s with active := entry.active }
  | .brk s => .brk { s with active := entry.active }
  | .cont s => .cont { s with active := entry.active }
  | .ret s => .ret { s with active := entry.active }

def Exit.state : Exit → State
  | .next s | .brk s | .cont s | .ret s => s

/-- how a statement with a finalizer is left, from how its body and its finalizer are -/
def finalExit (prior tail : Exit) : Exit :=
  match tail, prior with
  | .next s, .next _ => .next s
  | .next s, .ret _ => .ret s
  | .next s, .brk _ => .brk s
  | .next s, .cont _ => .cont s
  | other, _ => other

/-- a declaration of the name hides the binding or is its own -/
def declare (b : Binding) (name : String) (pos : Pos) (init : Expr) (state : State) : State :=
  match b with
  | .field _ => state
  | .localVar binding declaration =>
    if name = binding then
      if pos = declaration then { held := !init.isUnassigned, active := true } else { state with active := false }
    else state

/-- a variable that is no `let` hides the binding -/
def hide (b : Binding) (name : String) (state : State) : State :=
  match b with
  | .field _ => state
  | .localVar binding _ => if name = binding then { state with active := false } else state

def SwitchCase.test : SwitchCase → Option Expr
  | .mk test _ => test

def SwitchCase.label : SwitchCase → Option Op
  | .mk (some (.mk op _ _ _ _)) _ => some op
  | .mk none _ => none

def hasDefault (cases : List SwitchCase) : Bool := cases.any fun c => (SwitchCase.test c).isNone

def sourceEnumSwitchExhaustive (m : Members) (disc : Expr) (cases : List SwitchCase) : Bool :=
  match disc.ty with
  | .enum id => (m.enums id).all fun value => cases.any fun c =>
    match SwitchCase.label c with
    | some (.enumMember actual) => actual == value
    | _ => false
  | _ => false

def stringAliasSwitchExhaustive (m : Members) (disc : Expr) (cases : List SwitchCase) : Bool :=
  match disc.ty with
  | .stringAlias id => (List.range (m.aliases id)).all fun index => cases.any fun c =>
    match SwitchCase.label c with
    | some (.int actual) => actual == index
    | _ => false
  | _ => false

/-- the exits of a loop, from those of its body and of its step after each -/
def loopExits (state : State) (infinite : Bool) (exits : List Exit) (step : State → List Exit) : List Exit :=
  (if infinite then [] else [.next state]) ++ exits.flatMap fun exit =>
    match exit with
    | .brk s => [.next s]
    | .ret s => [.ret s]
    | .next s | .cont s => (step s).filter fun
      | .next _ | .cont _ => false
      | _ => true

/-- the exits of a `for`-`of`, whose variable hides the binding -/
def elementExits (state hidden : State) (exits : List Exit) : List Exit :=
  (loopExits hidden false (exits.map (restoreScope hidden)) fun s => [.next s]).map (restoreScope state)

/-- the states from which a step runs -/
def stepStates (exits : List Exit) : List State :=
  exits.filterMap fun
    | .next s | .cont s => some s
    | _ => none

mutual

def statement (m : Members) (b : Binding) : Stmt → State → Reads × List Exit
  | .letDecl name _ _ init pos, state =>
    let (reads, state) := expression b init state
    (reads, [.next (declare b name pos init state)])
  | .expr value, state =>
    let (reads, state) := expression b value state
    (reads, if value.isUnreachable then [] else [.next state])
  | .ret none, state => ([], [.ret state])
  | .ret (some value), state =>
    let (reads, state) := expression b value state
    (reads, [.ret state])
  | .throw value, state => ((expression b value state).1, [])
  | .breakLoop, state => ([], [.brk state])
  | .continueLoop, state => ([], [.cont state])
  | .block body, state =>
    let (reads, exits) := statements m b body [.next state]
    (reads, exits.map (restoreScope state))
  | .using _ body finalizer declared, state =>
    let (reads, exits) := statements m b body [.next state]
    let paths := exits.map (restoreScope state)
    if finalizer.isEmpty && !declared then (reads, paths)
    else
      -- an exception can reach the finalizer before an assignment
      let entries := paths ++ [.ret state]
      let runs := entries.map fun prior => (prior, statements m b finalizer [.next (Exit.state prior)])
      (reads ++ runs.flatMap (·.2.1), runs.flatMap fun run =>
        run.2.2.map fun tail => finalExit run.1 (restoreScope (Exit.state run.1) tail))
  | .ifElse cond then_ els, state =>
    let (reads, state) := expression b cond state
    let yes := statements m b then_ [.next state]
    let no := statements m b els [.next state]
    let taken := if isBool false cond then ([], []) else yes
    let other := if isBool true cond then ([], []) else no
    (reads ++ taken.1 ++ other.1, (taken.2 ++ other.2).map (restoreScope state))
  | .switch disc cases, state =>
    let (reads, state) := expression b disc state
    let (reads', exits, live) := switchCases m b cases state []
    let skipped := if !hasDefault cases && !sourceEnumSwitchExhaustive m disc cases &&
      !stringAliasSwitchExhaustive m disc cases then [Exit.next state] else []
    (reads ++ switchTests b cases state ++ reads', (skipped ++ exits ++ live.map Exit.next).map (restoreScope state))
  | .tryCatch body binding handler _, state =>
    let (reads, exits) := statements m b body [.next state]
    -- an exception can reach the handler before any assignment of the body
    let entry := match binding with
      | some (caught, _) => hide b caught state
      | none => state
    let (reads', exits') := statements m b handler [.next entry]
    (reads ++ reads', (exits ++ exits').map (restoreScope state))
  | .whileLoop cond body, state =>
    let (reads, state) := expression b cond state
    if isBool false cond then (reads, [.next state])
    else
      let (reads', exits) := statements m b body [.next state]
      (reads ++ reads', loopExits state (isBool true cond) (exits.map (restoreScope state)) fun s => [.next s])
  | .doWhile body cond, state =>
    let (reads, exits) := statements m b body [.next state]
    let exits := exits.map (restoreScope state)
    (reads ++ (stepStates exits).flatMap fun s => (expression b cond s).1, exits.flatMap fun exit =>
      match exit with
      | .brk s => [.next s]
      | .ret s => [.ret s]
      | .next s | .cont s => if isBool true cond then [] else [.next (expression b cond s).2])
  | .forLoop init cond step body, state =>
    let (reads, paths) := forInit m b init state
    match paths with
    | .next entry :: _ =>
      let (reads', entry) := forCond b cond entry
      let (reads'', exits) := statements m b body [.next entry]
      let exits := exits.map (restoreScope entry)
      let run := fun s => statements m b step [.next s]
      (reads ++ reads' ++ reads'' ++ (stepStates exits).flatMap fun s => (run s).1,
        (loopExits entry (cond.all (isBool true)) exits fun s => (run s).2.map (restoreScope s)).map (restoreScope state))
    | paths => (reads, paths)
  | .forOf name _ subject _ body _, state =>
    let (reads, state) := expression b subject state
    let (reads', exits) := statements m b body [.next (hide b name state)]
    (reads ++ reads', elementExits state (hide b name state) exits)
  | .generatorForOf name _ _ subject body _, state =>
    let (reads, state) := expression b subject state
    let (reads', exits) := statements m b body [.next (hide b name state)]
    (reads ++ reads', elementExits state (hide b name state) exits)

def forInit (m : Members) (b : Binding) : Option Stmt → State → Reads × List Exit
  | none, state => ([], [.next state])
  | some init, state => statement m b init state

def forCond (b : Binding) : Option Expr → State → Reads × State
  | none, state => ([], state)
  | some cond, state => expression b cond state

/-- the statements of a list, from each of the paths that reach them -/
def statements (m : Members) (b : Binding) : List Stmt → List Exit → Reads × List Exit
  | [], paths => ([], paths)
  | s :: ss, paths =>
    let runs := paths.map fun path =>
      match path with
      | .next state => statement m b s state
      | path => ([], [path])
    let (reads, exits) := statements m b ss (sortDedup Exit.rank (runs.flatMap (·.2)))
    (runs.flatMap (·.1) ++ reads, exits)

/-- the tests of a `switch`; no assignment of one is carried on -/
def switchTests (b : Binding) : List SwitchCase → State → Reads
  | [], _ => []
  | .mk (some test) _ :: cases, dispatch => (expression b test dispatch).1 ++ switchTests b cases dispatch
  | .mk none _ :: cases, dispatch => switchTests b cases dispatch

/-- the arms of a `switch`, each from the dispatch and from the end of the one before -/
def switchCases (m : Members) (b : Binding) : List SwitchCase → State → List State → Reads × List Exit × List State
  | [], _, live => ([], [], live)
  | .mk _ body :: cases, dispatch, live =>
    let runs := (sortDedup State.rank (live ++ [dispatch])).map fun entry => statements m b body [.next entry]
    let exits := runs.flatMap (·.2)
    let fallthrough := exits.filterMap fun
      | .next s => some s
      | _ => none
    let left := exits.filterMap fun
      | .next _ => none
      | .brk s => some (.next s)
      | other => some other
    let (reads, exits', live) := switchCases m b cases dispatch fallthrough
    (runs.flatMap (·.1) ++ reads, left ++ exits', live)

end

/-! ### The root statements that matter for a local -/

structure Exits where
  stops : Bool
  breaks : Bool
  continues : Bool

def Exits.none : Exits := ⟨false, false, false⟩

def Exits.or (a b : Exits) : Exits := ⟨a.stops || b.stops, a.breaks || b.breaks, a.continues || b.continues⟩

def Exits.any (a : Exits) : Bool := a.stops || a.breaks || a.continues

mutual

/-- the locals that an expression names, outside lambdas -/
def exprNames : Expr → List String
  | .mk op _ _ args _ =>
    match op with
    | .localVar name => name :: exprsNames args
    | .lambda _ _ _ _ => []
    | _ => exprsNames args

def exprsNames : List Expr → List String
  | [] => []
  | e :: es => exprNames e ++ exprsNames es

end

mutual

/-- the locals that a statement names or declares -/
def stmtNames : Stmt → List String
  | .letDecl name _ _ init _ => name :: exprNames init
  | .expr e => exprNames e
  | .ret value => optNames value
  | .ifElse cond then_ els => exprNames cond ++ (stmtsNames then_ ++ stmtsNames els)
  | .whileLoop cond body => exprNames cond ++ stmtsNames body
  | .doWhile body cond => stmtsNames body ++ exprNames cond
  | .forLoop init cond step body => initNames init ++ (optNames cond ++ (stmtsNames step ++ stmtsNames body))
  | .forOf name _ subject _ body _ => name :: (exprNames subject ++ stmtsNames body)
  | .generatorForOf name _ _ subject body _ => name :: (exprNames subject ++ stmtsNames body)
  | .switch disc cases => exprNames disc ++ casesNames cases
  | .breakLoop => []
  | .continueLoop => []
  | .block body => stmtsNames body
  | .throw value => exprNames value
  | .tryCatch body binding handler _ => (binding.map (·.1)).toList ++ (stmtsNames body ++ stmtsNames handler)
  | .using _ body finalizer _ => stmtsNames body ++ stmtsNames finalizer

def stmtsNames : List Stmt → List String
  | [] => []
  | s :: ss => stmtNames s ++ stmtsNames ss

def initNames : Option Stmt → List String
  | none => []
  | some s => stmtNames s

def optNames : Option Expr → List String
  | none => []
  | some e => exprNames e

def casesNames : List SwitchCase → List String
  | [] => []
  | .mk test body :: cases => optNames test ++ (stmtsNames body ++ casesNames cases)

end

mutual

/-- whether a statement can end paths -/
def stmtExits : Stmt → Exits
  | .letDecl _ _ _ _ _ => .none
  | .expr e => { Exits.none with stops := e.isUnreachable }
  | .ret _ => { Exits.none with stops := true }
  | .throw _ => { Exits.none with stops := true }
  | .breakLoop => { Exits.none with breaks := true }
  | .continueLoop => { Exits.none with continues := true }
  | .ifElse _ then_ els => (stmtsExits then_).or (stmtsExits els)
  | .block body => stmtsExits body
  | .tryCatch body _ handler _ => (stmtsExits body).or (stmtsExits handler)
  | .using _ body finalizer _ => (stmtsExits body).or (stmtsExits finalizer)
  -- an empty exhaustive switch can remove every path
  | .switch _ cases => { casesExits cases with breaks := false, stops := (casesExits cases).stops || cases.isEmpty }
  | .whileLoop _ _ => { Exits.none with stops := true }
  | .doWhile _ _ => { Exits.none with stops := true }
  | .forLoop _ _ _ _ => { Exits.none with stops := true }
  | .forOf _ _ _ _ body _ => { Exits.none with stops := (stmtsExits body).stops }
  | .generatorForOf _ _ _ _ body _ => { Exits.none with stops := (stmtsExits body).stops }

def stmtsExits : List Stmt → Exits
  | [] => .none
  | s :: ss => (stmtExits s).or (stmtsExits ss)

def casesExits : List SwitchCase → Exits
  | [] => .none
  | .mk _ body :: cases => (stmtsExits body).or (casesExits cases)

end

/-- the indices of the root statements that name each local, and of those that can end paths -/
structure LocalStatements where
  names : String → List Nat
  exits : List Nat

def LocalStatements.add (index : LocalStatements) (value : Stmt × Nat) : LocalStatements :=
  if (stmtExits value.1).any then { index with exits := index.exits ++ [value.2] }
  else { index with
    names := fun name => if name ∈ stmtNames value.1 then index.names name ++ [value.2] else index.names name }

def LocalStatements.new (body : List Stmt) : LocalStatements := body.zipIdx.foldl .add ⟨fun _ => [], []⟩

def mergeInto (a : Nat) (rest : List Nat → List Nat) : List Nat → List Nat
  | [] => a :: rest []
  | b :: bs => if a < b then a :: rest (b :: bs) else b :: mergeInto a rest bs

/-- two ascending lists as one -/
def merge : List Nat → List Nat → List Nat
  | [], exits => exits
  | a :: own, exits => mergeInto a (merge own) exits

def LocalStatements.forLocal (index : LocalStatements) (name : String) : List Nat := merge (index.names name) index.exits

/-! ### The checks -/

mutual

/-- the `let` declarations of a statement, each with whether it has an initializer -/
def stmtDeclared : Stmt → List (String × Pos × Bool)
  | .letDecl name _ _ init pos => [(name, pos, !init.isUnassigned)]
  | .expr _ | .ret _ | .throw _ | .breakLoop | .continueLoop => []
  | .ifElse _ then_ els => stmtsDeclared then_ ++ stmtsDeclared els
  | .whileLoop _ body => stmtsDeclared body
  | .doWhile body _ => stmtsDeclared body
  | .forLoop init _ step body => initDeclared init ++ (stmtsDeclared step ++ stmtsDeclared body)
  | .forOf _ _ _ _ body _ => stmtsDeclared body
  | .generatorForOf _ _ _ _ body _ => stmtsDeclared body
  | .switch _ cases => casesDeclared cases
  | .block body => stmtsDeclared body
  | .tryCatch body _ handler _ => stmtsDeclared body ++ stmtsDeclared handler
  | .using _ body finalizer _ => stmtsDeclared body ++ stmtsDeclared finalizer

def stmtsDeclared : List Stmt → List (String × Pos × Bool)
  | [] => []
  | s :: ss => stmtDeclared s ++ stmtsDeclared ss

def initDeclared : Option Stmt → List (String × Pos × Bool)
  | none => []
  | some s => stmtDeclared s

def casesDeclared : List SwitchCase → List (String × Pos × Bool)
  | [] => []
  | .mk _ body :: cases => stmtsDeclared body ++ casesDeclared cases

end

/-- the locals without an initializer -/
def declarations (body : List Stmt) : List (String × Pos) :=
  (stmtsDeclared body).filterMap fun d => if d.2.2 then none else some (d.1, d.2.1)

def initial (b : Binding) : State :=
  { held := false, active := match b with | .field _ => true | .localVar _ _ => false }

def report (name : String) (out : List (String × Pos)) (reads : Reads) : List (String × Pos) :=
  reads.foldl (fun out r => if !r.2 && !out.any (· == (name, r.1)) then out ++ [(name, r.1)] else out) out

/-- the reads of one local, over the root statements that matter for it -/
def localReads (m : Members) (body : List Stmt) (name : String) (pos : Pos) : Reads :=
  let selected := ((LocalStatements.new body).forLocal name).filterMap (body[·]?)
  (statements m (.localVar name pos) selected [.next (initial (.localVar name pos))]).1

def bodyDiagnostics (m : Members) (out : List (String × Pos)) (body : List Stmt) : List (String × Pos) :=
  (declarations body).foldl (fun out d => report d.1 out (localReads m body d.1 d.2)) out

mutual

/-- the bodies of the lambdas in an expression, in the order in which they are checked -/
def exprBodies : Expr → List (List Stmt)
  | .mk op _ _ args body =>
    match op with
    | .lambda _ _ _ _ => body :: (stmtsBodies body ++ exprsBodies args)
    | _ => exprsBodies args

def exprsBodies : List Expr → List (List Stmt)
  | [] => []
  | e :: es => exprBodies e ++ exprsBodies es

def stmtBodies : Stmt → List (List Stmt)
  | .letDecl _ _ _ init _ => exprBodies init
  | .expr e => exprBodies e
  | .ret value => optBodies value
  | .ifElse cond then_ els => exprBodies cond ++ stmtsBodies then_ ++ stmtsBodies els
  | .whileLoop cond body => exprBodies cond ++ stmtsBodies body
  | .doWhile body cond => stmtsBodies body ++ exprBodies cond
  | .forLoop init cond step body => initBodies init ++ optBodies cond ++ stmtsBodies step ++ stmtsBodies body
  | .forOf _ _ subject _ body _ => exprBodies subject ++ stmtsBodies body
  | .generatorForOf _ _ _ subject body _ => exprBodies subject ++ stmtsBodies body
  | .switch disc cases => exprBodies disc ++ casesBodies cases
  | .breakLoop | .continueLoop => []
  | .block body => stmtsBodies body
  | .throw value => exprBodies value
  | .tryCatch body _ handler _ => stmtsBodies body ++ stmtsBodies handler
  | .using _ body finalizer _ => stmtsBodies body ++ stmtsBodies finalizer

def stmtsBodies : List Stmt → List (List Stmt)
  | [] => []
  | s :: ss => stmtBodies s ++ stmtsBodies ss

def initBodies : Option Stmt → List (List Stmt)
  | none => []
  | some s => stmtBodies s

def optBodies : Option Expr → List (List Stmt)
  | none => []
  | some e => exprBodies e

def casesBodies : List SwitchCase → List (List Stmt)
  | [] => []
  | .mk test body :: cases => optBodies test ++ stmtsBodies body ++ casesBodies cases

end

/-- a body and those of its lambdas -/
def bodies (body : List Stmt) : List (List Stmt) := body :: stmtsBodies body

/-- the diagnostics of a function, a method or a constructor, with those of its lambdas -/
def localDiagnostics (m : Members) (body : List Stmt) : List (String × Pos) :=
  (bodies body).foldl (bodyDiagnostics m) []

mutual

/-- statements that are never left by a jump -/
def straight : Stmt → Bool
  | .letDecl _ _ _ _ _ => true
  | .expr _ => true
  | .ifElse _ then_ els => straights then_ && straights els
  | .block body => straights body
  | _ => false

def straights : List Stmt → Bool
  | [] => true
  | s :: ss => straight s && straights ss

end

def isInit : Option Stmt → Bool
  | none | some (.letDecl _ _ _ _ _) | some (.expr _) => true
  | _ => false

mutual

/-- every `for` has a declaration or an expression as its initializer, and a step without jumps -/
def plainLoops : Stmt → Bool
  | .letDecl _ _ _ _ _ | .expr _ | .ret _ | .throw _ | .breakLoop | .continueLoop => true
  | .ifElse _ then_ els => plainLoopsAll then_ && plainLoopsAll els
  | .whileLoop _ body => plainLoopsAll body
  | .doWhile body _ => plainLoopsAll body
  | .forLoop init _ step body => isInit init && straights step && plainLoopsAll step && plainLoopsAll body
  | .forOf _ _ _ _ body _ => plainLoopsAll body
  | .generatorForOf _ _ _ _ body _ => plainLoopsAll body
  | .switch _ cases => plainLoopsCases cases
  | .block body => plainLoopsAll body
  | .tryCatch body _ handler _ => plainLoopsAll body && plainLoopsAll handler
  | .using _ body finalizer _ => plainLoopsAll body && plainLoopsAll finalizer

def plainLoopsAll : List Stmt → Bool
  | [] => true
  | s :: ss => plainLoops s && plainLoopsAll ss

def plainLoopsCases : List SwitchCase → Bool
  | [] => true
  | .mk _ body :: cases => plainLoopsAll body && plainLoopsCases cases

end

def declaredKeys (declared : List (String × Pos × Bool)) : List (String × Pos) := declared.map fun d => (d.1, d.2.1)

/-- the body of a function, a method or a constructor as the checker builds it: no two declarations of a body are of the
same name at the same position -/
structure Body where
  stmts : List Stmt
  loops : ∀ body ∈ bodies stmts, plainLoopsAll body = true
  distinct : ∀ body ∈ bodies stmts, (declaredKeys (stmtsDeclared body)).Nodup

def fieldOnNormalExit (m : Members) (body : List Stmt) (field : String) : Bool :=
  (statements m (.field field) body [.next (initial (.field field))]).2.all fun exit => (Exit.state exit).held

end AssignmentFlow

end Subscript.Check
