import Subscript.Hir.Intervals

/-! When the counter of a loop header is what the analysis takes it for: the header changes it only in its step, and no
check is removed by the range of a counter where that is hidden or not yet tested. -/

namespace Subscript.Hir

/-- of `name < bound` and `name += value`, where the counter has a range behind the test: neither `bound` nor `value`
assigns the counter, and the range removes no check in the bound -/
def headerKept (ranges : Ranges) (name : String) (range : Interval) : Option Expr → List Stmt → Prop
  | some (.mk _ _ _ [_, bound] _), [.expr (.mk _ _ _ [_, value] _)] =>
    exprAssignsTo name bound = false ∧ exprAssignsTo name value = false ∧
      Analyzer.expr (ranges.insert name range) bound = Analyzer.expr ranges bound
  | _, _ => True

/-- the header of a loop keeps the counter that the analysis finds, if it finds one -/
def counterKept (ranges : Ranges) (init : Option Stmt) (cond : Option Expr) (step body : List Stmt) : Prop :=
  match inductionInterval ranges init cond step body with
  | some (name, range) => headerKept ranges name range cond step
  | none => True

/-- no check is removed by the range of the counter that a binding of the name hides -/
def unusedUnder (ranges : Ranges) (name : String) (body : List Stmt) : Prop :=
  (Analyzer.stmts ranges body).1 = (Analyzer.stmts (ranges.remove name) body).1

mutual

def exprPlain : Expr → Prop
  | .mk (.lambda _ _ _ _) _ _ args body => exprsPlain args ∧ stmtsPlain .empty body
  | .mk _ _ _ args _ => exprsPlain args

def exprsPlain : List Expr → Prop
  | [] => True
  | e :: es => exprPlain e ∧ exprsPlain es

def optionExprPlain : Option Expr → Prop
  | none => True
  | some e => exprPlain e

/-- with the ranges in front of the statement: the header of every loop keeps its counter, and a variable of a `for`-`of`
or a caught exception hides no counter by whose range a check is removed -/
def stmtPlain (ranges : Ranges) : Stmt → Prop
  | .letDecl _ _ _ init _ => exprPlain init
  | .expr e => exprPlain e
  | .ret none => True
  | .ret (some value) => exprPlain value
  | .ifElse cond then_ els => exprPlain cond ∧ stmtsPlain ranges then_ ∧ stmtsPlain ranges els
  | .whileLoop cond body => exprPlain cond ∧ stmtsPlain ranges body
  | .doWhile body cond => stmtsPlain ranges body ∧ exprPlain cond
  | .forLoop none cond step body => optionExprPlain cond ∧ stmtsPlain ranges step ∧ stmtsPlain ranges body
  | .forLoop (some init) cond step body =>
    let started := (Analyzer.stmt ranges init).2
    let inner := Analyzer.loopRanges started (some (Analyzer.stmt ranges init).1) cond step body
    counterKept started (some (Analyzer.stmt ranges init).1) cond step body ∧ stmtPlain ranges init ∧
      optionExprPlain cond ∧ stmtsPlain inner step ∧ stmtsPlain inner body
  | .forOf name _ subject _ body _ | .generatorForOf name _ _ subject body _ =>
    exprPlain subject ∧ unusedUnder ranges name body ∧ stmtsPlain (ranges.remove name) body
  | .switch disc cases => exprPlain disc ∧ casesPlain ranges cases
  | .breakLoop => True
  | .continueLoop => True
  | .block body => stmtsPlain ranges body
  | .throw value => exprPlain value
  | .tryCatch body none handler _ => stmtsPlain ranges body ∧ stmtsPlain (Analyzer.stmts ranges body).2 handler
  | .tryCatch body (some (name, _)) handler _ =>
    stmtsPlain ranges body ∧ unusedUnder (Analyzer.stmts ranges body).2 name handler ∧
      stmtsPlain ((Analyzer.stmts ranges body).2.remove name) handler
  | .using _ body finalizer _ => stmtsPlain ranges body ∧ stmtsPlain (Analyzer.stmts ranges body).2 finalizer

def stmtsPlain (ranges : Ranges) : List Stmt → Prop
  | [] => True
  | s :: ss => stmtPlain ranges s ∧ stmtsPlain (Analyzer.stmt ranges s).2 ss

def casesPlain (ranges : Ranges) : List SwitchCase → Prop
  | [] => True
  | .mk test body :: cases => optionExprPlain test ∧ stmtsPlain ranges body ∧ casesPlain ranges cases

end

namespace Analyzer

theorem exprs_eq_map (ranges : Ranges) (es : List Expr) : exprs ranges es = es.map (expr ranges) := by
  induction es with
  | nil => rfl
  | cons e es ih => rw [exprs, ih, List.map_cons]

/-- the form, type and arguments of the rewritten expression -/
theorem expr_eq (ranges : Ranges) (op : Op) (ty : Ty) (pos : Pos) (args : List Expr) (body : List Stmt) :
    (∃ params captures isAsync owns, op = .lambda params captures isAsync owns ∧
      expr ranges (.mk op ty pos args body) = .mk op ty pos (exprs .empty args) (stmts .empty body).1) ∨
    (∃ c, op = .index c ∧ expr ranges (.mk op ty pos args body) =
      .mk (.index (checked ranges (exprs ranges args))) ty pos (exprs ranges args) body) ∨
    (∀ params captures isAsync owns, op ≠ .lambda params captures isAsync owns) ∧ (∀ c, op ≠ .index c) ∧
      expr ranges (.mk op ty pos args body) = .mk op ty pos (exprs ranges args) body := by
  unfold expr
  split
  · exact .inl ⟨_, _, _, _, rfl, rfl⟩
  · exact .inr (.inl ⟨_, rfl, rfl⟩)
  · next hlambda hindex => exact .inr (.inr ⟨fun _ _ _ _ h => hlambda _ _ _ _ h, fun _ h => hindex _ h, rfl⟩)

theorem ty_expr (ranges : Ranges) (e : Expr) : (expr ranges e).ty = e.ty := by
  obtain ⟨op, ty, pos, args, body⟩ := e
  obtain ⟨_, _, _, _, rfl, h⟩ | ⟨_, rfl, h⟩ | ⟨-, -, h⟩ := expr_eq ranges op ty pos args body <;> rw [h] <;> rfl

theorem localName_expr (ranges : Ranges) (e : Expr) : (expr ranges e).localName = e.localName := by
  obtain ⟨op, ty, pos, args, body⟩ := e
  obtain ⟨_, _, _, _, rfl, h⟩ | ⟨_, rfl, h⟩ | ⟨-, -, h⟩ := expr_eq ranges op ty pos args body
  · rfl
  · rw [h]
    rfl
  · cases op <;> rfl

theorem ranged_expr {ranges : Ranges} (other : Ranges) {e : Expr} {r : Interval} (h : Ranged ranges e r) :
    Ranged ranges (expr other e) r := by
  induction h with
  | int hty => exact .int hty
  | enumMember hty => exact .enumMember hty
  | localVar hty hr => exact .localVar hty hr
  | length hty hobj => exact .length hty ((ty_expr _ _).trans hobj)
  | add hty _ _ hc ihl ihr => exact .add hty ihl ihr hc
  | sub hty _ _ hc ihl ihr => exact .sub hty ihl ihr hc
  | mul hty _ _ hc ihl ihr => exact .mul hty ihl ihr hc
  | @cast inner _ _ _ _ _ hty hinner _ htarget hlo hhi ih =>
    exact .cast hty ((ty_expr other inner).symm ▸ hinner) ih htarget hlo hhi

mutual

/-- a statement gives no new fact -/
theorem stmt_le : ∀ (s : Stmt) (ranges : Ranges), (stmt ranges s).2.Le ranges
  | .letDecl name _ _ _ _, ranges => ranges.remove_le name
  | .tryCatch body _ handler _, ranges => (stmts_le handler _).trans (stmts_le body ranges)
  | .using _ body finalizer _, ranges => (stmts_le finalizer _).trans (stmts_le body ranges)
  | .expr _, ranges | .ret none, ranges | .ret (some _), ranges | .ifElse _ _ _, ranges => .refl ranges
  | .whileLoop _ _, ranges | .doWhile _ _, ranges | .forLoop none _ _ _, ranges => .refl ranges
  | .forLoop (some _) _ _ _, ranges | .forOf _ _ _ _ _ _, ranges => .refl ranges
  | .generatorForOf _ _ _ _ _ _, ranges | .switch _ _, ranges | .breakLoop, ranges => .refl ranges
  | .continueLoop, ranges | .block _, ranges | .throw _, ranges => .refl ranges

theorem stmts_le : ∀ (ss : List Stmt) (ranges : Ranges), (stmts ranges ss).2.Le ranges
  | [], ranges => .refl ranges
  | s :: ss, ranges => (stmts_le ss _).trans (stmt_le s ranges)

end

end Analyzer

end Subscript.Hir
