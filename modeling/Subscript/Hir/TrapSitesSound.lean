import Subscript.Hir.LoopSound

/-! The bounds checks that `trap_sites.rs` removes: in every run of a rewritten body an access without a check
stays in its array, if every loop header keeps its counter, no binding hides one whose range is used and no integer
wraps in an index or a header. -/

namespace Subscript.Hir

open Flow Run

def CasesSafe (cases : List SwitchCase) : Prop :=
  ∀ (K : Known) (quiet : Bool), casesPlain K.ranges cases →
    (∀ name, K.kept name → casesAssignTo name cases = false) →
    K.Keeps quiet (evalTests (Analyzer.switchCases K.ranges cases)) (fun _ => True) ∧
      K.Keeps quiet (execFrom (Analyzer.switchCases K.ranges cases)) (fun _ => True) ∧
      K.Keeps quiet (execRest (Analyzer.switchCases K.ranges cases)) fun _ => True

section Statements

variable {e : Expr} {ss ss' : List Stmt}

theorem ifElse_safe_of (h : ExprSafe e) (hthen : StmtsSafe ss) (hels : StmtsSafe ss') : StmtSafe (.ifElse e ss ss') := by
  intro K quiet hplain hassign
  rw [stmtPlain] at hplain
  simp only [stmtAssignsTo, Bool.or_eq_false_iff] at hassign
  have hcond : K.Keeps quiet (eval (Analyzer.expr K.ranges e)) fun _ => True :=
    h.keeps hplain.1 fun n hn => (hassign n hn).1.1
  refine Known.Keeps.steps ?_ (.refl _)
  refine hcond.bind fun v _ => (Known.Keeps.truth v).bind fun b _ => ?_
  split
  · exact hthen.keeps_inScope hplain.2.1 fun n hn => (hassign n hn).1.2
  · exact hels.keeps_inScope hplain.2.2 fun n hn => (hassign n hn).2

theorem while_safe_of (h : ExprSafe e) (hbody : StmtsSafe ss) : StmtSafe (.whileLoop e ss) := by
  intro K quiet hplain hassign
  rw [stmtPlain] at hplain
  simp only [stmtAssignsTo, Bool.or_eq_false_iff] at hassign
  refine Known.Keeps.steps ?_ (.refl _)
  refine .loop ((h.keeps hplain.1 fun n hn => (hassign n hn).1).bind fun v _ => (Known.Keeps.truth v).bind fun b _ => ?_)
  split
  · exact hbody.keeps_loopBody hplain.2 fun n hn => (hassign n hn).2
  · exact .ret trivial

theorem doWhile_safe_of (hbody : StmtsSafe ss) (h : ExprSafe e) : StmtSafe (.doWhile ss e) := by
  intro K quiet hplain hassign
  rw [stmtPlain] at hplain
  simp only [stmtAssignsTo, Bool.or_eq_false_iff] at hassign
  refine Known.Keeps.steps ?_ (.refl _)
  refine .loop ((hbody.keeps_loopBody hplain.1 fun n hn => (hassign n hn).1).bind fun again _ => ?_)
  split
  · exact h.keeps_truth hplain.2 fun n hn => (hassign n hn).2
  · exact .ret trivial

theorem forOf_keeps {K : Known} {quiet : Bool} {name : String} (h : ExprSafe e) (hbody : StmtsSafe ss)
    (hplain : exprPlain e ∧ unusedUnder K.ranges name ss ∧ stmtsPlain (K.ranges.remove name) ss)
    (hassign : ∀ n, K.kept n → exprAssignsTo n e = false ∧ stmtsAssignTo n ss = false) :
    K.Keeps quiet (do
      let _ ← eval (Analyzer.expr K.ranges e)
      elements name (execAll (Analyzer.stmts K.ranges ss).1)) fun _ => True :=
  (h.keeps hplain.1 fun n hn => (hassign n hn).1).bind fun _ _ =>
    hbody.keeps_elements hplain.2.1 hplain.2.2 fun n hn => (hassign n hn).2

theorem switch_safe_of {cases : List SwitchCase} (h : ExprSafe e) (hcases : CasesSafe cases) :
    StmtSafe (.switch e cases) := by
  intro K quiet hplain hassign
  rw [stmtPlain] at hplain
  simp only [stmtAssignsTo, Bool.or_eq_false_iff] at hassign
  obtain ⟨htests, hfrom, -⟩ := hcases K quiet hplain.2 fun n hn => (hassign n hn).2
  refine Known.Keeps.steps ?_ (.refl _)
  exact (h.keeps hplain.1 fun n hn => (hassign n hn).1).bind fun _ _ => htests.bind fun _ _ => .switchBody hfrom

/-- the handler knows what is known after the body, without the counter that the caught exception hides -/
theorem tryCatch_safe_of {binding : Option (String × Ty)} {pos : Pos} (hbody : StmtsSafe ss) (hhandler : StmtsSafe ss') :
    StmtSafe (.tryCatch ss binding ss' pos) := by
  intro K quiet hplain hassign
  simp only [stmtAssignsTo, Bool.or_eq_false_iff] at hassign
  have hle := Analyzer.stmts_le ss K.ranges
  refine Known.Keeps.steps ?_ ((Analyzer.stmts_le ss' _).trans hle)
  cases binding with
  | none =>
    rw [stmtPlain] at hplain
    refine .catching (hbody.keeps_inScope hplain.1 fun n hn => (hassign n hn).1) (.inScope fun env hat => ?_)
    have hdeclare : (K.move hat).Steps quiet (declareCaught none) (Analyzer.stmts K.ranges ss).2 :=
      Known.Keeps.steps (.ret trivial) hle
    refine hdeclare.bind_moves hle fun env₁ hold => ?_
    exact (hhandler ((K.move hat).later hle hold) quiet hplain.2 fun n hn => (hassign n hn).2).moves
  | some caught =>
    rw [stmtPlain, unusedUnder] at hplain
    obtain ⟨hplainBody, hunused, hplainHandler⟩ := hplain
    change K.Keeps quiet (exec (.tryCatch (Analyzer.stmts K.ranges ss).1 (some caught)
      (Analyzer.stmts (Analyzer.stmts K.ranges ss).2 ss').1 pos)) _
    rw [hunused]
    refine .catching (hbody.keeps_inScope hplainBody fun n hn => (hassign n hn).1) (.inScope fun env hat => ?_)
    have hless := ((Analyzer.stmts K.ranges ss).2.remove_le caught.1).trans hle
    have hdeclare : (K.move hat).Steps quiet (declare caught.1 .opaqueValue) ((Analyzer.stmts K.ranges ss).2.remove caught.1) :=
      Triple.modify fun env hs => ⟨(Scope.Kept.of_same hs).push _, ((Known.hold_of_at hs).anti hle).remove _ _⟩
    refine hdeclare.bind_moves hless fun env₁ hold => ?_
    exact (hhandler ((K.move hat).later hless hold) quiet hplainHandler fun n hn => (hassign n hn).2).moves

theorem using_safe_of {bindings : List UsingBinding} {declared : Bool} (hbody : StmtsSafe ss) (hfinalizer : StmtsSafe ss') :
    StmtSafe (.using bindings ss ss' declared) := by
  intro K quiet hplain hassign
  rw [stmtPlain] at hplain
  simp only [stmtAssignsTo, Bool.or_eq_false_iff] at hassign
  have hle := Analyzer.stmts_le ss K.ranges
  refine Known.Keeps.steps ?_ ((Analyzer.stmts_le ss' _).trans hle)
  refine .finally_ (hbody.keeps_inScope hplain.1 fun n hn => (hassign n hn).1) (.inScope fun env hat => ?_)
  have hold := (Known.hold_of_at hat).anti hle
  exact (hfinalizer ((K.move hat).later hle hold) quiet hplain.2 fun n hn => (hassign n hn).2).moves

end Statements

mutual

theorem expr_safe : ∀ e : Expr, ExprSafe e
  | .mk _ _ _ args body => expr_safe_of (exprs_safe args) (stmts_safe body)

theorem exprs_safe : ∀ es : List Expr, ∀ a ∈ es, ExprSafe a
  | [] => fun _ ha => absurd ha List.not_mem_nil
  | e :: es => List.forall_mem_cons.mpr ⟨expr_safe e, exprs_safe es⟩

theorem args_safe : ∀ e : Expr, ∀ a ∈ e.args, ExprSafe a
  | .mk _ _ _ args _ => exprs_safe args

theorem stmt_safe : ∀ s : Stmt, StmtSafe s
  | .letDecl name _ _ init _ => by
    intro K quiet hplain hassign
    exact Known.Steps.declare (expr_safe init K quiet hplain hassign) name
  | .expr e => by
    intro K quiet hplain hassign
    exact (((expr_safe e).keeps hplain hassign).bind fun _ _ => .ret trivial).steps (.refl _)
  | .ret none => fun K quiet _ _ => Known.Keeps.steps .leave (.refl _)
  | .ret (some value) => by
    intro K quiet hplain hassign
    exact (((expr_safe value).keeps hplain hassign).bind fun _ _ => .leave).steps (.refl _)
  | .ifElse cond then_ els => ifElse_safe_of (expr_safe cond) (stmts_safe then_) (stmts_safe els)
  | .whileLoop cond body => while_safe_of (expr_safe cond) (stmts_safe body)
  | .doWhile body cond => doWhile_safe_of (stmts_safe body) (expr_safe cond)
  | .forLoop init cond step body => for_safe_of
    { initSafe := (init_safe init).1
      startSafe := (init_safe init).2
      condSafe := (cond_safe cond).1
      boundSafe := (cond_safe cond).2
      stepSafe := stmts_safe step
      valueSafe := step_safe step } (stmts_safe body)
  | .forOf _ _ subject _ body _ => by
    intro K quiet hplain hassign
    rw [stmtPlain] at hplain
    simp only [stmtAssignsTo, Bool.or_eq_false_iff] at hassign
    exact (forOf_keeps (expr_safe subject) (stmts_safe body) hplain hassign).steps (.refl _)
  | .generatorForOf _ _ _ subject body _ => by
    intro K quiet hplain hassign
    rw [stmtPlain] at hplain
    simp only [stmtAssignsTo, Bool.or_eq_false_iff] at hassign
    exact (forOf_keeps (expr_safe subject) (stmts_safe body) hplain hassign).steps (.refl _)
  | .switch disc cases => switch_safe_of (expr_safe disc) (cases_safe cases)
  | .breakLoop => fun K quiet _ _ => Known.Keeps.steps .leave (.refl _)
  | .continueLoop => fun K quiet _ _ => Known.Keeps.steps .leave (.refl _)
  | .block body => by
    intro K quiet hplain hassign
    exact ((stmts_safe body).keeps_inScope hplain hassign).steps (.refl _)
  | .throw value => by
    intro K quiet hplain hassign
    exact (((expr_safe value).keeps hplain hassign).bind fun _ _ => .leave).steps (.refl _)
  | .tryCatch body _ handler _ => tryCatch_safe_of (stmts_safe body) (stmts_safe handler)
  | .using _ body finalizer _ => using_safe_of (stmts_safe body) (stmts_safe finalizer)

theorem init_safe : ∀ init : Option Stmt, (∀ s, init = some s → StmtSafe s) ∧
    ∀ name ty isMutable e pos, init = some (.letDecl name ty isMutable e pos) → ExprSafe e
  | none => ⟨nofun, nofun⟩
  | some s => ⟨fun _ h => Option.some.inj h ▸ stmt_safe s, fun _ _ _ _ _ h => start_safe s _ _ _ _ _ (Option.some.inj h)⟩

theorem start_safe : ∀ (s : Stmt) (name : String) (ty : Ty) (isMutable : Bool) (e : Expr) (pos : Pos),
    s = .letDecl name ty isMutable e pos → ExprSafe e
  | .letDecl _ _ _ init _ => fun _ _ _ _ _ h => (Stmt.letDecl.inj h).2.2.2.1 ▸ expr_safe init
  | .expr _ | .ret _ | .ifElse _ _ _ | .whileLoop _ _ | .doWhile _ _ | .forLoop _ _ _ _ | .forOf _ _ _ _ _ _ => nofun
  | .generatorForOf _ _ _ _ _ _ | .switch _ _ | .breakLoop | .continueLoop | .block _ | .throw _ => nofun
  | .tryCatch _ _ _ _ | .using _ _ _ _ => nofun

theorem cond_safe : ∀ cond : Option Expr, (∀ e, cond = some e → ExprSafe e) ∧
    ∀ e, cond = some e → ∀ a ∈ e.args, ExprSafe a
  | none => ⟨nofun, nofun⟩
  | some e => ⟨fun _ h => Option.some.inj h ▸ expr_safe e, fun _ h => Option.some.inj h ▸ args_safe e⟩

theorem value_safe : ∀ (s : Stmt) (e : Expr), s = .expr e → ∀ a ∈ e.args, ExprSafe a
  | .expr e => fun _ h => Stmt.expr.inj h ▸ args_safe e
  | .letDecl _ _ _ _ _ | .ret _ | .ifElse _ _ _ | .whileLoop _ _ | .doWhile _ _ | .forLoop _ _ _ _ => nofun
  | .forOf _ _ _ _ _ _ | .generatorForOf _ _ _ _ _ _ | .switch _ _ | .breakLoop | .continueLoop | .block _ => nofun
  | .throw _ | .tryCatch _ _ _ _ | .using _ _ _ _ => nofun

theorem step_safe : ∀ (step : List Stmt) (e : Expr), step = [.expr e] → ∀ a ∈ e.args, ExprSafe a
  | [] => nofun
  | s :: _ => fun e h => value_safe s e (List.cons.inj h).1

theorem stmts_safe : ∀ ss : List Stmt, StmtsSafe ss
  | [] => fun K quiet _ _ => Known.Keeps.mayStop.steps (.refl _)
  | s :: ss => by
    intro K quiet hplain hassign
    rw [stmtsPlain] at hplain
    simp only [stmtsAssignTo, Bool.or_eq_false_iff] at hassign
    have hfirst := stmt_safe s K quiet hplain.1 fun n hn => (hassign n hn).1
    refine hfirst.bind (Analyzer.stmt_le s _) fun env hold => ?_
    exact stmts_safe ss (K.later (Analyzer.stmt_le s _) hold) quiet hplain.2 fun n hn => (hassign n hn).2

theorem cases_safe : ∀ cases : List SwitchCase, CasesSafe cases
  | [] => fun K quiet _ _ => ⟨.ret trivial, .ret trivial, .ret trivial⟩
  | .mk test body :: cases => by
    intro K quiet hplain hassign
    rw [casesPlain] at hplain
    have hparts : ∀ n, K.kept n → (∀ e, test = some e → exprAssignsTo n e = false) ∧ stmtsAssignTo n body = false ∧
        casesAssignTo n cases = false := by
      intro n hn
      have h := hassign n hn
      unfold casesAssignTo at h
      simp only [Bool.or_eq_false_iff] at h
      refine ⟨?_, h.1.2, h.2⟩
      rintro e rfl
      exact h.1.1
    obtain ⟨htests, hfrom, hrest⟩ := cases_safe cases K quiet hplain.2.2 fun n hn => (hparts n hn).2.2
    have hbody : K.Keeps quiet (inScope (execAll (Analyzer.stmts K.ranges body).1)) fun _ => True :=
      (stmts_safe body).keeps_inScope hplain.2.1 fun n hn => (hparts n hn).2.1
    have htest : K.Keeps quiet (evalCondition (Analyzer.optionExpr K.ranges test)) fun _ => True := by
      cases test with
      | none => exact .ret trivial
      | some e => exact ((cond_safe (some e)).1 e rfl).keeps_truth hplain.1 fun n hn => (hparts n hn).1 e rfl
    refine ⟨htest.bind fun _ _ => Known.Keeps.anyBool.bind fun b _ => ?_, .choose fun here => ?_, ?_⟩
    · split
      · exact htests
      · exact .ret trivial
    · cases here with
      | false => exact hfrom
      | true => exact hbody.bind fun _ _ => hrest
    · exact hbody.bind fun _ _ => hrest

end

/-- the events of a run of a body, or of a part of one -/
def Runs (body : List Stmt) (t : List Event) : Prop := ∃ env env' r, execAll body env env' r t

/-- every access without a check stays in its array -/
def Event.AccessesInBounds (t : List Event) : Prop :=
  ∀ index len, Event.access index len ∈ t → 0 ≤ index ∧ index < len

theorem removed_checks_redundant {body : List Stmt} (hplain : stmtsPlain .empty body) {t : List Event}
    (hrun : Runs (decideIndexChecks body) t) (hwrap : Event.wrapped true ∉ t) : Event.AccessesInBounds t := by
  obtain ⟨env, env', r, hrun⟩ := hrun
  have hsafe := stmts_safe body (.nothing env) false hplain fun _ hk => hk.elim
  have hassumed : ∀ e ∈ t, Assumed false e := by
    intro e he
    cases e with
    | access index len => trivial
    | wrapped decisive =>
      cases decisive with
      | false => exact ⟨rfl, rfl⟩
      | true => exact absurd he hwrap
  intro index len hmem
  exact (hsafe (.refl env) hrun hassumed).1 _ hmem

section Examples

def place : Pos := ⟨"main.ts", 1, 1⟩

def literal (ty : Ty) (n : Int) : Expr := .mk (.int n) ty place [] []

def variable_ (ty : Ty) (name : String) : Expr := .mk (.localVar name) ty place [] []

/-- `for (let i: ty = 0; i < 4; i += 1) { a[index]; }` with an array of length 4 -/
def accessLoop (ty : Ty) (checked : Bool) (index : Expr) : List Stmt :=
  [.forLoop (some (.letDecl "i" ty true (literal ty 0) place))
    (some (.mk (.binary .lt) .bool place [variable_ ty "i", literal ty 4] []))
    [.expr (.mk (.assign (some .add)) ty place [variable_ ty "i", literal ty 1] [])]
    [.expr (.mk (.index checked) .i32 place [variable_ (.fixedArray .i32 4) "a", index] [])]]

theorem run_mayStop (env : Env) : mayStop env env (.done ()) [] := ⟨none, Comp.run_pure _ _⟩

theorem eval_literal (ty : Ty) (n : Int) (env : Env) : eval (literal ty n) env env (.done (.int n)) [] :=
  Comp.run_silent (run_mayStop env) (Comp.run_pure _ _)

theorem eval_variable {env : Env} {name : String} {v : Val} (ty : Ty) (h : env.lookup name = some v) :
    eval (variable_ ty name) env env (.done v) [] := by
  refine Comp.run_silent (run_mayStop env) (Comp.run_silent (a := env) ⟨rfl, rfl, rfl⟩ ?_)
  rw [h]
  exact Comp.run_pure _ _

theorem eval_binary {env : Env} {op : BinOp} {ty : Ty} {left right : Expr} {a b v : Val} {t₁ t₂ t₃ : List Event}
    (hand : op ≠ .and) (hor : op ≠ .or) (hleft : eval left env env (.done a) t₁)
    (hright : eval right env env (.done b) t₂) (hv : binary op ty a b env env (.done v) t₃) :
    eval (.mk (.binary op) ty place [left, right] []) env env (.done v) (t₁ ++ (t₂ ++ t₃)) := by
  have h : (do let a ← eval left; let b ← eval right; binary op ty a b : Run Val) env env (.done v)
      (t₁ ++ (t₂ ++ t₃)) := Comp.run_bind hleft (Comp.run_bind hright hv)
  unfold eval
  refine Comp.run_silent (run_mayStop env) ?_
  cases op <;> first | exact h | exact absurd rfl hand | exact absurd rfl hor

/-- the first round of the loop, cut after the access -/
theorem accessLoop_runs {ty : Ty} {index : Expr} {n : Int} {t : List Event}
    (h : eval index [("i", .int 0), ("a", .opaqueValue)] [("i", .int 0), ("a", .opaqueValue)] (.done (.int n)) t) :
    Runs (accessLoop ty false index) (t.map markDecisive ++ [.access n 4]) := by
  let env : Env := [("a", .opaqueValue)]
  let inner : Env := [("i", .int 0), ("a", .opaqueValue)]
  let cond : Expr := .mk (.binary .lt) .bool place [variable_ ty "i", literal ty 4] []
  let load : Expr := .mk (.index false) .i32 place [variable_ (.fixedArray .i32 4) "a", index] []
  let events : List Event := t.map markDecisive ++ [.access n 4]
  have hinit : decisive (execInit (some (.letDecl "i" ty true (literal ty 0) place))) env inner (.done ()) [] :=
    ⟨[], Comp.run_silent (eval_literal ty 0 env) ⟨rfl, rfl, rfl⟩, rfl⟩
  have hcond : decisive (evalCondition (some cond)) inner inner (.done true) [] := by
    have hless : binary .lt .bool (.int 0) (.int 4) inner inner (.done (.bool true)) [] := Comp.run_pure _ _
    have hvalue : eval cond inner inner (.done (.bool true)) [] :=
      eval_binary (by decide) (by decide) (eval_variable ty rfl) (eval_literal ty 4 inner) hless
    exact ⟨[], Comp.run_silent hvalue (Comp.run_pure _ _), rfl⟩
  have haccess : eval load inner inner (.done .opaqueValue) events := by
    have hmark : decisive (eval index) inner inner (.done (.int n)) (t.map markDecisive) := ⟨t, h, rfl⟩
    have hemit : access false (.fixedArray .i32 4) (.int n) inner inner (.done ()) [.access n 4] := ⟨rfl, rfl, rfl⟩
    have hany : anyValue inner inner (.done .opaqueValue) [] := ⟨.opaqueValue, Comp.run_pure _ _⟩
    refine Comp.run_silent (run_mayStop inner) (Comp.run_silent (eval_variable _ rfl) ?_)
    exact Comp.run_bind hmark (Comp.run_bind hemit hany)
  have hcut : mayStop inner inner (.left .cut) [] := ⟨some false, rfl, rfl, rfl⟩
  have hbody : execAll [.expr load] inner inner (.left .cut) events := by
    have hstmt : exec (.expr load) inner inner (.done ()) events :=
      List.append_nil events ▸ Comp.run_bind haccess (Comp.run_pure () inner)
    have hall := Comp.run_bind (f := fun _ => execAll []) hstmt hcut
    rwa [List.append_nil] at hall
  have hround : loopBody (execAll [.expr load]) inner inner (.left .cut) events :=
    ⟨.left .cut, inner, _, [], ⟨inner, hbody, rfl⟩, ⟨rfl, rfl, rfl⟩, (List.append_nil _).symm⟩
  have hrounds : rounds (evalCondition (some cond))
      (execAll [.expr (.mk (.assign (some .add)) ty place [variable_ ty "i", literal ty 1] [])])
      (execAll [.expr load]) inner inner (.left .cut) events :=
    .left (Comp.run_silent hcond (Comp.run_bind_left hround))
  refine ⟨env, env, .left .cut, Comp.run_bind_left ⟨inner, Comp.run_silent hinit hrounds, rfl⟩⟩

/-- `a[i]` in a loop over the array, with a run that accesses it -/
theorem removed_checks_redundant_counter :
    Event.AccessesInBounds [.access 0 4] ∧ Runs (decideIndexChecks (accessLoop .i32 true (variable_ .i32 "i"))) [.access 0 4] := by
  have hunchecked : Runs (accessLoop .i32 false (variable_ .i32 "i")) [.access 0 4] :=
    accessLoop_runs (eval_variable .i32 rfl)
  have hrun : Runs (decideIndexChecks (accessLoop .i32 true (variable_ .i32 "i"))) [.access 0 4] := hunchecked
  have hplain : stmtsPlain .empty (accessLoop .i32 true (variable_ .i32 "i")) := by
    refine ⟨⟨⟨rfl, rfl, rfl⟩, trivial, ⟨trivial, trivial, trivial⟩, ?_, ?_⟩, trivial⟩
    · exact ⟨⟨trivial, trivial, trivial⟩, trivial⟩
    · exact ⟨⟨trivial, trivial, trivial⟩, trivial⟩
  exact ⟨removed_checks_redundant hplain hrun (by decide), hrun⟩

/-- `a[((i - 1) as i32) + 1]` with `i: u8`: the analysis takes `i - 1` to be `-1` where it wraps to 255 -/
def wrappingIndex : Expr :=
  .mk (.binary .add) .i32 place
    [.mk .cast .i32 place [.mk (.binary .sub) .u8 place [variable_ .u8 "i", literal .u8 1] []] [], literal .i32 1] []

theorem wrappingIndex_out_of_bounds :
    ¬ ∀ t, Runs (decideIndexChecks (accessLoop .u8 true wrappingIndex)) t → Event.AccessesInBounds t := by
  intro hall
  let inner : Env := [("i", .int 0), ("a", .opaqueValue)]
  have hwrapped : binary .sub .u8 (.int 0) (.int 1) inner inner (.done (.int 255)) [.wrapped false] := by
    have hemit : (Comp.emit (.wrapped false) : Run Unit) inner inner (.done ()) [.wrapped false] := ⟨rfl, rfl, rfl⟩
    change wrapped .u8 (-1) inner inner _ _
    exact Comp.run_bind hemit (Comp.run_pure _ _)
  have hsub : eval (.mk (.binary .sub) .u8 place [variable_ .u8 "i", literal .u8 1] []) inner inner (.done (.int 255))
      [.wrapped false] :=
    eval_binary (by decide) (by decide) (eval_variable .u8 rfl) (eval_literal .u8 1 inner)
      hwrapped
  have hcast : eval (.mk .cast .i32 place [.mk (.binary .sub) .u8 place [variable_ .u8 "i", literal .u8 1] []] [])
      inner inner (.done (.int 255)) [.wrapped false] :=
    Comp.run_silent (run_mayStop inner) (Comp.run_bind hsub (Comp.run_pure _ _))
  have hindex : eval wrappingIndex inner inner (.done (.int 256)) [.wrapped false] :=
    eval_binary (by decide) (by decide) hcast (eval_literal .i32 1 inner) (Comp.run_pure _ _)
  have hrun : Runs (accessLoop .u8 false wrappingIndex) [.wrapped true, .access 256 4] := accessLoop_runs hindex
  have := hall _ hrun 256 4 (by simp)
  omega

end Examples

end Subscript.Hir
