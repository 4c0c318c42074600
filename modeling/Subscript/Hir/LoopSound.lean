import Subscript.Hir.ExprSound

/-! Loops with the bounds checks of `trap_sites.rs` removed: the counter of a counted loop lies in its range in
the body and in the step. -/

namespace Subscript.Hir

open Flow Run

section Keeps

variable {K : Known} {quiet : Bool} {e : Expr} {ss : List Stmt}

theorem ExprSafe.keeps (h : ExprSafe e) (hplain : exprPlain e)
    (hassign : ∀ name, K.kept name → exprAssignsTo name e = false) :
    K.Keeps quiet (eval (Analyzer.expr K.ranges e)) fun _ => True :=
  (h K quiet hplain hassign).weaken fun _ _ => trivial

theorem ExprSafe.keeps_truth (h : ExprSafe e) (hplain : exprPlain e)
    (hassign : ∀ name, K.kept name → exprAssignsTo name e = false) :
    K.Keeps quiet (do let v ← eval (Analyzer.expr K.ranges e); truth v) fun _ => True :=
  (h.keeps hplain hassign).bind fun v _ => (Known.Keeps.truth v).weaken fun _ _ => trivial

theorem StmtsSafe.keeps_inScope (h : StmtsSafe ss) (hplain : stmtsPlain K.ranges ss)
    (hassign : ∀ name, K.kept name → stmtsAssignTo name ss = false) :
    K.Keeps quiet (inScope (execAll (Analyzer.stmts K.ranges ss).1)) fun _ => True :=
  .inScope fun _ hat => (h (K.move hat) quiet hplain hassign).moves

theorem StmtsSafe.keeps_loopBody (h : StmtsSafe ss) (hplain : stmtsPlain K.ranges ss)
    (hassign : ∀ name, K.kept name → stmtsAssignTo name ss = false) :
    K.Keeps quiet (loopBody (execAll (Analyzer.stmts K.ranges ss).1)) fun _ => True :=
  .loopBody fun _ hat => (h (K.move hat) quiet hplain hassign).moves

variable {name : String}

/-- the rounds of a `for`-`of` whose variable hides no range that is used -/
theorem StmtsSafe.keeps_elements (h : StmtsSafe ss) (hunused : unusedUnder K.ranges name ss)
    (hplain : stmtsPlain (K.ranges.remove name) ss)
    (hassign : ∀ name, K.kept name → stmtsAssignTo name ss = false) :
    K.Keeps quiet (elements name (execAll (Analyzer.stmts K.ranges ss).1)) fun _ => True := by
  rw [unusedUnder] at hunused
  rw [hunused]
  refine .loop (Known.Keeps.anyBool.bind fun b _ => ?_)
  split
  · refine .loopBody fun env hat => ?_
    have hdeclare : (K.move hat).Steps quiet (declareElement name) (K.ranges.remove name) :=
      Known.Steps.declare Known.Keeps.anyValue name
    refine hdeclare.bind_moves (K.ranges.remove_le name) fun env' hold => ?_
    exact (StmtsSafe.keeps_inScope (K := (K.move hat).later (K.ranges.remove_le name) hold) h hplain hassign).moves
  · exact .ret trivial

end Keeps

section Header

variable {ranges : Ranges} {name : String} {cond : Option Expr} {step body : List Stmt} {init : Option Stmt}

theorem conditionLimit_eq_some {limit : Int} (h : conditionLimit ranges name cond = some limit) :
    ∃ op ty pos left right rest bound, cond = some (.mk (.binary op) ty pos [left, right] rest) ∧
      left.localName = some name ∧ Ranged ranges right bound ∧
      (op = .lt ∧ limit = bound.hi - 1 ∨ op = .le ∧ limit = bound.hi) := by
  unfold conditionLimit at h
  split at h
  · next op ty pos left right rest =>
    split at h
    · next hleft =>
      split at h
      · next bound hbound =>
        refine ⟨op, ty, pos, left, right, rest, bound, rfl, hleft, ranged_of_intervalOf hbound, ?_⟩
        split at h
        · split at h
          · exact .inl ⟨rfl, (Option.some.inj h).symm⟩
          · cases h
        · exact .inr ⟨rfl, (Option.some.inj h).symm⟩
        · cases h
      · cases h
    · cases h
  · cases h

theorem stepIncrement_eq_some {increment : Interval} (h : stepIncrement ranges name step = some increment) :
    ∃ ty pos target value rest, step = [.expr (.mk (.assign (some .add)) ty pos [target, value] rest)] ∧
      target.localName = some name ∧ Ranged ranges value increment := by
  unfold stepIncrement at h
  split at h
  · next ty pos target value rest =>
    split at h
    · next htarget => exact ⟨ty, pos, target, value, rest, rfl, htarget, ranged_of_intervalOf h⟩
    · cases h
  · cases h

theorem inductionInterval_eq_some {range : Interval}
    (h : inductionInterval ranges init cond step body = some (name, range)) :
    ∃ ty isMutable e pos increment, init = some (.letDecl name ty isMutable e pos) ∧
      Ranged ranges e (.point range.lo) ∧ conditionLimit ranges name cond = some range.hi ∧
      stepIncrement ranges name step = some (.point increment) ∧ 0 < increment ∧
      stmtsAssignTo name body = false := by
  unfold inductionInterval at h
  split at h
  · next n ty isMutable e pos =>
    split at h
    · split at h
      · next start hi increment _ hstart hhi hincrement _ =>
        split at h
        · next hcond =>
          obtain ⟨hpoint, hpoint', hpos, -, -, -, hassign⟩ := hcond
          cases Option.some.inj h
          have hstartPoint : start = .point start.lo := by rw [Interval.point, Interval.mk.injEq]; exact ⟨rfl, hpoint.symm⟩
          have hincrementPoint : increment = .point increment.lo := by
            rw [Interval.point, Interval.mk.injEq]
            exact ⟨rfl, hpoint'.symm⟩
          refine ⟨ty, isMutable, e, pos, increment.lo, rfl, ranged_of_intervalOf (hstart.trans ?_), hhi,
            hincrement.trans ?_, hpos, hassign⟩
          · exact congrArg some hstartPoint
          · exact congrArg some hincrementPoint
        · cases h
      · cases h
    · cases h
  · cases h

theorem localName_eq_some {e : Expr} (h : e.localName = some name) :
    ∃ ty pos args rest, e = .mk (.localVar name) ty pos args rest := by
  obtain ⟨op, ty, pos, args, rest⟩ := e
  cases op <;> simp only [Expr.localName, reduceCtorEq, Option.some.injEq] at h
  subst h
  exact ⟨ty, pos, args, rest, rfl⟩

end Header

section Counted

variable {K : Known} {quiet : Bool} {name : String} {op : BinOp} {ty : Ty} {pos : Pos} {rest : List Stmt}
  {v : Int}

theorem eval_localVar_keeps {args : List Expr} :
    K.Keeps quiet (eval (.mk (.localVar name) ty pos args rest)) fun v =>
      ∀ w, K.kept name → K.start.lookup name = some w → v = w := by
  exact Known.Keeps.mayStop.bind fun _ _ => .readLocal name

/-- the condition of a counted loop holds only up to the limit of its counter -/
theorem condition_keeps {left right : Expr} {bound : Interval} {limit : Int} (hleft : left.localName = some name)
    (hkept : K.kept name) (hstart : K.start.lookup name = some (.int v)) (hright : K.KeepsValue true right)
    (hbound : Ranged K.ranges right bound) (hlimit : op = .lt ∧ limit = bound.hi - 1 ∨ op = .le ∧ limit = bound.hi) :
    K.Keeps true (evalCondition (some (.mk (.binary op) ty pos [left, right] rest))) fun b => b = true → v ≤ limit := by
  obtain ⟨lty, lpos, largs, lrest, rfl⟩ := localName_eq_some hleft
  have hcompare : ∀ a b, a = Val.int v → Bounded b (intervalOf K.ranges right) →
      K.Keeps true (binary op ty a b) fun w => ∃ y, y ≤ bound.hi ∧ (op = .lt → w = .bool (v < y)) ∧
        (op = .le → w = .bool (v ≤ y)) := by
    intro a b ha hb
    obtain ⟨y, hy, hin⟩ := hb bound (intervalOf_of_ranged hbound)
    exact (Known.Keeps.binary op ty a b).weaken fun w hw => ⟨y, hin.2, (hw v y ha hy).2⟩
  have heval : K.Keeps true (eval (.mk (.binary op) ty pos [.mk (.localVar name) lty lpos largs lrest, right] rest))
      fun w => ∃ y, y ≤ bound.hi ∧ (op = .lt → w = .bool (v < y)) ∧ (op = .le → w = .bool (v ≤ y)) := by
    obtain ⟨rfl, -⟩ | ⟨rfl, -⟩ := hlimit <;>
    · refine Known.Keeps.mayStop.bind fun _ _ => eval_localVar_keeps.bind fun a ha => hright.bind fun b hb => ?_
      exact hcompare a b (ha _ hkept hstart) (hb rfl)
  refine heval.bind fun w hw => (Known.Keeps.truth w).weaken fun b hb htrue => ?_
  obtain ⟨y, hy, hlt, hle⟩ := hw
  obtain ⟨hop, rfl⟩ | ⟨hop, rfl⟩ := hlimit
  · have := hb _ (hlt hop)
    rw [htrue, eq_comm, decide_eq_true_eq] at this
    omega
  · have := hb _ (hle hop)
    rw [htrue, eq_comm, decide_eq_true_eq] at this
    omega

/-- the local has just been assigned -/
def Known.Advanced (K : Known) (name : String) (n : Int) (env : Env) : Prop :=
  ∃ env₁, K.At env₁ ∧ env = Scope.assign name (.int n) env₁

/-- the step of a counted loop adds the increment to its counter -/
theorem counted_step {target value : Expr} {increment : Int} {kept : String → Prop}
    (htarget : target.localName = some name) (hkept : K.kept name) (hstart : K.start.lookup name = some (.int v))
    (hvalue : K.KeepsValue true value) (hincrement : Ranged K.ranges value (.point increment))
    (hsub : ∀ n, kept n → K.kept n) (hname : ¬ kept name) :
    Triple (Assumed true) InBounds K.At (execAll [.expr (.mk (.assign (some .add)) ty pos [target, value] rest)])
      (fun _ => K.Advanced name (v + increment))
      fun _ env => Scope.Same kept K.start env := by
  have hleave : ∀ (k : Leave) env, K.At env → Scope.Same kept K.start env := fun _ _ hs => hs.mono hsub
  have hadvanced : ∀ env, K.Advanced name (v + increment) env → Scope.Same kept K.start env := by
    rintro env ⟨env₁, hat, rfl⟩
    exact (hat.mono hsub).trans (.assign _ hname)
  have hwrite : ∀ new, new = Val.int (v + increment) → Triple (Assumed true) InBounds K.At
      (do writeLocal name new; anyValue)
      (fun _ => K.Advanced name (v + increment))
      fun _ env => Scope.Same kept K.start env := by
    rintro _ rfl
    refine Triple.bind (Q := fun _ => K.Advanced name (v + increment)) ?_ fun _ => ?_
    · exact Triple.modify fun env hs => ⟨env, hs, rfl⟩
    · exact Triple.choose fun _ => Triple.ret fun _ hs => hs
  refine Triple.bind (Q := fun _ => K.Advanced name (v + increment)) ?_ fun _ => ?_
  · refine Triple.bind ?_ fun _ => Triple.ret fun _ hs => hs
    unfold eval
    simp only [htarget]
    refine Known.Keeps.mayStop.followed hleave fun _ _ => ?_
    refine (Known.Keeps.readLocal name).followed hleave fun old hold => ?_
    refine hvalue.followed hleave fun w hw => ?_
    obtain ⟨y, rfl, hy⟩ := hw rfl _ (intervalOf_of_ranged hincrement)
    obtain rfl : y = increment := le_antisymm hy.2 hy.1
    refine (Known.Keeps.assigned (some .add) target.ty old (.int y)).followed hleave fun new hnew => ?_
    exact hwrite new (hnew rfl rfl v y (hold _ hkept hstart) rfl)
  · -- the run may be cut after the assignment
    apply Triple.choose
    rintro (_ | _ | _)
    · exact Triple.ret fun _ hs => hs
    · exact Triple.leave fun env hs => hadvanced env hs
    · exact Triple.leave fun env hs => hadvanced env hs

theorem hold_insert {ranges : Ranges} {env : Env} {range : Interval} (h : ranges.Hold env)
    (hlookup : env.lookup name = some (.int v)) (hv : range.Holds v) : (ranges.insert name range).Hold env := by
  intro n r hr
  by_cases hn : n = name
  · subst hn
    rw [Ranges.insert, if_pos rfl] at hr
    obtain rfl := Option.some.inj hr
    exact ⟨v, hlookup, hv⟩
  · rw [Ranges.insert_of_ne hn] at hr
    exact h n r hr

section Rounds

variable {left right target value : Expr} {sty : Ty} {spos : Pos} {srest body : List Stmt} {bound range : Interval}
  {increment : Int}

/-- the facts of a round that starts with the counter at `v` -/
def Known.round (K : Known) (name : String) {range : Interval} {v : Int} {base : Env} (hbase : K.At base)
    (hv : range.Holds v) : Known :=
  (K.later (K.ranges.remove_le name) ((hold_of_at hbase).remove name (.int v))).count
    (hold_insert ((hold_of_at hbase).remove name (.int v)) List.lookup_cons_self hv)

/-- the counter of a loop is at least `low`, in front of the locals around the loop -/
def Known.Counting (K : Known) (name : String) (low : Int) (env : Env) : Prop :=
  ∃ v base, env = (name, Val.int v) :: base ∧ K.At base ∧ low ≤ v

theorem counted_rounds (hright : ExprSafe right) (hvalue : ExprSafe value) (hbody : StmtsSafe body)
    (hplain : exprPlain right ∧ exprPlain value ∧ stmtsPlain ((K.ranges.remove name).insert name range) body)
    (hassign : ∀ n, n = name ∨ K.kept n → exprAssignsTo n right = false ∧ exprAssignsTo n value = false ∧
      stmtsAssignTo n body = false)
    (hunused : Analyzer.expr ((K.ranges.remove name).insert name range) right = Analyzer.expr (K.ranges.remove name) right)
    (hname : ¬ K.kept name)
    (hleft : left.localName = some name) (hbound : Ranged (K.ranges.remove name) right bound)
    (hlimit : op = .lt ∧ range.hi = bound.hi - 1 ∨ op = .le ∧ range.hi = bound.hi)
    (htarget : target.localName = some name)
    (hincrement : Ranged (K.ranges.remove name) value (.point increment)) (hpos : 0 < increment) :
    let inner := (K.ranges.remove name).insert name range
    Triple (Assumed quiet) InBounds (K.Counting name range.lo)
      (rounds (evalCondition (Analyzer.optionExpr inner (some (.mk (.binary op) ty pos [left, right] rest))))
        (execAll (Analyzer.stmts inner [.expr (.mk (.assign (some .add)) sty spos [target, value] srest)]).1)
        (execAll (Analyzer.stmts inner body).1))
      (fun _ env => Scope.Kept K.kept K.start env) fun _ env => Scope.Kept K.kept K.start env := by
  intro inner
  apply Triple.loop
  apply Triple.of_start
  rintro _ ⟨v, base, rfl, hbase, hlow⟩
  have hremoved := K.ranges.remove_self name
  have hleave : ∀ env, Scope.Same K.kept ((name, Val.int v) :: base) env → Scope.Kept K.kept K.start env :=
    fun env hs => ((Scope.Kept.of_same hbase).push _).trans (.of_same hs)
  -- the condition is decided with the counter at `v`, and with no range for it
  let K₁ := (K.later (K.ranges.remove_le name) ((Known.hold_of_at hbase).remove name (.int v))).keep name
  have hat : ∀ env, K₁.At env → Scope.Same K.kept ((name, Val.int v) :: base) env :=
    fun env hs => hs.mono fun n hn => Or.inr hn
  have hcond : K₁.Keeps true (evalCondition (Analyzer.optionExpr inner (some (.mk (.binary op) ty pos [left, right] rest))))
      fun b => b = true → v ≤ range.hi := by
    have hleft' : (Analyzer.expr inner left).localName = some name := (Analyzer.localName_expr _ _).trans hleft
    have hright' := hright K₁ true hplain.1 fun n hn => (hassign n hn).1
    have hbound' : Ranged K₁.ranges (Analyzer.expr K₁.ranges right) bound := Analyzer.ranged_expr _ hbound
    rw [show K₁.ranges = K.ranges.remove name from rfl, ← hunused] at hright' hbound'
    exact condition_keeps hleft' (Or.inl rfl) List.lookup_cons_self hright' hbound' hlimit
  refine Triple.conseq ((Known.Keeps.decisive hcond).followed (fun _ env hs => hleave env (hat env hs)) fun b hb => ?_)
    (by rintro _ rfl; exact .refl _) (fun _ _ h => h) fun _ _ h => h
  cases b with
  | false => exact Triple.ret fun env hs => hleave env (hat env hs)
  | true =>
    have hv : range.Holds v := ⟨hlow, hb rfl⟩
    let K₂ := K.round name hbase hv
    have hbody' : K₂.Keeps quiet (loopBody (execAll (Analyzer.stmts inner body).1)) fun _ => True :=
      hbody.keeps_loopBody hplain.2.2 fun n hn => (hassign n hn).2.2
    refine hbody'.followed (fun _ env hs => hleave env (hat env hs)) fun again _ => ?_
    cases again with
    | false => exact Triple.ret fun env hs => hleave env (hat env hs)
    | true =>
      refine Triple.bind ?_ fun _ => Triple.ret fun env hs => hs
      apply Triple.within
      intro env₁ hat₁
      obtain ⟨base₁, rfl, hbase₁⟩ := hat₁.cons_inv (Or.inl rfl)
      apply triple_decisive
      have hvalue' := hvalue (K₂.move hat₁) true hplain.2.1 fun n hn => (hassign n hn).2.1
      have hincrement' : Ranged inner (Analyzer.expr inner value) (.point increment) :=
        Analyzer.ranged_expr _ (hincrement.mono (Ranges.le_insert hremoved _))
      have htarget' := (Analyzer.localName_expr inner target).trans htarget
      refine Triple.conseq (counted_step htarget' (Or.inl rfl) List.lookup_cons_self hvalue'
        hincrement' (fun n hn => Or.inr hn) hname) (by rintro _ rfl; exact .refl _) ?_ ?_
      · rintro _ _ ⟨env₂, hat₂, rfl⟩
        obtain ⟨base₂, rfl, hbase₂⟩ := hat₂.cons_inv (Or.inl rfl)
        simp only [Scope.assign, if_true]
        rw [Scope.leave_of_length (by simp [hbase₂.length_eq])]
        have hkeep : ∀ n, K.kept n → n = name ∨ K.kept n := fun _ hn => .inr hn
        exact ⟨v + increment, base₂, rfl, hbase.trans ((hbase₁.mono hkeep).trans (hbase₂.mono hkeep)), by omega⟩
      · intro _ env hs
        have hlen : ((name, Val.int v) :: base₁).length = env.length := hs.length_eq
        rw [Scope.leave_of_length hlen]
        exact hleave env ((hat _ hat₁).trans hs)

end Rounds

end Counted

section For

variable {K : Known} {quiet : Bool} {init : Option Stmt} {cond : Option Expr} {step body : List Stmt}

theorem rounds_keep {cond : Run Bool} {step body : Run Unit} (hcond : K.Keeps true cond fun _ => True)
    (hstep : K.Keeps quiet (inScope (decisive step)) fun _ => True)
    (hbody : K.Keeps quiet (loopBody body) fun _ => True) : K.Keeps quiet (rounds cond step body) fun _ => True := by
  refine .loop ((Known.Keeps.decisive hcond).bind fun b _ => ?_)
  split
  · refine hbody.bind fun again _ => ?_
    split
    · exact hstep.bind fun _ _ => .ret trivial
    · exact .ret trivial
  · exact .ret trivial

variable {name : String} {ranges : Ranges} {isMutable : Bool}

theorem stmt_eq_letDecl {s : Stmt} {ty : Ty} {e : Expr} {pos : Pos}
    (h : (Analyzer.stmt ranges s).1 = .letDecl name ty isMutable e pos) :
    ∃ e₀, s = .letDecl name ty isMutable e₀ pos ∧ e = Analyzer.expr ranges e₀ := by
  unfold Analyzer.stmt at h
  split at h <;> cases h
  exact ⟨_, rfl, rfl⟩

/-- the safe parts of a loop header that the analysis looks into -/
structure HeaderSafe (init : Option Stmt) (cond : Option Expr) (step : List Stmt) : Prop where
  initSafe : ∀ s, init = some s → StmtSafe s
  startSafe : ∀ name ty isMutable e pos, init = some (.letDecl name ty isMutable e pos) → ExprSafe e
  condSafe : ∀ e, cond = some e → ExprSafe e
  boundSafe : ∀ e, cond = some e → ∀ a ∈ e.args, ExprSafe a
  stepSafe : StmtsSafe step
  valueSafe : ∀ e, step = [.expr e] → ∀ a ∈ e.args, ExprSafe a

variable {range : Interval}

/-- a loop whose counter the analysis found -/
theorem counted_for {ty : Ty} {e : Expr} {pos : Pos}
    (h : HeaderSafe (some (.letDecl name ty isMutable e pos)) cond step) (hbody : StmtsSafe body)
    (hplain : stmtPlain K.ranges (.forLoop (some (.letDecl name ty isMutable e pos)) cond step body))
    (hassign : ∀ n, K.kept n →
      stmtAssignsTo n (.forLoop (some (.letDecl name ty isMutable e pos)) cond step body) = false)
    (hcounted : inductionInterval (K.ranges.remove name)
      (some (.letDecl name ty isMutable (Analyzer.expr K.ranges e) pos)) cond step body = some (name, range)) :
    let inner := (K.ranges.remove name).insert name range
    K.Moves quiet (do
      decisive (exec (.letDecl name ty isMutable (Analyzer.expr K.ranges e) pos))
      rounds (evalCondition (Analyzer.optionExpr inner cond)) (execAll (Analyzer.stmts inner step).1)
        (execAll (Analyzer.stmts inner body).1)) := by
  intro inner
  obtain ⟨_, _, e', _, increment, hinit, hstart, hlimit, hstep, hpos, hunassigned⟩ := inductionInterval_eq_some hcounted
  cases hinit
  obtain ⟨op, cty, cpos, left, right, crest, bound, rfl, hleft, hbound, hlimit⟩ := conditionLimit_eq_some hlimit
  obtain ⟨sty, spos, target, value, srest, rfl, htarget, hincrement⟩ := stepIncrement_eq_some hstep
  have hright := h.boundSafe _ rfl right (by simp [Expr.args])
  have hvalue := h.valueSafe _ rfl value (by simp [Expr.args])
  simp only [stmtPlain, Analyzer.stmt, counterKept, Analyzer.loopRanges, hcounted, headerKept, optionExprPlain, exprPlain,
    exprsPlain, stmtsPlain, and_true] at hplain
  simp only [stmtAssignsTo, exprAssignsTo, exprsAssignTo, stmtsAssignTo, assignsLocal, Bool.or_eq_false_iff,
    Bool.or_false, decide_eq_false_iff_not] at hassign
  obtain ⟨⟨hboundName, hvalueName, hunused⟩, hplainE, ⟨-, hplainRight⟩, ⟨-, hplainValue⟩, hplainBody⟩ := hplain
  have hname : ¬ K.kept name := fun hk => (hassign name hk).1.2.1 htarget
  have hdeclare : Triple (Assumed quiet) InBounds K.At
      (decisive (exec (.letDecl name ty isMutable (Analyzer.expr K.ranges e) pos)))
      (fun _ => K.Counting name range.lo) fun _ env => Scope.Kept K.kept K.start env := by
    apply triple_decisive
    have hvalue := h.startSafe _ _ _ _ _ rfl K true hplainE fun n hn => (hassign n hn).1.1.1
    refine hvalue.followed (fun _ _ hs => .of_same hs) fun v hv => Triple.modify fun env hs => ?_
    obtain ⟨x, rfl, hx⟩ := hv rfl _ (intervalOf_of_ranged (hstart.mono (K.ranges.remove_le name)))
    exact ⟨x, env, rfl, hs, hx.1⟩
  refine Triple.bind hdeclare fun _ => counted_rounds hright hvalue hbody ⟨hplainRight, hplainValue, hplainBody⟩ ?_
    hunused hname hleft hbound hlimit htarget hincrement hpos
  rintro n (rfl | hn)
  · exact ⟨hboundName, hvalueName, hunassigned⟩
  · exact ⟨(hassign n hn).1.1.2.2.2, (hassign n hn).1.2.2.2, (hassign n hn).2⟩

/-- the rounds of a loop without a counter -/
theorem uncounted_rounds (hcond : ∀ e, cond = some e → ExprSafe e) (hstep : StmtsSafe step) (hbody : StmtsSafe body)
    (hplainCond : optionExprPlain cond)
    (hplain : stmtsPlain K.ranges step ∧ stmtsPlain K.ranges body)
    (hassignCond : ∀ n, K.kept n → ∀ e, cond = some e → exprAssignsTo n e = false)
    (hassign : ∀ n, K.kept n → stmtsAssignTo n step = false ∧ stmtsAssignTo n body = false) :
    K.Keeps quiet (rounds (evalCondition (Analyzer.optionExpr K.ranges cond))
      (execAll (Analyzer.stmts K.ranges step).1) (execAll (Analyzer.stmts K.ranges body).1)) fun _ => True := by
  apply rounds_keep
  · cases cond with
    | none => exact .ret trivial
    | some e => exact (hcond e rfl).keeps_truth hplainCond fun n hn => hassignCond n hn e rfl
  · refine .inScope fun env hat => triple_decisive ?_
    exact (hstep (K.move hat) true hplain.1 fun n hn => (hassign n hn).1).moves
  · exact hbody.keeps_loopBody hplain.2 fun n hn => (hassign n hn).2

theorem forLoop_assigns (h : stmtAssignsTo name (.forLoop init cond step body) = false) :
    (∀ s, init = some s → stmtAssignsTo name s = false) ∧ (∀ e, cond = some e → exprAssignsTo name e = false) ∧
      stmtsAssignTo name step = false ∧ stmtsAssignTo name body = false := by
  unfold stmtAssignsTo at h
  simp only [Bool.or_eq_false_iff] at h
  obtain ⟨⟨⟨hinit, hcond⟩, hstep⟩, hbody⟩ := h
  refine ⟨?_, ?_, hstep, hbody⟩
  · rintro s rfl
    exact hinit
  · rintro e rfl
    exact hcond

theorem for_safe_of (h : HeaderSafe init cond step) (hbody : StmtsSafe body) :
    StmtSafe (.forLoop init cond step body) := by
  intro K quiet hplain hassign
  have hrounds : ∀ K' : Known, K'.kept = K.kept → optionExprPlain cond →
      stmtsPlain K'.ranges step ∧ stmtsPlain K'.ranges body →
      K'.Keeps quiet (rounds (evalCondition (Analyzer.optionExpr K'.ranges cond))
        (execAll (Analyzer.stmts K'.ranges step).1) (execAll (Analyzer.stmts K'.ranges body).1)) fun _ => True := by
    intro K' hkept hplainCond hplain
    apply uncounted_rounds h.condSafe h.stepSafe hbody hplainCond hplain
    · exact hkept ▸ fun n hn => (forLoop_assigns (hassign n hn)).2.1
    · exact hkept ▸ fun n hn => (forLoop_assigns (hassign n hn)).2.2
  cases init with
  | none =>
    refine Known.Keeps.steps (.inScope fun env hat => ?_) (.refl K.ranges)
    have hnone : inductionInterval K.ranges none cond step body = none := rfl
    have hinit : (K.move hat).Keeps quiet (decisive (execInit none)) fun _ => True := .decisive (.ret trivial)
    exact (hinit.bind fun _ _ => hrounds (K.move hat) rfl hplain.1 hplain.2).moves
  | some s =>
    refine Known.Keeps.steps (.inScope fun env hat => ?_) (.refl K.ranges)
    cases hcounted : inductionInterval (Analyzer.stmt K.ranges s).2 (some (Analyzer.stmt K.ranges s).1) cond step body with
    | none =>
      simp only [stmtPlain, Analyzer.loopRanges, hcounted] at hplain
      obtain ⟨-, hplainInit, hplainCond, hplainRounds⟩ := hplain
      simp only [Analyzer.loopRanges, hcounted]
      have hinit := h.initSafe s rfl (K.move hat) true hplainInit fun n hn =>
        (forLoop_assigns (hassign n hn)).1 s rfl
      have hinit' : (K.move hat).Steps quiet (decisive (exec (Analyzer.stmt K.ranges s).1)) (Analyzer.stmt K.ranges s).2 :=
        triple_decisive hinit
      refine hinit'.bind_moves (Analyzer.stmt_le s _) fun env₁ hold => ?_
      exact (hrounds ((K.move hat).later (Analyzer.stmt_le s _) hold) rfl hplainCond hplainRounds).moves
    | some counter =>
      obtain ⟨name, range⟩ := counter
      simp only [Analyzer.loopRanges, hcounted]
      obtain ⟨ty, isMutable, e, pos, _, hinit, -⟩ := inductionInterval_eq_some hcounted
      obtain ⟨e₀, rfl, rfl⟩ := stmt_eq_letDecl (Option.some.inj hinit)
      exact counted_for h hbody hplain hassign hcounted

end For

end Subscript.Hir
