import Subscript.Hir.Known

/-! Expressions with the bounds checks of `trap_sites.rs` removed: where nothing wraps a value lies in its
interval, and an access without a check stays in its array. -/

namespace Subscript.Hir

open Flow Run

section Expressions

variable {K : Known} {quiet : Bool} {op : Op} {ty : Ty} {pos : Pos} {args : List Expr} {body : List Stmt}

/-- the value of an expression lies in its interval, where nothing wraps -/
def Known.KeepsValue (K : Known) (quiet : Bool) (e : Expr) : Prop :=
  K.Keeps quiet (eval e) fun v => quiet = true → Bounded v (intervalOf K.ranges e)

theorem evalOne_keeps (h : ∀ a ∈ args, K.KeepsValue quiet a) : K.Keeps quiet (evalOne args) fun _ => True := by
  induction args with
  | nil => exact .ret trivial
  | cons e es ih =>
    apply Known.Keeps.choose
    rintro (_ | _)
    · exact ih fun a ha => h a (List.mem_cons_of_mem _ ha)
    · exact (h e List.mem_cons_self).bind fun _ _ => .ret trivial

theorem bounded_binary {op : BinOp} {left right : Expr} {a b v : Val}
    (ha : Bounded a (intervalOf K.ranges left)) (hb : Bounded b (intervalOf K.ranges right))
    (hv : ∀ x y, a = .int x → b = .int y → (op = .add → v = .int (x + y)) ∧ (op = .sub → v = .int (x - y)) ∧
      (op = .mul → v = .int (x * y))) :
    Bounded v (intervalOf K.ranges (.mk (.binary op) ty pos [left, right] body)) := by
  intro r hr
  cases ranged_of_intervalOf hr with
  | add _ hl hr hc =>
    obtain ⟨x, rfl, hx⟩ := ha _ (intervalOf_of_ranged hl)
    obtain ⟨y, rfl, hy⟩ := hb _ (intervalOf_of_ranged hr)
    exact ⟨x + y, (hv x y rfl rfl).1 rfl, Interval.holds_add hc hx hy⟩
  | sub _ hl hr hc =>
    obtain ⟨x, rfl, hx⟩ := ha _ (intervalOf_of_ranged hl)
    obtain ⟨y, rfl, hy⟩ := hb _ (intervalOf_of_ranged hr)
    exact ⟨x - y, (hv x y rfl rfl).2.1 rfl, Interval.holds_sub hc hx hy⟩
  | mul _ hl hr hc =>
    obtain ⟨x, rfl, hx⟩ := ha _ (intervalOf_of_ranged hl)
    obtain ⟨y, rfl, hy⟩ := hb _ (intervalOf_of_ranged hr)
    exact ⟨x * y, (hv x y rfl rfl).2.2 rfl, Interval.holds_mul hc hx hy⟩

theorem bounded_cast {inner : Expr} {v w : Val} (hv : Bounded v (intervalOf K.ranges inner))
    (hw : ∀ n, v = .int n → w = .int (ty.wrap n)) :
    Bounded w (intervalOf K.ranges (.mk .cast ty pos [inner] body)) := by
  intro r hr
  cases ranged_of_intervalOf hr with
  | cast _ _ hr htarget hlo hhi =>
    obtain ⟨n, rfl, hn⟩ := hv r (intervalOf_of_ranged hr)
    have hwrap := wrap_eq_self htarget ⟨le_trans hlo hn.1, le_trans hn.2 hhi⟩
    exact ⟨n, by rw [hw n rfl, hwrap], hn⟩

/-- one step of the evaluation: an expression of safe arguments is safe, if it assigns no local with a fact
and a missing check is justified -/
theorem eval_keeps (hargs : ∀ a ∈ args, ∀ q, K.KeepsValue q a)
    (hassign : ∀ name, K.kept name → assignsLocal name op args = false)
    (haccess : ∀ obj index element len, op = .index false → args = [obj, index] →
      obj.ty = .fixedArray element len → indexInBounds K.ranges index len = true)
    (hlambda : ∀ params captures isAsync owns, op ≠ .lambda params captures isAsync owns) :
    K.KeepsValue quiet (.mk op ty pos args body) := by
  have hsome := (Known.Keeps.loop (evalOne_keeps fun a ha => hargs a ha quiet)).bind fun _ _ => .anyValue
  unfold Known.KeepsValue eval
  refine Known.Keeps.mayStop.bind fun _ _ => ?_
  split
  · -- a literal
    refine .ret fun _ r hr => ?_
    cases ranged_of_intervalOf hr
    exact ⟨_, rfl, Interval.holds_point _⟩
  · refine .ret fun _ r hr => ?_
    cases ranged_of_intervalOf hr
    exact ⟨_, rfl, Interval.holds_point _⟩
  · refine (Known.Keeps.readLocal _).weaken fun v hv _ r hr => ?_
    cases ranged_of_intervalOf hr with
    | localVar _ hr =>
      obtain ⟨n, hn, hin⟩ := K.holds _ r hr
      exact ⟨n, hv _ (K.tracked _ r hr) hn, hin⟩
  · next obj =>
    refine (hargs obj (by simp) quiet).bind fun _ _ => (Known.Keeps.length obj.ty).weaken fun v hv _ r hr => ?_
    cases ranged_of_intervalOf hr with
    | length _ hobj => exact ⟨_, hv _ _ hobj, Interval.holds_point _⟩
  · refine hsome.weaken fun v _ _ r hr => ?_
    cases ranged_of_intervalOf hr
  · refine hsome.weaken fun v _ _ r hr => ?_
    cases ranged_of_intervalOf hr
  · next op left right _ _ =>
    refine (hargs left (by simp) quiet).bind fun a ha => (hargs right (by simp) quiet).bind fun b hb => ?_
    refine (Known.Keeps.binary op ty a b).weaken fun v hv hq => ?_
    exact bounded_binary (ha hq) (hb hq) fun x y hx hy => (hv x y hx hy).1 hq
  · next inner =>
    refine (hargs inner (by simp) quiet).bind fun a ha => (Known.Keeps.cast ty a).weaken fun v hv hq => ?_
    exact bounded_cast (ha hq) hv
  · next checked obj index =>
    refine (hargs obj (by simp) quiet).bind fun _ _ => ?_
    -- inside of the index nothing wraps, so that its interval holds
    refine (Known.Keeps.decisive (hargs index (by simp) true)).bind fun i hi => ?_
    have hin : K.Keeps quiet (access checked obj.ty i) fun _ => True := by
      apply Known.Keeps.access
      rintro element len n rfl hty rfl
      have hbounds := haccess obj index element len rfl rfl hty
      unfold indexInBounds at hbounds
      split at hbounds
      · next range hrange =>
        obtain ⟨m, hm, hholds⟩ := hi rfl range hrange
        cases hm
        simp only [Bool.decide_and, Bool.and_eq_true, decide_eq_true_eq] at hbounds
        exact ⟨le_trans hbounds.1 hholds.1, lt_of_le_of_lt hholds.2 hbounds.2⟩
      · cases hbounds
    refine hin.bind fun _ _ => Known.Keeps.anyValue.weaken fun v _ _ r hr => ?_
    cases ranged_of_intervalOf hr
  · next op target value =>
    have hnone : ∀ v, Bounded v (intervalOf K.ranges (.mk (.assign op) ty pos [target, value] body)) := by
      intro v r hr
      cases ranged_of_intervalOf hr
    split
    · next name hname =>
      have hkept : ¬ K.kept name := by
        intro hk
        have := hassign name hk
        simp [assignsLocal, hname] at this
      refine (Known.Keeps.readLocal name).bind fun old _ => (hargs value (by simp) quiet).bind fun v _ => ?_
      refine (Known.Keeps.assigned op target.ty old v).bind fun new _ => ?_
      refine (Known.Keeps.writeLocal hkept new).bind fun _ _ => ?_
      exact Known.Keeps.anyValue.weaken fun v _ _ => hnone v
    · refine (hargs target (by simp) quiet).bind fun _ _ => (hargs value (by simp) quiet).bind fun _ _ => ?_
      exact Known.Keeps.anyValue.weaken fun v _ _ => hnone v
  · next params captures isAsync owns => exact absurd rfl (hlambda _ _ _ _)
  · refine hsome.weaken fun v _ _ r hr => ?_
    cases ranged_of_intervalOf hr <;> simp_all

theorem lambda_keeps {params : List Param} {captures : List Capture} {isAsync owns : Bool}
    (hargs : ∀ start, ∀ a ∈ args, (Known.nothing start).KeepsValue quiet a)
    (hbody : ∀ start, (Known.nothing start).Safe quiet (execAll body)) :
    K.KeepsValue quiet (.mk (.lambda params captures isAsync owns) ty pos args body) := by
  have hcall : K.Keeps quiet (do
      Comp.apart (Comp.loop (evalOne args))
      Comp.apart (execAll body)
      anyBool) fun _ => True := by
    refine (Known.Keeps.apart fun start => (Known.Keeps.loop (evalOne_keeps (hargs start))).safe).bind fun _ _ => ?_
    exact (Known.Keeps.apart hbody).bind fun _ _ => .anyBool
  unfold Known.KeepsValue eval
  refine Known.Keeps.mayStop.bind fun _ _ => (Known.Keeps.loop hcall).bind fun _ _ => .ret fun _ r hr => ?_
  cases ranged_of_intervalOf hr

end Expressions

section Safe

/-- the rewritten expression is safe at every place where it assigns no local with a fact -/
def ExprSafe (e : Expr) : Prop :=
  ∀ (K : Known) (quiet : Bool), exprPlain e → (∀ name, K.kept name → exprAssignsTo name e = false) →
    K.KeepsValue quiet (Analyzer.expr K.ranges e)

def StmtSafe (s : Stmt) : Prop :=
  ∀ (K : Known) (quiet : Bool), stmtPlain K.ranges s → (∀ name, K.kept name → stmtAssignsTo name s = false) →
    K.Steps quiet (exec (Analyzer.stmt K.ranges s).1) (Analyzer.stmt K.ranges s).2

def StmtsSafe (ss : List Stmt) : Prop :=
  ∀ (K : Known) (quiet : Bool), stmtsPlain K.ranges ss →
    (∀ name, K.kept name → stmtsAssignTo name ss = false) →
    K.Steps quiet (execAll (Analyzer.stmts K.ranges ss).1) (Analyzer.stmts K.ranges ss).2

variable {K : Known} {quiet : Bool} {op : Op} {ty : Ty} {pos : Pos} {args : List Expr} {body : List Stmt}

theorem exprsPlain_iff {es : List Expr} : exprsPlain es ↔ ∀ e ∈ es, exprPlain e := by
  induction es with
  | nil => simp [exprsPlain]
  | cons e es ih => simp [exprsPlain, ih]

theorem exprsAssignTo_eq_false {name : String} {es : List Expr} :
    exprsAssignTo name es = false ↔ ∀ e ∈ es, exprAssignsTo name e = false := by
  induction es with
  | nil => simp [exprsAssignTo]
  | cons e es ih => simp [exprsAssignTo, ih]

theorem exprPlain_args (h : exprPlain (.mk op ty pos args body))
    (hlambda : ∀ params captures isAsync owns, op ≠ .lambda params captures isAsync owns) :
    ∀ a ∈ args, exprPlain a := by
  unfold exprPlain at h
  split at h
  · next heq =>
    cases heq
    exact absurd rfl (hlambda _ _ _ _)
  · next heq =>
    cases heq
    exact exprsPlain_iff.mp h

theorem exprAssignsTo_args {name : String} (h : exprAssignsTo name (.mk op ty pos args body) = false)
    (hlambda : ∀ params captures isAsync owns, op ≠ .lambda params captures isAsync owns) :
    assignsLocal name op args = false ∧ ∀ a ∈ args, exprAssignsTo name a = false := by
  unfold exprAssignsTo at h
  split at h
  · next heq =>
    cases heq
    exact absurd rfl (hlambda _ _ _ _)
  · next heq =>
    cases heq
    rw [Bool.or_eq_false_iff] at h
    exact ⟨h.1, exprsAssignTo_eq_false.mp h.2⟩

theorem assignsLocal_exprs (ranges : Ranges) (name : String) (op : Op) (args : List Expr) :
    assignsLocal name op (Analyzer.exprs ranges args) = assignsLocal name op args := by
  cases args with
  | nil => rfl
  | cons target rest =>
    rw [Analyzer.exprs]
    cases op <;> simp only [assignsLocal, Analyzer.localName_expr]

theorem args_keep (hsafe : ∀ a ∈ args, ExprSafe a) (hplain : ∀ a ∈ args, exprPlain a)
    (hassign : ∀ name, K.kept name → ∀ a ∈ args, exprAssignsTo name a = false) :
    ∀ a ∈ Analyzer.exprs K.ranges args, ∀ q, K.KeepsValue q a := by
  intro a ha q
  rw [Analyzer.exprs_eq_map, List.mem_map] at ha
  obtain ⟨e, he, rfl⟩ := ha
  exact hsafe e he K q (hplain e he) fun name hk => hassign name hk e he

theorem expr_safe_of (hargs : ∀ a ∈ args, ExprSafe a) (hbody : StmtsSafe body) :
    ExprSafe (.mk op ty pos args body) := by
  intro K quiet hplain hassign
  obtain ⟨_, _, _, _, rfl, h⟩ | ⟨c, rfl, h⟩ | ⟨hlambda, hindex, h⟩ := Analyzer.expr_eq K.ranges op ty pos args body
  · -- a lambda starts with no facts
    rw [exprPlain] at hplain
    rw [h]
    refine lambda_keeps (fun start a ha => ?_) fun start =>
      (hbody (.nothing start) quiet hplain.2 fun _ hk => hk.elim).safe
    exact args_keep (K := .nothing start) hargs (exprsPlain_iff.mp hplain.1) (fun _ hk => hk.elim) a ha quiet
  · have hlambda : ∀ params captures isAsync owns, Op.index c ≠ .lambda params captures isAsync owns := nofun
    rw [h]
    refine eval_keeps ?_ (fun _ _ => rfl) ?_ nofun
    · exact args_keep hargs (exprPlain_args hplain hlambda) fun n hk => (exprAssignsTo_args (hassign n hk) hlambda).2
    · intro obj index element len hc hexprs hty
      rw [hexprs] at hc
      simpa [Analyzer.checked, hty] using Op.index.inj hc
  · rw [h]
    refine eval_keeps ?_ (fun n hk => ?_) (fun _ _ _ _ hc => absurd hc (hindex _)) hlambda
    · exact args_keep hargs (exprPlain_args hplain hlambda) fun n hk => (exprAssignsTo_args (hassign n hk) hlambda).2
    · rw [assignsLocal_exprs]
      exact (exprAssignsTo_args (hassign n hk) hlambda).1

end Safe

end Subscript.Hir
