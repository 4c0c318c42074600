import Mathlib.Data.List.Dedup
import Subscript.Check.AssignmentRules

/-! The analysis of statements is sound: by induction over the statements, each exit of a run is covered by an exit of the
analysis. -/

namespace Subscript.Check.AssignmentFlow

open List Flow Hir Hir.Assign Hir.Assign.Run

abbrev Distinct (declared : List (String × Pos × Bool)) : Prop := (declaredKeys declared).Nodup

theorem distinct_append {d d' : List (String × Pos × Bool)} :
    Distinct (d ++ d') ↔ Distinct d ∧ Distinct d' ∧ (declaredKeys d).Disjoint (declaredKeys d') := by
  rw [Distinct, declaredKeys, map_append]
  exact nodup_append'

theorem mem_sortDedup {α : Type} [DecidableEq α] {rank : α → Nat} {l : List α} {a : α} : a ∈ sortDedup rank l ↔ a ∈ l := by
  rw [sortDedup, mem_dedup, mem_insertionSort]

section Statements

variable {m : Members} {b : Binding}

variable {paths : List Exit} {x : Exit} {ss : List Stmt}

/-- a path that is left stays so -/
theorem mem_statements (hx : x ∈ paths) (hk : Exit.kind x ≠ none) :
    x ∈ (statements m b ss paths).2 := by
  induction ss generalizing paths with
  | nil => exact hx
  | cons s ss ih =>
    apply ih
    rw [mem_sortDedup, mem_flatMap]
    refine ⟨([], [x]), mem_map.mpr ⟨x, hx, ?_⟩, mem_singleton_self x⟩
    cases x with
    | next => exact absurd rfl hk
    | brk | cont | ret => rfl

/-- the paths after a statement -/
def nextPaths (m : Members) (b : Binding) (s : Stmt) (paths : List Exit) : List Exit :=
  sortDedup Exit.rank ((paths.map fun path =>
    match path with
    | .next state => statement m b s state
    | path => ([], [path])).flatMap (·.2))

variable {st : State} {s : Stmt}

theorem mem_nextPaths (hst : .next st ∈ paths)
    (hx : x ∈ (statement m b s st).2) : x ∈ nextPaths m b s paths :=
  mem_sortDedup.mpr (mem_flatMap.mpr ⟨_, mem_map.mpr ⟨_, hst, rfl⟩, hx⟩)

theorem checked_first (hst : .next st ∈ paths)
    (hread : Checked b (statements m b (s :: ss) paths).1) :
    Checked b (statement m b s st).1 ∧ Checked b (statements m b ss (nextPaths m b s paths)).1 := by
  rw [statements, checked_append] at hread
  refine ⟨hread.1.of_subset fun r hr => ?_, hread.2⟩
  exact mem_flatMap.mpr ⟨_, mem_map.mpr ⟨_, hst, rfl⟩, hr⟩

variable {declared : List (String × Pos × Bool)}

/-- what the first statement declares is not what the others do -/
theorem exec_first (ss : List Stmt)
    (hst : .next st ∈ paths) (hdisj : (declaredKeys (stmtDeclared s)).Disjoint (declaredKeys declared))
    (h : Covers m b (Pre b st (stmtDeclared s)) (exec s) (statement m b s st).2) :
    Triple (MemberOnly m) (Safe b) (Pre b st (stmtDeclared s ++ declared)) (exec s)
      (fun _ s' => ∃ st', .next st' ∈ nextPaths m b s paths ∧ Pre b st' declared s')
      (Leaves b (statements m b ss (nextPaths m b s paths)).2) := by
  refine .moving (tame_exec s) fun s₀ hs₀ => ?_
  refine .conseq h (fun s' hs' => ?_) (fun _ s' hend hg => ?_) fun k s' hleave _ => ?_
  · exact hs' ▸ hs₀.subset (subset_append_left _ _)
  · obtain ⟨st', hst', hrel⟩ := exists_next hend
    exact ⟨st', mem_nextPaths hst hst', hrel, (hs₀.fresh.subset (subset_append_right _ _)).grown hg hdisj⟩
  · refine hleave.imp_right fun hend => ?_
    obtain ⟨x, hx, hk, hrel⟩ := hend
    exact ⟨x, mem_statements (mem_nextPaths hst hx) (by rw [hk]; simp), hk, hrel⟩

theorem empty_finalizer :
    Triple (MemberOnly m) (Safe b) (Rel b st) (inScope (execAll [])) (fun _ => Rel b st) fun k _ => Abrupt k := by
  refine .within fun s₀ hs => ?_
  have hleave : Rel b st (leaveScope s₀ s₀) := by
    have hg : Grown [] [] s₀ s₀ := Grown.refl s₀
    exact hs.aged hg.leave
  exact .post (mayStop_triple fun _ _ hk _ => hk) (fun _ s hs => hs ▸ hleave)

variable {names : List String} {declared' : List (String × Pos × Bool)} {P : Store → Prop} {c : Run Unit}

/-- how the finalizer ends decides, unless it runs to its end -/
theorem finalizer_triple {entries : List Exit} (run : Exit → Reads × List Exit) (hx : x ∈ entries)
    (h : Covers m b (Pre b (Exit.state x) declared) c (run x).2) (hm : Tame names declared' c)
    (hP : ∀ s, P s → Fresh b declared s) :
    Triple (MemberOnly m) (Safe b) (fun s => P s ∧ Rel b (Exit.state x) s) (inScope c)
      (fun _ => Ends b ((entries.map fun prior => (prior, run prior)).flatMap fun r =>
        r.2.2.map fun tail => finalExit r.1 (restoreScope (Exit.state r.1) tail)) (Exit.kind x))
      (Leaves b ((entries.map fun prior => (prior, run prior)).flatMap fun r =>
        r.2.2.map fun tail => finalExit r.1 (restoreScope (Exit.state r.1) tail))) := by
  have hmem : ∀ y ∈ (run x).2, finalExit x (restoreScope (Exit.state x) y) ∈
      (entries.map fun prior => (prior, run prior)).flatMap fun r =>
        r.2.2.map fun tail => finalExit r.1 (restoreScope (Exit.state r.1) tail) := fun y hy =>
    mem_flatMap.mpr ⟨(x, run x), mem_map_of_mem hx, mem_map_of_mem hy⟩
  refine .conseq (h.inScope hm) (fun s hs => ⟨hs.2, hP s hs.1⟩) (fun _ s hs => ?_) fun k s hs =>
    hs.imp_right fun hs => ?_
  · obtain ⟨_, hmap, hk, hrel⟩ := hs
    obtain ⟨y, hy, rfl⟩ := mem_map.mp hmap
    refine ⟨_, hmem y hy, ?_, ?_⟩
    · cases y with
      | next => cases x <;> rfl
      | brk | cont | ret => cases hk
    · cases y with
      | next => cases x <;> exact hrel
      | brk | cont | ret => cases hk
  · obtain ⟨_, hmap, hk, hrel⟩ := hs
    obtain ⟨y, hy, rfl⟩ := mem_map.mp hmap
    refine ⟨_, hmem y hy, ?_, ?_⟩
    · cases y with
      | next => cases hk
      | brk | cont | ret => cases x <;> exact hk
    · cases y with
      | next => cases hk
      | brk | cont | ret => cases x <;> exact hrel

variable {cases : List SwitchCase} {value : Int} {disc : Expr}

theorem safe_dispatch : Safe b (.dispatch disc cases value) := by
  cases b <;> trivial

theorem isMatch_triple {E : Leave → Store → Prop} {test : Expr} :
    Triple (MemberOnly m) (Safe b) P (isMatch value test)
      (fun v s => (v = false → test.op ≠ .enumMember value) ∧ P s) E := by
  unfold isMatch
  split
  · next n hop => exact .ret fun s hs => ⟨by simp [hop], hs⟩
  · next n hop => exact .ret fun s hs => ⟨by simp [hop], hs⟩
  · next hop => exact .choose fun v => .ret fun s hs => ⟨fun _ heq => hop _ heq, hs⟩

variable {exits : List Exit}

/-- no test is passed over that is the member -/
theorem matchTest_triple (hread : Checked b (switchTests b cases st)) (i : Nat) :
    Triple (MemberOnly m) (Safe b) (Pre b st declared) (matchTest value cases i)
      (fun found s => ((found = none → ∀ c ∈ cases, SwitchCase.label c ≠ some (.enumMember value)) ∧
        ∀ j, found = some j → j < i + cases.length) ∧ Pre b st declared s) (Leaves b exits) := by
  induction cases generalizing i with
  | nil => exact .ret fun s hs => ⟨⟨by simp, by simp⟩, hs⟩
  | cons c cases ih =>
    obtain ⟨_ | test, body⟩ := c
    · refine .post (ih hread (i + 1)) (fun found s hs => ⟨⟨fun hf => ?_, fun j hj => ?_⟩, hs.2⟩)
      · exact forall_mem_cons.mpr ⟨by simp [SwitchCase.label], hs.1.1 hf⟩
      · have := hs.1.2 j hj
        rw [length_cons]
        omega
    · rw [switchTests, checked_append] at hread
      -- a test may assign the binding, which the dispatch does not need
      refine .bind (.weaken ((steady_evalAs false test).keep Pre.aged' (eval_pre hread.1)) (fun _ _ h => h.1)
        fun _ _ h => h.2) fun _ => ?_
      refine .bind isMatch_triple fun v => .fact_pre fun hv => ?_
      cases v with
      | true => exact .ret fun s hs => ⟨⟨by simp, fun j hj => by simp at hj; simp; omega⟩, hs⟩
      | false =>
        refine .post (ih hread.2 (i + 1)) (fun found s hs => ⟨⟨fun hf => ?_, fun j hj => ?_⟩, hs.2⟩)
        · refine forall_mem_cons.mpr ⟨fun heq => hv rfl ?_, hs.1.1 hf⟩
          obtain ⟨op, ty, pos, args, body'⟩ := test
          exact Option.some.inj heq
        · have := hs.1.2 j hj
          rw [length_cons]
          omega

/-- the analysis has the path past the arms if no test matches -/
theorem skips (hdef : defaultIndex cases = none)
    (hnone : ∀ c ∈ cases, SwitchCase.label c ≠ some (.enumMember value)) (hmember : MemberOnly m (.dispatch disc cases value))
    (halias : isAlias disc.ty = false) : (!hasDefault cases && !sourceEnumSwitchExhaustive m disc cases &&
      !stringAliasSwitchExhaustive m disc cases) = true := by
  have hnodefault : hasDefault cases = false := by
    rw [defaultIndex, findIdx?_eq_none_iff] at hdef
    refine any_eq_false.mpr fun c hc => ?_
    obtain ⟨test, body⟩ := c
    have hsome := hdef _ hc
    cases test <;> simp_all [SwitchCase.test]
  have henum : sourceEnumSwitchExhaustive m disc cases = false := by
    by_contra hex
    obtain ⟨id, hty, hvalue⟩ := hmember hnodefault (by simpa using hex)
    simp only [sourceEnumSwitchExhaustive, hty, Bool.not_eq_false, all_eq_true, any_eq_true] at hex
    obtain ⟨c, hc, hlabel⟩ := hex value hvalue
    split at hlabel
    · next actual heq =>
      obtain rfl : actual = value := by simpa using hlabel
      exact hnone c hc heq
    · cases hlabel
  have hstring : stringAliasSwitchExhaustive m disc cases = false := by
    unfold stringAliasSwitchExhaustive
    split
    · next id hty => simp [isAlias, hty] at halias
    · rfl
  simp [hnodefault, henum, hstring]

/-- the exits of the arms, with those of the last one -/
def armExits (m : Members) (b : Binding) (cases : List SwitchCase) (dispatch : State) (live : List State) : List Exit :=
  (switchCases m b cases dispatch live).2.1 ++ (switchCases m b cases dispatch live).2.2.map Exit.next

variable {test : Option Expr} {body : List Stmt} {dispatch : State} {live : List State}

theorem armExits_tail :
    armExits m b cases dispatch (((sortDedup State.rank (live ++ [dispatch])).map fun entry =>
      statements m b body [.next entry]).flatMap (·.2) |>.filterMap fun
        | .next s => some s
        | _ => none) ⊆ armExits m b (.mk test body :: cases) dispatch live := by
  simp only [armExits, switchCases, append_assoc]
  exact subset_append_right _ _

variable {entry : State}

/-- how an arm is left -/
theorem arm_left {k : Leave} {s : Store} (hentry : entry ∈ sortDedup State.rank (live ++ [dispatch]))
    (h : Ends b ((statements m b body [.next entry]).2.map (restoreScope dispatch)) (some k) s) :
    Ends b ((armExits m b (.mk test body :: cases) dispatch live).map (restoreScope dispatch))
      (if k = .brk then none else some k) s := by
  obtain ⟨_, hmap, hk, hrel⟩ := h
  obtain ⟨x, hx, rfl⟩ := mem_map.mp hmap
  have hmem : x ∈ ((sortDedup State.rank (live ++ [dispatch])).map fun entry => statements m b body [.next entry]).flatMap (·.2) :=
    mem_flatMap.mpr ⟨_, mem_map_of_mem hentry, hx⟩
  cases x with
  | next => cases hk
  | brk st =>
    obtain rfl : Leave.brk = k := Option.some.inj hk
    exact ⟨_, mem_map_of_mem (mem_append_left _ (mem_append_left _ (mem_filterMap.mpr ⟨_, hmem, rfl⟩))), rfl, hrel⟩
  | cont st =>
    obtain rfl : Leave.cont = k := Option.some.inj hk
    exact ⟨_, mem_map_of_mem (mem_append_left _ (mem_append_left _ (mem_filterMap.mpr ⟨_, hmem, rfl⟩))), rfl, hrel⟩
  | ret st =>
    obtain rfl : Leave.ret = k := Option.some.inj hk
    exact ⟨_, mem_map_of_mem (mem_append_left _ (mem_append_left _ (mem_filterMap.mpr ⟨_, hmem, rfl⟩))), rfl, hrel⟩

/-- a `break` ends the arms -/
def ArmLeaves (b : Binding) (exits : List Exit) (k : Leave) (s : Store) : Prop :=
  Abrupt k ∨ Ends b exits (if k = .brk then none else some k) s

theorem Covers.switchBody {P : Store → Prop} {c : Run Unit} {exits : List Exit}
    (h : Triple (MemberOnly m) (Safe b) P c (fun _ => Ends b exits none) (ArmLeaves b exits)) :
    Covers m b P (switchBody c) exits := by
  refine Triple.after h fun r => ?_
  rcases r with - | (_ | _ | _ | _ | _ | _)
  · exact .ret fun _ => id
  · exact .ret fun s hs => hs.resolve_left id
  · exact .leave fun s hs => hs
  · exact .leave fun s hs => hs
  · exact .leave fun s hs => hs
  · exact .leave fun s hs => hs
  · exact .leave fun s hs => hs

theorem plainLoops_of_isInit (h : isInit (some s) = true) : plainLoops s = true := by
  cases s <;> simp_all [isInit, plainLoops]

/-- an initializer of a `for` has one exit, unless it traps -/
theorem forInit_paths {init : Option Stmt} (h : isInit init = true) (st : State) :
    (∃ entry, (forInit m b init st).2 = [.next entry]) ∨ (forInit m b init st).2 = [] := by
  cases init with
  | none => exact .inl ⟨st, rfl⟩
  | some s =>
    cases s with
    | letDecl name ty isMut init pos =>
      exact .inl ⟨_, rfl⟩
    | expr e =>
      rw [forInit, statement]
      dsimp only
      split
      · exact .inr rfl
      · exact .inl ⟨_, rfl⟩
    | _ => cases h

variable {cond : Option Expr}

theorem condition_opt (h : Checked b (forCond b cond st).1) :
    Triple (MemberOnly m) (Safe b) (Pre b st declared) (evalCondition cond)
      (fun v s => (v = false → cond.all (isBool true) = false) ∧ Pre b (forCond b cond st).2 declared s) (Leaves b exits) := by
  cases cond with
  | none => exact .ret fun s hs => ⟨by simp, hs⟩
  | some e =>
    refine .post (condition_triple h) (fun v s hs => ⟨fun hv => ?_, hs.2⟩)
    subst hv
    exact hs.1

/-- an iteration of a `for`; its step makes no jump -/
theorem forRound_triple {declared₁ declared₂ : List (String × Pos × Bool)}
    {names' : List String} {step : Run Unit} {stepExits : State → List Exit}
    (hcond : Checked b (forCond b cond entry).1)
    (hbody : Covers m b (Pre b (forCond b cond entry).2 declared) c exits) (hm : Tame names declared₁ c)
    (hstep : ∀ x ∈ exits.map (restoreScope (forCond b cond entry).2), Exit.kind x = none ∨ Exit.kind x = some .cont →
      Covers m b (Pre b (Exit.state x) declared') step (stepExits (Exit.state x)))
    (hm' : Tame names' declared₂ step) (hstraight : ∀ st, ∀ x ∈ stepExits st, Exit.kind x = none) :
    Triple (MemberOnly m) (Safe b) (Pre b entry (declared' ++ declared))
      (do
        if ← evalCondition cond then
          if ← loopBody c then
            inScope step
            pure true
          else pure false
        else pure false)
      (fun again s => if again then True else Ends b (loopExits (forCond b cond entry).2 (cond.all (isBool true))
        (exits.map (restoreScope (forCond b cond entry).2)) fun s => (stepExits s).map (restoreScope s)) none s)
      (Leaves b (loopExits (forCond b cond entry).2 (cond.all (isBool true))
        (exits.map (restoreScope (forCond b cond entry).2)) fun s => (stepExits s).map (restoreScope s))) := by
  refine .bind (condition_opt hcond) fun v => .fact_pre fun hv => ?_
  cases v with
  | false =>
    rw [hv rfl]
    exact .ret fun s hs => loopExits_skip hs.rel
  | true =>
    have hscoped := hbody.inScope hm
    have hloop := (steady_loopBody hm).keep Pre.aged' (.pre (loopBody_triple hscoped)
      (fun s (hs : Pre b (forCond b cond entry).2 (declared' ++ declared) s) => hs.subset (subset_append_right _ _)))
    refine .bind (.weaken hloop (fun _ _ => id) fun k s hs => leaves_ret hs.2 loopExits_ret) fun again => ?_
    cases again with
    | false => exact .ret fun s hs => loopExits_brk hs.2
    | true =>
      refine .bind (Q := fun _ _ => True) (.of_start fun s₀ hs₀ => ?_) fun _ => .ret fun _ _ => trivial
      obtain ⟨x, hx, hrel⟩ := Ends.again hs₀.2
      refine .conseq ((hstep x hx.1 hx.2).inScope hm')
        (fun s hs => hs ▸ ⟨hrel, hs₀.1.fresh.subset (subset_append_left _ _)⟩) (fun _ _ _ => trivial) fun k s hs => ?_
      refine hs.imp_right fun hs => ?_
      obtain ⟨_, hmap, hk, -⟩ := hs
      obtain ⟨y, hy, rfl⟩ := mem_map.mp hmap
      rw [kind_restoreScope, hstraight _ y hy] at hk
      cases hk

mutual

theorem straight_exits : ∀ (s : Stmt) (st : State), straight s = true → ∀ x ∈ (statement m b s st).2, Exit.kind x = none
  | .letDecl _ _ _ _ _, st, _, x, hx => by
    obtain rfl := mem_singleton.mp hx
    rfl
  | .expr e, st, _, x, hx => by
    rw [statement] at hx
    dsimp only at hx
    split at hx
    · cases hx
    · obtain rfl := mem_singleton.mp hx
      rfl
  | .ifElse cond then_ els, st, h, x, hx => by
    rw [straight, Bool.and_eq_true] at h
    obtain ⟨y, hy, rfl⟩ := mem_map.mp hx
    rw [kind_restoreScope]
    rcases mem_append.mp hy with hy | hy
    · split at hy
      · cases hy
      · exact straights_exits then_ _ h.1 (by simp [Exit.kind]) y hy
    · split at hy
      · cases hy
      · exact straights_exits els _ h.2 (by simp [Exit.kind]) y hy
  | .block body, st, h, x, hx => by
    rw [statement] at hx
    obtain ⟨y, hy, rfl⟩ := mem_map.mp hx
    rw [kind_restoreScope]
    exact straights_exits body _ h (by simp [Exit.kind]) y hy

theorem straights_exits : ∀ (ss : List Stmt) (paths : List Exit), straights ss = true → (∀ x ∈ paths, Exit.kind x = none) →
    ∀ x ∈ (statements m b ss paths).2, Exit.kind x = none
  | [], paths, _, hpaths, x, hx => hpaths x hx
  | s :: ss, paths, h, hpaths, x, hx => by
    rw [straights, Bool.and_eq_true] at h
    refine straights_exits ss _ h.2 (fun y hy => ?_) x hx
    obtain ⟨_, hrun, hy⟩ := mem_flatMap.mp (mem_sortDedup.mp hy)
    obtain ⟨path, hpath, rfl⟩ := mem_map.mp hrun
    cases path with
    | next st => exact straight_exits s st h.1 y hy
    | brk | cont | ret => cases hpaths _ hpath

end

mutual

theorem exec_sound : ∀ (s : Stmt) (st : State), Checked b (statement m b s st).1 → plainLoops s = true →
    Distinct (stmtDeclared s) → Covers m b (Pre b st (stmtDeclared s)) (exec s) (statement m b s st).2
  | .letDecl name ty isMut init pos, st, hread, _, _ => by
    refine .bind (eval_pre hread) fun _ => ?_
    refine .modify fun s hs => ends_next (mem_singleton_self _) ?_
    exact hs.rel.declare hs.fresh
  | .expr e, st, hread, _, _ => by
    rw [statement] at hread ⊢
    rw [exec]
    refine .bind (eval_pre hread) fun _ => ?_
    split
    · exact .leave fun _ _ => .inl trivial
    · exact .ret fun s hs => ends_next (mem_singleton_self _) hs.rel
  | .ret none, st, _, _, _ => by
    exact .leave fun s hs => .inr ⟨_, mem_singleton_self _, rfl, hs.rel⟩
  | .ret (some value), st, hread, _, _ => by
    refine .bind (eval_pre hread) fun _ => ?_
    exact .leave fun s hs => .inr ⟨_, mem_singleton_self _, rfl, hs.rel⟩
  | .throw value, st, hread, _, _ => by
    rw [statement] at hread ⊢
    rw [exec]
    refine .bind (eval_pre hread) fun _ => ?_
    exact .leave fun _ _ => .inl trivial
  | .breakLoop, st, _, _, _ => by
    rw [statement, exec]
    exact .leave fun s hs => .inr ⟨_, mem_singleton_self _, rfl, hs.rel⟩
  | .continueLoop, st, _, _, _ => by
    exact .leave fun s hs => .inr ⟨_, mem_singleton_self _, rfl, hs.rel⟩
  | .block body, st, hread, hloops, hdist => by
    refine Covers.inScope ?_ (tame_execAll body)
    exact execAll_sound body st _ (mem_singleton_self _) hread hloops hdist
  | .ifElse cond then_ els, st, hread, hloops, hdist => by
    rw [statement] at hread ⊢
    simp only [checked_append] at hread
    rw [plainLoops, Bool.and_eq_true] at hloops
    obtain ⟨hthen, hels, -⟩ := distinct_append.mp hdist
    rw [exec]
    refine .bind (condition_triple hread.1.1) fun v => .fact_pre fun hv => ?_
    cases v with
    | true =>
      have hcond : isBool false cond = false := hv
      simp only [hcond, Bool.false_eq_true, if_false] at hread ⊢
      have hbody := execAll_sound then_ _ [.next (expression b cond st).2] (mem_singleton_self _) hread.1.2 hloops.1 hthen
      refine .pre (Covers.mono (hbody.inScope (tame_execAll then_)) ?_)
        (fun s hs => hs.subset (subset_append_left _ _))
      exact map_subset _ (subset_append_left _ _)
    | false =>
      have hcond : isBool true cond = false := hv
      simp only [hcond, Bool.false_eq_true, if_false] at hread ⊢
      have hbody := execAll_sound els _ [.next (expression b cond st).2] (mem_singleton_self _) hread.2 hloops.2 hels
      refine .pre (Covers.mono (hbody.inScope (tame_execAll els)) ?_)
        (fun s hs => hs.subset (subset_append_right _ _))
      exact map_subset _ (subset_append_right _ _)
  | .whileLoop cond body, st, hread, hloops, hdist => by
    rw [statement] at hread ⊢
    refine Covers.loop (steady_whileRound (some cond) (tame_execAll body)) Pre.aged' ?_
    by_cases hfalse : isBool false cond = true
    · simp only [hfalse, if_true] at hread ⊢
      refine .bind (condition_triple hread) fun v => .fact_pre fun hv => ?_
      cases v with
      | true => exact absurd hfalse (by simpa using hv)
      | false => exact .ret fun s hs => ends_next (mem_singleton_self _) hs.rel
    · simp only [hfalse, Bool.false_eq_true, if_false, checked_append] at hread ⊢
      refine .bind (condition_triple hread.1) fun v => .fact_pre fun hv => ?_
      cases v with
      | true =>
        have hbody := execAll_sound body _ [.next (expression b cond st).2] (mem_singleton_self _) hread.2 hloops hdist
        refine .weaken (loopBody_triple (hbody.inScope (tame_execAll body)))
          (fun again s hs => ?_) fun k s hs => leaves_ret hs loopExits_ret
        cases again with
        | true => trivial
        | false => exact loopExits_brk hs
      | false =>
        have hlit : isBool true cond = false := hv
        rw [hlit]
        exact .ret fun s hs => loopExits_skip hs.rel
  | .doWhile body cond, st, hread, hloops, hdist => by
    rw [statement] at hread ⊢
    simp only [checked_append] at hread ⊢
    rw [exec]
    refine Covers.loop (steady_doRound (some cond) (tame_execAll body)) Pre.aged' ?_
    have hbody := execAll_sound body _ [.next st] (mem_singleton_self _) hread.1 hloops hdist
    refine .bind (.weaken (loopBody_triple (hbody.inScope (tame_execAll body)))
      (fun _ _ => id) fun k s hs => leaves_ret hs fun hret => ?_) fun again => ?_
    · obtain ⟨x, hx, hk, hrel⟩ := hret
      cases x with
      | ret st' => exact ⟨.ret st', mem_flatMap.mpr ⟨_, hx, by simp⟩, rfl, hrel⟩
      | next | brk | cont => cases hk
    cases again with
    | false =>
      refine .ret fun s hs => ?_
      obtain ⟨x, hx, hk, hrel⟩ := hs
      cases x with
      | brk st' => exact ⟨.next st', mem_flatMap.mpr ⟨_, hx, by simp⟩, rfl, hrel⟩
      | next | ret | cont => cases hk
    | true =>
      refine .pre ?_ (fun s hs => Ends.again hs)
      refine .exists_pre fun x => .fact_pre fun hx => ?_
      have hcond : Checked b (expression b cond (Exit.state x)).1 :=
        hread.2.of_subset fun r hr => mem_flatMap.mpr ⟨_, stepState_mem hx.1 hx.2, hr⟩
      refine .conseq (condition_triple hcond) (fun s hs => ⟨hs, fresh_nil b s⟩) (fun v s hs => ?_) fun _ _ => id
      cases v with
      | true => trivial
      | false =>
        have hlit : isBool true cond = false := hs.1
        refine ⟨.next _, mem_flatMap.mpr ⟨x, hx.1, ?_⟩, rfl, hs.2.rel⟩
        obtain ⟨-, hk⟩ := hx
        cases x with
        | next | cont => simp [hlit, Exit.state]
        | brk | ret => simp [Exit.kind] at hk
  | .forOf name _ subject _ body _, st, hread, hloops, hdist => by
    rw [statement] at hread ⊢
    simp only [checked_append] at hread ⊢
    refine .bind (eval_pre hread.1) fun _ => ?_
    refine Covers.loop (steady_elementRound name (tame_execAll body)) Pre.aged' ?_
    exact element_triple (execAll_sound body _ _ (mem_singleton_self _) hread.2 hloops hdist) (tame_execAll body)
  | .generatorForOf name _ _ subject body _, st, hread, hloops, hdist => by
    rw [statement] at hread ⊢
    simp only [checked_append] at hread ⊢
    rw [exec]
    refine .bind (eval_pre hread.1) fun _ => ?_
    have hround := steady_elementRound name (tame_execAll body)
    refine Covers.loop (Steady.bind steady_mayStop fun _ => hround) Pre.aged' ?_
    refine .bind (mayStop_triple fun _ _ hk _ => .inl hk) fun _ => ?_
    exact element_triple (execAll_sound body _ _ (mem_singleton_self _) hread.2 hloops hdist) (tame_execAll body)
  | .tryCatch body binding handler _, st, hread, hloops, hdist => by
    unfold statement at hread ⊢
    simp only [checked_append] at hread ⊢
    rw [plainLoops, Bool.and_eq_true] at hloops
    rw [stmtDeclared] at hdist ⊢
    obtain ⟨hd, hd', -⟩ := distinct_append.mp hdist
    have hbody := execAll_sound body _ _ (mem_singleton_self _) hread.1 hloops.1 hd
    have hhandler := execAll_sound handler _ _ (mem_singleton_self _) hread.2 hloops.2 hd'
    have hscoped := hbody.inScope (tame_execAll body)
    rw [map_append]
    refine Covers.catching ?_ ?_
    · have hkept := (tame_execAll body).inScope.keep Pre.aged' (.pre hscoped
        (fun s (hs : Pre b st (stmtsDeclared body ++ stmtsDeclared handler) s) => hs.subset (subset_append_left _ _)))
      exact .weaken hkept (fun _ _ hs => hs.2.mono (subset_append_left _ _))
        fun _ _ hs => ⟨hs.1, hs.2.mono (subset_append_left _ _)⟩
    · have hcaught := (hhandler.caught binding).inScope (tame_caught binding (tame_execAll handler))
      exact .pre (hcaught.mono (subset_append_right _ _)) (fun s hs => hs.subset (subset_append_right _ _))
  | .using _ body finalizer declared, st, hread, hloops, hdist => by
    unfold statement at hread ⊢
    rw [plainLoops, Bool.and_eq_true] at hloops
    obtain ⟨hd, hd', -⟩ := distinct_append.mp hdist
    have hbody := fun h =>
      (execAll_sound body _ [.next st] (mem_singleton_self _) h hloops.1 hd).inScope (tame_execAll body)
    have hkept := fun h => (tame_execAll body).inScope.keep Pre.aged' (.pre (hbody h)
      (fun s (hs : Pre b st (stmtsDeclared body ++ stmtsDeclared finalizer) s) => hs.subset (subset_append_left _ _)))
    rw [exec]
    by_cases hempty : (finalizer.isEmpty && !declared) = true
    · obtain ⟨rfl, rfl⟩ : finalizer = [] ∧ declared = false := by simpa using hempty
      refine CoversToo.finalize (CoversToo.hook (hkept hread)) (fun x hx => ?_) ?_
      · refine .conseq empty_finalizer (fun s hs => hs.2) (fun _ s hs => ⟨x, hx, rfl, hs⟩) fun _ _ => .inl
      · exact .conseq empty_finalizer (fun s hs => hs.rel) (fun _ _ _ => trivial) fun _ _ => .inl
    · simp only [hempty, Bool.false_eq_true, if_false, checked_append] at hread ⊢
      have hrun : ∀ x ∈ (statements m b body [.next st]).2.map (restoreScope st) ++ [.ret st],
          Covers m b (Pre b (Exit.state x) (stmtsDeclared finalizer)) (execAll finalizer)
            (statements m b finalizer [.next (Exit.state x)]).2 := fun x hx =>
        execAll_sound finalizer _ _ (mem_singleton_self _)
          (hread.2.of_subset fun r hr => mem_flatMap.mpr ⟨_, mem_map_of_mem hx, hr⟩) hloops.2 hd'
      have hfin := fun x hx => finalizer_triple (P := Pre b st (stmtsDeclared body ++ stmtsDeclared finalizer))
        (fun prior => statements m b finalizer [.next (Exit.state prior)]) hx (hrun x hx) (tame_execAll finalizer)
        fun s hs => hs.fresh.subset (subset_append_right _ _)
      refine CoversToo.finalize (CoversToo.hook (hkept hread.1)) (fun x hx => hfin x (mem_append_left _ hx)) ?_
      exact .conseq (hfin (.ret st) (mem_append_right _ (mem_singleton_self _))) (fun s hs => ⟨hs, hs.rel⟩)
        (fun _ _ _ => trivial) fun _ _ => id
  | .switch disc cases, st, hread, hloops, hdist => by
    rw [statement] at hread ⊢
    simp only [checked_append, and_assoc] at hread ⊢
    refine .bind (eval_pre hread.1) fun _ => ?_
    refine .bind (.choose fun v => .ret fun _ => id) fun value => ?_
    refine .bind (Q := fun _ s => MemberOnly m (.dispatch disc cases value) ∧
      Pre b (expression b disc st).2 (casesDeclared cases) s) (.emit fun s hs hA => ⟨safe_dispatch, hA, hs⟩) fun _ => ?_
    refine .fact_pre fun hmember => ?_
    refine .bind (matchTest_triple hread.2.1 0) fun found => .fact_pre fun hfound => ?_
    split
    · next i hi =>
      have hlt : i < cases.length := by
        cases found with
        | none => exact (findIdx?_eq_some_iff_getElem.mp hi).1
        | some j =>
          obtain rfl : j = i := by simpa using hi
          simpa using hfound.2 j rfl
      have harms := execFrom_sound cases (expression b disc st).2 [] i hread.2.2 hloops hdist
      refine Covers.mono (.switchBody (.post harms (fun _ _ hs => hs hlt))) ?_
      refine map_subset _ ?_
      rw [append_assoc]
      exact subset_append_right _ _
    · next hnone =>
      obtain ⟨rfl, hdef⟩ : found = none ∧ defaultIndex cases = none := by simpa using hnone
      split
      · exact .leave fun _ _ => .inl trivial
      · next halias =>
        have hskip := skips hdef (hfound.1 rfl) hmember (by simpa using halias)
        refine .ret fun s hs => ?_
        refine ⟨restoreScope _ (.next (expression b disc st).2), mem_map_of_mem ?_, rfl, hs.rel⟩
        simp only [hskip, if_true, append_assoc, mem_append, mem_singleton, true_or]
  | .forLoop init cond step body, st, hread, hloops, hdist => by
    rw [plainLoops] at hloops
    simp only [Bool.and_eq_true] at hloops
    obtain ⟨⟨⟨hisInit, hstraight⟩, hstep⟩, hbody⟩ := hloops
    rw [stmtDeclared] at hdist ⊢
    obtain ⟨hd, hds, hdisj⟩ := distinct_append.mp hdist
    obtain ⟨hdstep, hdbody, -⟩ := distinct_append.mp hds
    rw [statement] at hread ⊢
    rw [exec]
    obtain ⟨entry, hpaths⟩ | hpaths := forInit_paths (m := m) (b := b) hisInit st
    · simp only [hpaths, checked_append, and_assoc] at hread ⊢
      refine Covers.inScope ?_ (tame_for cond (tame_execInit init) (tame_execAll step) (tame_execAll body))
      have hinit := execInit_sound init st hread.1 hisInit hd
      have hround := execAll_sound body _ _ (mem_singleton_self _) hread.2.2.1 hbody hdbody
      have hafter : ∀ x ∈ (statements m b body [.next (forCond b cond entry).2]).2.map (restoreScope (forCond b cond entry).2),
          Exit.kind x = none ∨ Exit.kind x = some .cont →
          Covers m b (Pre b (Exit.state x) (stmtsDeclared step)) (execAll step) (statements m b step [.next (Exit.state x)]).2 :=
        fun x hx hk => execAll_sound step _ _ (mem_singleton_self _)
          (hread.2.2.2.of_subset fun r hr => mem_flatMap.mpr ⟨_, stepState_mem hx hk, hr⟩) hstep hdstep
      refine .bind (Q := fun _ => Pre b entry (stmtsDeclared step ++ stmtsDeclared body)) ?_ fun _ => ?_
      · refine .moving (tame_execInit init) fun s₀ hs₀ => ?_
        refine .conseq hinit (fun s hs => hs ▸ hs₀.subset (subset_append_left _ _)) (fun _ s hs hg => ?_) fun k s hs _ => ?_
        · obtain ⟨st', hst', hrel⟩ := exists_next hs
          rw [hpaths] at hst'
          obtain rfl := Exit.next.inj (mem_singleton.mp hst')
          exact ⟨hrel, (hs₀.fresh.subset (subset_append_right _ _)).grown hg hdisj⟩
        · rw [hpaths] at hs
          refine hs.imp_right fun hs => ?_
          obtain ⟨x, hx, hk, -⟩ := hs
          obtain rfl := mem_singleton.mp hx
          cases hk
      · exact Covers.loop (steady_forRound cond (tame_execAll step) (tame_execAll body)) Pre.aged'
          (forRound_triple hread.2.1 hround (tame_execAll body) hafter (tame_execAll step)
            fun x => straights_exits step _ hstraight (by simp [Exit.kind]))
    · simp only [hpaths] at hread ⊢
      have hinit := execInit_sound init st hread hisInit hd
      rw [hpaths] at hinit
      have hnever : Covers m b (Pre b st (initDeclared init ++ (stmtsDeclared step ++ stmtsDeclared body))) (do
          execInit init
          Comp.loop do
            if ← evalCondition cond then
              if ← loopBody (execAll body) then
                inScope (execAll step)
                pure true
              else pure false
            else pure false) [] := by
        refine .bind (.pre hinit (fun s hs => hs.subset (subset_append_left _ _))) fun _ => ?_
        rintro s s' r t ⟨x, hx, -⟩
        cases hx
      exact hnever.inScope (tame_for cond (tame_execInit init) (tame_execAll step) (tame_execAll body))

theorem execInit_sound : ∀ (init : Option Stmt) (st : State), Checked b (forInit m b init st).1 → isInit init = true →
    Distinct (initDeclared init) → Covers m b (Pre b st (initDeclared init)) (execInit init) (forInit m b init st).2
  | none, _, _, _, _ => .ret fun _ hs => ends_next (mem_singleton_self _) hs.rel
  | some s, st, hread, hinit, hdist => exec_sound s st hread (plainLoops_of_isInit hinit) hdist

theorem execFrom_sound : ∀ (cases : List SwitchCase) (dispatch : State) (live : List State) (i : Nat),
    Checked b (switchCases m b cases dispatch live).1 → plainLoopsCases cases = true → Distinct (casesDeclared cases) →
    Triple (MemberOnly m) (Safe b) (Pre b dispatch (casesDeclared cases)) (execFrom cases i)
      (fun _ s => i < cases.length → Ends b ((armExits m b cases dispatch live).map (restoreScope dispatch)) none s)
      (ArmLeaves b ((armExits m b cases dispatch live).map (restoreScope dispatch)))
  | [], _, _, i, _, _, _ => .ret fun s hs hi => absurd hi (Nat.not_lt_zero i)
  | .mk test body :: cases, dispatch, live, 0, hread, hloops, hdist => by
    rw [plainLoopsCases, Bool.and_eq_true] at hloops
    obtain ⟨hd, hds, -⟩ := distinct_append.mp hdist
    have hentry : dispatch ∈ sortDedup State.rank (live ++ [dispatch]) := mem_sortDedup.mpr (by simp)
    simp only [switchCases, checked_append] at hread
    obtain ⟨hread, hreads⟩ := hread
    have hbody := execAll_sound body dispatch [.next dispatch] (mem_singleton_self _)
      (hread.of_subset fun r hr => mem_flatMap.mpr ⟨_, mem_map_of_mem hentry, hr⟩) hloops.1 hd
    have hrest := execFrom_sound cases dispatch _ 0 hreads hloops.2 hds
    have hscoped := (tame_execAll body).inScope.keep Pre.aged' (.pre (hbody.inScope (tame_execAll body))
      (fun s (hs : Pre b dispatch (stmtsDeclared body ++ casesDeclared cases) s) => hs.subset (subset_append_left _ _)))
    refine .bind (.weaken hscoped (fun _ _ => id) fun k s hs => hs.2.imp_right fun hs => ?_) fun _ => ?_
    · exact arm_left hentry hs
    · cases cases with
      | nil =>
        -- the end of the last arm is the end of the `switch`
        refine .ret fun s hs _ => ?_
        obtain ⟨_, hmap, hk, hrel⟩ := hs.2
        obtain ⟨x, hx, rfl⟩ := mem_map.mp hmap
        cases x with
        | next st =>
          refine ⟨_, mem_map_of_mem (armExits_tail (mem_append_right _ (mem_map_of_mem ?_))), rfl, hrel⟩
          exact mem_filterMap.mpr ⟨.next st, mem_flatMap.mpr ⟨_, mem_map_of_mem hentry, hx⟩, rfl⟩
        | brk | cont | ret => cases hk
      | cons c cases =>
        refine .conseq hrest (fun s hs => hs.1.subset (subset_append_right _ _)) (fun _ s hs _ => ?_)
          fun k s hs => hs.imp_right fun hs => hs.mono (map_subset _ armExits_tail)
        exact (hs (by simp)).mono (map_subset _ armExits_tail)
  | .mk test body :: cases, dispatch, live, i + 1, hread, hloops, hdist => by
    rw [plainLoopsCases, Bool.and_eq_true] at hloops
    rw [casesDeclared] at hdist ⊢
    obtain ⟨-, hds, -⟩ := distinct_append.mp hdist
    simp only [switchCases, checked_append] at hread
    rw [execFrom]
    refine .conseq (execFrom_sound cases dispatch _ i hread.2 hloops.2 hds) (fun s hs => hs.subset (subset_append_right _ _))
      (fun _ s hs hi => ?_) fun k s hs => hs.imp_right fun hs => hs.mono (map_subset _ armExits_tail)
    exact (hs (by simpa using hi)).mono (map_subset _ armExits_tail)

theorem execAll_sound : ∀ (ss : List Stmt) (st : State) (paths : List Exit), .next st ∈ paths →
    Checked b (statements m b ss paths).1 → plainLoopsAll ss = true → Distinct (stmtsDeclared ss) →
    Covers m b (Pre b st (stmtsDeclared ss)) (execAll ss) (statements m b ss paths).2
  | [], st, paths, hst, _, _, _ => by
    exact .post (mayStop_triple fun _ _ hk _ => .inl hk) (fun _ s hs => ends_next hst hs.rel)
  | s :: ss, st, paths, hst, hread, hloops, hdist => by
    obtain ⟨hfirst, hreads⟩ := checked_first hst hread
    rw [plainLoopsAll, Bool.and_eq_true] at hloops
    obtain ⟨hd, hds, hdisj⟩ := distinct_append.mp hdist
    rw [execAll]
    refine .bind (exec_first ss hst hdisj (exec_sound s st hfirst hloops.1 hd)) fun _ => ?_
    refine .exists_pre fun st' => .fact_pre fun hst' => ?_
    exact execAll_sound ss st' _ hst' hreads hloops.2 hds

end

end Statements

end Subscript.Check.AssignmentFlow
