import Subscript.Check.AssignmentFlow
import Subscript.Hir.AssignRun

/-! What a run can do to the store: it pushes locals that the statements declare, and what was assigned stays assigned.
Every step is such a move, so that a state of the analysis stays true of the store over a loop and when an exception
takes the run out of the middle of a body. -/

namespace Subscript.Check.AssignmentFlow

open List Flow Hir Hir.Assign Hir.Assign.Run

/-- the same local, which keeps its value -/
def Older (p q : String × Slot) : Prop :=
  p.1 = q.1 ∧ p.2.declaration = q.2.declaration ∧ (p.2.assigned = true → q.2.assigned = true)

/-- the same locals -/
structure Aged (s s' : Store) : Prop where
  locals : List.Forall₂ Older s.locals s'.locals
  fields : s.fields ⊆ s'.fields

/-- the same locals below others, which have names of `names` and are no `let`s but those of `declared` -/
structure Grown (names : List String) (declared : List (String × Pos × Bool)) (s s' : Store) : Prop where
  locals : ∃ pushed base, s'.locals = pushed ++ base ∧ List.Forall₂ Older s.locals base ∧
    ∀ p ∈ pushed, p.1 ∈ names ∧ ∀ pos, p.2.declaration = some pos → (p.1, pos) ∈ declaredKeys declared
  fields : s.fields ⊆ s'.fields

/-- the reads of unassigned locals are those of the names -/
def Named (names : List String) : Event → Prop
  | .unassigned name _ => name ∈ names
  | .dispatch _ _ _ => True

theorem Older.refl (p : String × Slot) : Older p p := ⟨rfl, rfl, id⟩

theorem Older.trans {p q r : String × Slot} (h : Older p q) (h' : Older q r) : Older p r :=
  ⟨h.1.trans h'.1, h.2.1.trans h'.2.1, fun hp => h'.2.2 (h.2.2 hp)⟩

theorem older_refl (l : Scope String Slot) : List.Forall₂ Older l l := forall₂_same.mpr fun p _ => .refl p

theorem older_trans {l₁ l₂ l₃ : Scope String Slot} (h : List.Forall₂ Older l₁ l₂) (h' : List.Forall₂ Older l₂ l₃) :
    List.Forall₂ Older l₁ l₃ := by
  induction h generalizing l₃ with
  | nil => exact h'
  | cons hpq _ ih =>
    obtain _ | ⟨hqr, hrest⟩ := h'
    exact .cons (hpq.trans hqr) (ih hrest)

theorem Aged.refl (s : Store) : Aged s s := ⟨older_refl _, List.Subset.refl _⟩

theorem Aged.trans {s₁ s₂ s₃ : Store} (h : Aged s₁ s₂) (h' : Aged s₂ s₃) : Aged s₁ s₃ :=
  ⟨older_trans h.locals h'.locals, List.Subset.trans h.fields h'.fields⟩

section Grown

variable {names names' : List String} {declared declared' : List (String × Pos × Bool)} {s s₁ s₂ : Store}

theorem Aged.grown (h : Aged s s₁) : Grown names declared s s₁ := ⟨⟨[], s₁.locals, rfl, h.locals, by simp⟩, h.fields⟩

theorem Grown.refl (s : Store) : Grown names declared s s := (Aged.refl s).grown

section

variable (h : Grown names declared s s₁)

include h

theorem Grown.mono (hn : names ⊆ names') (hd : declared ⊆ declared') :
    Grown names' declared' s s₁ := by
  obtain ⟨⟨pushed, base, heq, hsame, hpushed⟩, hf⟩ := h
  refine ⟨⟨pushed, base, heq, hsame, fun p hp => ⟨hn (hpushed p hp).1, fun pos hpos => ?_⟩⟩, hf⟩
  exact map_subset _ hd ((hpushed p hp).2 pos hpos)

theorem Grown.trans (h' : Grown names declared s₁ s₂) : Grown names declared s s₂ := by
  obtain ⟨⟨pushed, base, heq, hsame, hpushed⟩, hf⟩ := h
  obtain ⟨⟨pushed', base', heq', hsame', hpushed'⟩, hf'⟩ := h'
  rw [heq] at hsame'
  -- the later part has the pushed locals and the base of the earlier one
  obtain ⟨front, back, rfl, hfront, hback⟩ := forall₂_split hsame'
  refine ⟨⟨pushed' ++ front, back, by rw [heq', append_assoc], older_trans hsame hback, fun q hq => ?_⟩, List.Subset.trans hf hf'⟩
  rcases mem_append.mp hq with hq | hq
  · exact hpushed' q hq
  · obtain ⟨p, hp, hpq⟩ := forall₂_exists_of_mem hfront hq
    exact hpq.1 ▸ hpq.2.1 ▸ hpushed p hp

/-- at the end of a scope the pushed locals are gone -/
theorem Grown.leave : Aged s (leaveScope s s₁) := by
  obtain ⟨⟨pushed, base, heq, hsame, -⟩, hf⟩ := h
  refine ⟨?_, hf⟩
  have hbase : (leaveScope s s₁).locals = base := by
    rw [leaveScope, Scope.leave, heq, length_append, hsame.length_eq, Nat.add_sub_cancel, drop_left]
  rwa [hbase]

end

/-! ### Every run is a move -/

/-- the runs of a statement, or of a part of one -/
abbrev Tame (names : List String) (declared : List (String × Pos × Bool)) {α : Type} (c : Run α) : Prop :=
  Moves (Grown names declared) (Named names) c

/-- the runs of an expression -/
abbrev Steady (names : List String) {α : Type} (c : Run α) : Prop := Moves Aged (Named names) c

variable {α β : Type} {c : Run α} {f : α → Run β}

theorem named_mono (hn : names ⊆ names') (e : Event) (h : Named names e) : Named names' e := by
  cases e with
  | unassigned name _ => exact hn h
  | dispatch _ _ _ => trivial

theorem Steady.mono (h : Steady names c) (hn : names ⊆ names') : Steady names' c :=
  Moves.mono h (fun _ _ => id) (named_mono hn)

theorem Tame.mono (h : Tame names declared c) (hn : names ⊆ names') (hd : declared ⊆ declared') : Tame names' declared' c :=
  Moves.mono h (fun _ _ hg => hg.mono hn hd) (named_mono hn)

theorem Steady.tame (h : Steady names c) : Tame names declared c := Moves.mono h (fun _ _ hg => hg.grown) fun _ => id

theorem Tame.inScope (h : Tame names declared c) : Steady names (inScope c) := Moves.within h fun _ _ hg => hg.leave

theorem steady_pure (a : α) : Steady names (pure a) := Moves.ret Aged.refl a

theorem steady_leave (k : Leave) : Steady names (Comp.leave k : Run α) := Moves.leave Aged.refl k

theorem Steady.bind (h : Steady names c) (hf : ∀ a, Steady names (f a)) : Steady names (c >>= f) :=
  Moves.bind Aged.trans h hf

theorem Tame.bind (h : Tame names declared c) (hf : ∀ a, Tame names declared (f a)) : Tame names declared (c >>= f) :=
  Moves.bind Grown.trans h hf

theorem steady_mayStop : Steady names mayStop := by
  refine Moves.choose fun stop => ?_
  rcases stop with _ | _ | _
  · exact steady_pure ()
  · exact steady_leave .cut
  · exact steady_leave .threw

theorem steady_anyBool : Steady names anyBool := .choose fun b => steady_pure b

theorem steady_loopBody {c : Run Unit} (h : Tame names declared c) : Steady names (loopBody c) := by
  refine Moves.after Aged.trans h.inScope fun r => ?_
  rcases r with - | (_ | _ | _ | _ | _ | _)
  · exact steady_pure true
  · exact steady_pure false
  · exact steady_pure true
  · exact steady_leave _
  · exact steady_leave _
  · exact steady_leave _
  · exact steady_leave _

theorem steady_switchBody {c : Run Unit} (h : Steady names c) : Steady names (switchBody c) := by
  refine Moves.after Aged.trans h fun r => ?_
  rcases r with - | (_ | _ | _ | _ | _ | _)
  · exact steady_pure ()
  · exact steady_pure ()
  · exact steady_leave _
  · exact steady_leave _
  · exact steady_leave _
  · exact steady_leave _
  · exact steady_leave _

theorem steady_catching {c handler : Run Unit} (h : Steady names c) (hh : Steady names handler) :
    Steady names (catching c handler) := by
  refine Moves.after Aged.trans h fun r => ?_
  rcases r with - | (_ | _ | _ | _ | _ | _)
  · exact steady_pure ()
  · exact steady_leave _
  · exact steady_leave _
  · exact steady_leave _
  · exact hh
  · exact steady_leave _
  · exact steady_leave _

theorem steady_finally {c finalizer : Run Unit} (h : Steady names c) (hf : Steady names finalizer) :
    Steady names (finally_ c finalizer) := by
  have hthen : ∀ k, Steady names (do finalizer; Comp.leave k : Run Unit) :=
    fun k => Steady.bind hf fun _ => steady_leave k
  refine Moves.after Aged.trans h fun r => ?_
  rcases r with - | (_ | _ | _ | _ | _ | _)
  · exact hf
  · exact hthen _
  · exact hthen _
  · exact hthen _
  · exact hthen _
  · exact hthen _
  · exact steady_leave _

theorem older_assigned (name : String) (l : Scope String Slot) : List.Forall₂ Older l (assigned name l) := by
  induction l with
  | nil => exact .nil
  | cons p l ih =>
    obtain ⟨n, slot⟩ := p
    rw [assigned]
    split
    · exact .cons ⟨rfl, rfl, fun _ => rfl⟩ (older_refl l)
    · exact .cons (.refl _) ih

theorem steady_write (e : Expr) : Steady names (write e) := by
  fun_cases write e
  · exact .modify fun s => ⟨older_assigned _ s.locals, List.Subset.refl _⟩
  · exact .modify fun s => ⟨older_refl _, subset_cons_self _ _⟩
  · exact steady_pure ()

variable {name : String}

theorem steady_readLocal (h : name ∈ names) : Steady names (readLocal name) := by
  refine Moves.get_bind fun s => ?_
  split
  · exact .emit .refl h
  · exact steady_pure ()

theorem tame_declare {slot : Slot} (hn : name ∈ names)
    (hd : ∀ pos, slot.declaration = some pos → (name, pos) ∈ declaredKeys declared) :
    Tame names declared (Run.declare name slot) := by
  refine Moves.modify fun s => ⟨⟨[(name, slot)], s.locals, rfl, older_refl _, fun p hp => ?_⟩, List.Subset.refl _⟩
  obtain rfl := mem_singleton.mp hp
  exact ⟨hn, hd⟩

end Grown

theorem exprsNames_subset {op : Op} {ty : Ty} {pos : Pos} {args : List Expr} {body : List Stmt}
    (h : ∀ params captures isAsync owns, op = .lambda params captures isAsync owns → False) :
    exprsNames args ⊆ exprNames (.mk op ty pos args body) := by
  unfold exprNames
  split
  · exact subset_cons_self _ _
  · exact absurd rfl (h _ _ _ _)
  · exact List.Subset.refl _

mutual

theorem steady_evalAs (place : Bool) : ∀ e : Expr, Steady (exprNames e) (evalAs place e)
  | .mk op ty pos args body => by
    unfold evalAs
    refine Steady.bind steady_mayStop fun _ => ?_
    split
    · split
      · exact steady_pure ()
      · exact steady_readLocal (by simp [exprNames])
    · next target value =>
      refine Steady.bind ((steady_evalAs _ target).mono (by simp [exprNames, exprsNames])) fun _ => ?_
      refine Steady.bind ((steady_evalAs false value).mono (by simp [exprNames, exprsNames])) fun _ => ?_
      exact Steady.bind steady_mayStop fun _ => steady_write target
    · next left right =>
      refine Steady.bind ((steady_evalAs false left).mono (by simp [exprNames, exprsNames])) fun _ => ?_
      refine Steady.bind steady_anyBool fun taken => ?_
      split
      · exact (steady_evalAs false right).mono (by simp [exprNames, exprsNames])
      · exact steady_pure ()
    · next left right =>
      refine Steady.bind ((steady_evalAs false left).mono (by simp [exprNames, exprsNames])) fun _ => ?_
      refine Steady.bind steady_anyBool fun taken => ?_
      split
      · exact (steady_evalAs false right).mono (by simp [exprNames, exprsNames])
      · exact steady_pure ()
    · next cond then_ els =>
      refine Steady.bind ((steady_evalAs false cond).mono (by simp [exprNames, exprsNames])) fun _ => ?_
      refine Steady.bind steady_anyBool fun taken => ?_
      split
      · exact (steady_evalAs false then_).mono (by simp [exprNames, exprsNames])
      · exact (steady_evalAs false els).mono (by simp [exprNames, exprsNames])
    · exact steady_pure ()
    · refine Steady.bind ((steady_evalAll args).mono (by simp [exprNames])) fun _ => ?_
      refine Moves.choose fun close => ?_
      split
      · exact steady_leave .closed
      · exact steady_pure ()
    · exact Steady.bind ((steady_evalAll args).mono (exprsNames_subset ‹_›)) fun _ => steady_mayStop

theorem steady_evalAll : ∀ es : List Expr, Steady (exprsNames es) (evalAll es)
  | [] => steady_pure ()
  | e :: es => by
    rw [exprsNames]
    exact Steady.bind ((steady_evalAs false e).mono (by simp)) fun _ => (steady_evalAll es).mono (by simp)

end

variable {names : List String}

theorem steady_outcome (e : Expr) : Steady names (outcome e) := by
  unfold outcome
  split
  · exact steady_pure _
  · exact steady_anyBool

theorem steady_condition (e : Option Expr) (h : optNames e ⊆ names) : Steady names (evalCondition e) := by
  cases e with
  | none => exact steady_pure true
  | some e => exact Steady.bind ((steady_evalAs false e).mono h) fun _ => steady_outcome e

theorem steady_matchTest (value : Int) (cases : List SwitchCase) (h : casesNames cases ⊆ names) (i : Nat) :
    Steady names (matchTest value cases i) := by
  induction cases generalizing i with
  | nil => exact steady_pure none
  | cons c cases ih =>
    obtain ⟨_ | test, body⟩ := c
    · rw [matchTest]
      exact ih (by simp_all [casesNames]) (i + 1)
    · rw [matchTest]
      refine Steady.bind ((steady_evalAs false test).mono (by simp_all [casesNames, optNames])) fun _ => ?_
      refine Steady.bind ?_ fun found => ?_
      · unfold isMatch
        split
        · exact steady_pure _
        · exact steady_pure _
        · exact steady_anyBool
      · split
        · exact steady_pure _
        · exact ih (by simp_all [casesNames]) (i + 1)

section Rounds

variable {names names' : List String} {declared declared' : List (String × Pos × Bool)} {c step : Run Unit}

theorem steady_whileRound (cond : Option Expr) (h : Tame names declared c) :
    Steady (optNames cond ++ names) (do if ← evalCondition cond then loopBody c else pure false) := by
  refine Steady.bind (steady_condition cond (by simp)) fun b => ?_
  split
  · exact (steady_loopBody h).mono (by simp)
  · exact steady_pure false

theorem steady_doRound (cond : Option Expr) (h : Tame names declared c) :
    Steady (names ++ optNames cond) (do if ← loopBody c then evalCondition cond else pure false) := by
  refine Steady.bind ((steady_loopBody h).mono (by simp)) fun b => ?_
  split
  · exact steady_condition cond (by simp)
  · exact steady_pure false

theorem steady_forRound (cond : Option Expr) (hstep : Tame names' declared' step) (h : Tame names declared c) :
    Steady (optNames cond ++ (names' ++ names)) (do
      if ← evalCondition cond then
        if ← loopBody c then
          inScope step
          pure true
        else pure false
      else pure false) := by
  refine Steady.bind (steady_condition cond (by simp)) fun b => ?_
  split
  · refine Steady.bind ((steady_loopBody h).mono fun _ hx => by simp [hx]) fun b' => ?_
    split
    · exact Steady.bind (hstep.inScope.mono fun _ hx => by simp [hx]) fun _ => steady_pure true
    · exact steady_pure false
  · exact steady_pure false

theorem tame_for {first : List String} {declared₁ : List (String × Pos × Bool)} {init : Run Unit} (cond : Option Expr)
    (hinit : Tame first declared₁ init) (hstep : Tame names' declared' step) (h : Tame names declared c) :
    Tame (first ++ (optNames cond ++ (names' ++ names))) declared₁ (do
      init
      Comp.loop do
        if ← evalCondition cond then
          if ← loopBody c then
            inScope step
            pure true
          else pure false
        else pure false) := by
  refine Tame.bind (hinit.mono (by simp) (List.Subset.refl _)) fun _ => ?_
  exact Steady.tame (Steady.mono (Moves.loop Aged.trans (steady_forRound cond hstep h)) (subset_append_right _ _))

/-- an element of a `for`-`of` and its body -/
theorem tame_element (name : String) (h : Tame names declared c) :
    Tame (name :: names) declared (do Run.declare name ⟨none, true⟩; c) := by
  refine Tame.bind (tame_declare (by simp) (by simp)) fun _ => ?_
  exact h.mono (subset_cons_self _ _) (List.Subset.refl _)

theorem steady_elementRound (name : String) (h : Tame names declared c) :
    Steady (name :: names) (do if ← anyBool then loopBody (do Run.declare name ⟨none, true⟩; c) else pure false) := by
  refine Steady.bind steady_anyBool fun b => ?_
  split
  · exact steady_loopBody (tame_element name h)
  · exact steady_pure false

theorem tame_caught (binding : Option (String × Ty)) (hm : Tame names declared c) :
    Tame ((binding.map (·.1)).toList ++ names) declared (do declareCaught binding; c) := by
  refine Tame.bind ?_ fun _ => hm.mono (subset_append_right _ _) (List.Subset.refl _)
  cases binding with
  | none => exact (steady_pure ()).tame
  | some caught => exact tame_declare (by simp) (by simp)

end Rounds

mutual

theorem tame_exec : ∀ s : Stmt, Tame (stmtNames s) (stmtDeclared s) (exec s)
  | .letDecl name _ _ init pos => by
    rw [exec]
    refine Tame.bind ((steady_evalAs false init).mono (by simp [stmtNames])).tame fun _ => ?_
    refine tame_declare (by simp [stmtNames]) fun p hp => ?_
    obtain rfl := Option.some.inj hp
    simp [declaredKeys, stmtDeclared]
  | .expr e => by
    rw [exec, stmtNames]
    refine Steady.tame (Steady.bind (steady_evalAs false e) fun _ => ?_)
    split
    · exact steady_leave .cut
    · exact steady_pure ()
  | .ret none => (steady_leave .ret).tame
  | .ret (some value) => by
    rw [exec, stmtNames]
    exact (Steady.bind (steady_evalAs false value) fun _ => steady_leave .ret).tame
  | .ifElse cond then_ els => by
    rw [exec, stmtNames]
    refine Steady.tame (Steady.bind (steady_condition (some cond) (by simp [optNames])) fun b => ?_)
    split
    · exact (tame_execAll then_).inScope.mono (by simp)
    · exact (tame_execAll els).inScope.mono (by simp)
  | .whileLoop cond body => by
    rw [exec, stmtNames]
    exact Steady.tame (Moves.loop Aged.trans (steady_whileRound (some cond) (tame_execAll body)))
  | .doWhile body cond => by
    rw [exec, stmtNames]
    exact Steady.tame (Moves.loop Aged.trans (steady_doRound (some cond) (tame_execAll body)))
  | .forLoop init cond step body => by
    rw [exec, stmtNames]
    exact (tame_for cond (tame_execInit init) (tame_execAll step) (tame_execAll body)).inScope.tame
  | .forOf name _ subject _ body _ => by
    rw [exec, stmtNames]
    refine Steady.tame (Steady.bind ((steady_evalAs false subject).mono fun _ hx => by simp [hx]) fun _ => ?_)
    exact Steady.mono (Moves.loop Aged.trans (steady_elementRound name (tame_execAll body))) (by simp)
  | .generatorForOf name _ _ subject body _ => by
    rw [exec, stmtNames]
    refine Steady.tame (Steady.bind ((steady_evalAs false subject).mono fun _ hx => by simp [hx]) fun _ => ?_)
    have hround := steady_elementRound name (tame_execAll body)
    exact Steady.mono (Moves.loop Aged.trans (Steady.bind steady_mayStop fun _ => hround)) (by simp)
  | .switch disc cases => by
    rw [exec, stmtNames]
    refine Steady.tame (Steady.bind ((steady_evalAs false disc).mono (by simp)) fun _ => ?_)
    refine Steady.bind (Moves.choose fun v => steady_pure v) fun value => ?_
    refine Steady.bind (Moves.emit Aged.refl trivial) fun _ => ?_
    refine Steady.bind (steady_matchTest value cases (by simp) 0) fun found => ?_
    split
    · exact (steady_switchBody (steady_execFrom cases _)).mono (by simp)
    · split
      · exact steady_leave .cut
      · exact steady_pure ()
  | .breakLoop => (steady_leave .brk).tame
  | .continueLoop => (steady_leave .cont).tame
  | .block body => (tame_execAll body).inScope.tame
  | .throw value => by
    rw [exec, stmtNames]
    exact (Steady.bind (steady_evalAs false value) fun _ => steady_leave .threw).tame
  | .tryCatch body binding handler _ => by
    rw [exec, stmtNames]
    refine Steady.tame (steady_catching ((tame_execAll body).inScope.mono fun _ hx => by simp [hx]) ?_)
    refine (tame_caught binding (tame_execAll handler)).inScope.mono fun n hn => ?_
    rcases mem_append.mp hn with hn | hn
    · exact mem_append_left _ hn
    · exact mem_append_right _ (mem_append_right _ hn)
  | .using _ body finalizer _ => by
    rw [exec, stmtNames]
    refine Steady.tame (steady_finally ?_ ((tame_execAll finalizer).inScope.mono (by simp)))
    exact steady_finally ((tame_execAll body).inScope.mono (by simp)) steady_mayStop

theorem tame_execInit : ∀ s : Option Stmt, Tame (initNames s) (initDeclared s) (execInit s)
  | none => (steady_pure ()).tame
  | some s => tame_exec s

theorem tame_execAll : ∀ ss : List Stmt, Tame (stmtsNames ss) (stmtsDeclared ss) (execAll ss)
  | [] => steady_mayStop.tame
  | s :: ss => by
    rw [execAll, stmtsNames, stmtsDeclared]
    exact Tame.bind ((tame_exec s).mono (by simp) (by simp)) fun _ => (tame_execAll ss).mono (by simp) (by simp)

theorem steady_execFrom : ∀ (cases : List SwitchCase) (i : Nat), Steady (casesNames cases) (execFrom cases i)
  | [], _ => steady_pure ()
  | .mk test body :: cases, 0 => by
    rw [execFrom, casesNames]
    refine Steady.bind ((tame_execAll body).inScope.mono (by simp)) fun _ => ?_
    exact (steady_execFrom cases 0).mono (by simp)
  | .mk test body :: cases, i + 1 => by
    rw [execFrom, casesNames]
    exact (steady_execFrom cases i).mono (by simp)

end

end Subscript.Check.AssignmentFlow
