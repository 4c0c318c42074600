import Subscript.Check.AssignmentExpr

/-! Rules for the analysis of statements: however statements are left, one of the exits of the analysis is true of the
store. A loop body is analysed once, from the state at the entry, which is true of the store before each iteration,
since assigned locals stay assigned. -/

namespace Subscript.Check.AssignmentFlow

open List Flow Hir Hir.Assign Hir.Assign.Run

def Exit.kind : Exit → Option Leave
  | .next _ => none
  | .brk _ => some .brk
  | .cont _ => some .cont
  | .ret _ => some .ret

/-- a `switch` that is exhaustive over its enum gets a member -/
def MemberOnly (m : Members) : Event → Prop
  | .dispatch disc cases value =>
    hasDefault cases = false → sourceEnumSwitchExhaustive m disc cases = true → ∃ id, disc.ty = .enum id ∧ value ∈ m.enums id
  | .unassigned _ _ => True

def Ends (b : Binding) (exits : List Exit) (k : Option Leave) (s : Store) : Prop :=
  ∃ x ∈ exits, Exit.kind x = k ∧ Rel b (Exit.state x) s

/-- an exception, the end of the prefix and the close of a generator have no exit in the analysis -/
def Leaves (b : Binding) (exits : List Exit) (k : Leave) (s : Store) : Prop := Abrupt k ∨ Ends b exits (some k) s

abbrev Covers (m : Members) (b : Binding) (P : Store → Prop) (c : Run Unit) (exits : List Exit) : Prop :=
  Triple (MemberOnly m) (Safe b) P c (fun _ => Ends b exits none) (Leaves b exits)

/-- the state of the analysis is true of the store, and what is to be declared is fresh -/
structure Pre (b : Binding) (st : State) (declared : List (String × Pos × Bool)) (s : Store) : Prop where
  rel : Rel b st s
  fresh : Fresh b declared s

section Rules

variable {m : Members} {b : Binding} {st st' : State} {P : Store → Prop} {c c' : Run Unit} {exits exits' : List Exit}
  {declared declared' : List (String × Pos × Bool)} {names : List String} {s s' : Store}

theorem Pre.aged (h : Pre b st declared s) (ha : Aged s s') : Pre b st declared s' := ⟨h.rel.aged ha, h.fresh.aged ha⟩

theorem Pre.aged' (ha : Aged s s') (h : Pre b st declared s) : Pre b st declared s' := h.aged ha

theorem Pre.subset (h : Pre b st declared s) (hsub : declared' ⊆ declared) : Pre b st declared' s :=
  ⟨h.rel, h.fresh.subset hsub⟩

theorem Ends.mono {k : Option Leave} (h : Ends b exits k s) (hsub : exits ⊆ exits') : Ends b exits' k s := by
  obtain ⟨x, hx, hk, hrel⟩ := h
  exact ⟨x, hsub hx, hk, hrel⟩

theorem Leaves.mono {k : Leave} (h : Leaves b exits k s) (hsub : exits ⊆ exits') : Leaves b exits' k s :=
  h.imp_right fun h => h.mono hsub

theorem Covers.mono (h : Covers m b P c exits) (hsub : exits ⊆ exits') : Covers m b P c exits' :=
  .weaken h (fun _ _ h => h.mono hsub) fun _ _ h => h.mono hsub

theorem eval_pre {e : Expr} (h : Checked b (expression b e st).1) :
    Triple (MemberOnly m) (Safe b) (Pre b st declared) (eval e) (fun _ => Pre b (expression b e st).2 declared)
      (Leaves b exits) := by
  refine .weaken (Steady.keep (steady_evalAs false e) Pre.aged' ?_) (fun _ _ h => ⟨h.2, h.1.fresh⟩)
    fun _ _ h => .inl h.2
  exact .pre (evalAs_sound false e st h) (fun _ hp => hp.rel)

@[simp] theorem kind_restoreScope (x : Exit) : Exit.kind (restoreScope st x) = Exit.kind x := by cases x <;> rfl

@[simp] theorem state_restoreScope (x : Exit) :
    Exit.state (restoreScope st x) = { Exit.state x with active := st.active } := by cases x <;> rfl

theorem Ends.restore {k : Option Leave} (hrel : Rel b st s) (h : Ends b exits k s') (hg : Grown names declared s s') :
    Ends b (exits.map (restoreScope st)) k (leaveScope s s') := by
  obtain ⟨x, hx, hk, hrel'⟩ := h
  refine ⟨restoreScope st x, mem_map_of_mem hx, by rwa [kind_restoreScope], ?_⟩
  rw [state_restoreScope]
  exact hrel.restore hrel' hg

/-- a scope of its own -/
theorem Covers.inScope (h : Covers m b (Pre b st declared) c exits) (hm : Tame names declared' c) :
    Covers m b (Pre b st declared) (inScope c) (exits.map (restoreScope st)) := by
  refine .within fun s₀ hs => .moving hm fun s₁ hs₁ => ?_
  subst hs₁
  refine .conseq h (fun s hs' => hs' ▸ hs) (fun _ s hend hg => hend.restore hs.rel hg) fun k s hleave hg => ?_
  exact hleave.imp_right fun hend => hend.restore hs.rel hg

theorem exists_next (h : Ends b exits none s) : ∃ st, .next st ∈ exits ∧ Rel b st s := by
  obtain ⟨x, hx, hk, hrel⟩ := h
  cases x with
  | next st => exact ⟨st, hx, hrel⟩
  | brk | cont | ret => cases hk

theorem ends_next (hx : .next st ∈ exits) (h : Rel b st s) : Ends b exits none s := ⟨_, hx, rfl, h⟩

/-! ### Conditions -/

/-- the outcome of a literal is its value -/
theorem condition_triple {e : Expr} (h : Checked b (expression b e st).1) :
    Triple (MemberOnly m) (Safe b) (Pre b st declared) (evalCondition (some e))
      (fun v s => isBool (!v) e = false ∧ Pre b (expression b e st).2 declared s) (Leaves b exits) := by
  refine .bind (eval_pre h) fun _ => ?_
  obtain ⟨op, ty, pos, args, body⟩ := e
  unfold outcome
  split
  · next v hop =>
    obtain rfl : op = .bool v := hop
    exact .ret fun s hs => ⟨by simp [isBool], hs⟩
  · next hop =>
    refine .choose fun v => .ret fun s hs => ⟨?_, hs⟩
    unfold isBool
    split
    · next v' _ _ _ _ heq =>
      cases heq
      exact absurd rfl (hop v')
    · rfl

/-! ### Loops -/

/-- what was true before an iteration is true after it -/
theorem Covers.loop {c : Run Bool} (hm : Steady names c) (hP : ∀ {s s'}, Aged s s' → P s → P s')
    (h : Triple (MemberOnly m) (Safe b) P c (fun again s => if again then True else Ends b exits none s) (Leaves b exits)) :
    Covers m b P (Comp.loop c) exits := by
  refine Triple.loop (Triple.weaken (hm.keep hP h) (fun again s hs => ?_) fun _ _ hs => hs.2)
  cases again with
  | false => exact hs.2
  | true => exact hs.1

theorem loopBody_triple (h : Covers m b P (inScope c) exits) :
    Triple (MemberOnly m) (Safe b) P (loopBody c)
      (fun again s => if again then Ends b exits none s ∨ Ends b exits (some .cont) s else Ends b exits (some .brk) s)
      fun k s => Abrupt k ∨ k = .ret ∧ Ends b exits (some .ret) s := by
  refine .after h fun r => ?_
  rcases r with - | (_ | _ | _ | _ | _ | _)
  · exact .ret fun s hs => .inl hs
  · exact .ret fun s hs => hs.resolve_left id
  · exact .ret fun s hs => .inr (hs.resolve_left id)
  · exact .leave fun s hs => .inr ⟨rfl, hs.resolve_left id⟩
  · exact .leave fun s _ => .inl trivial
  · exact .leave fun s _ => .inl trivial
  · exact .leave fun s _ => .inl trivial

variable {step : State → List Exit} {infinite : Bool}

theorem loopExits_brk (h : Ends b exits (some .brk) s) : Ends b (loopExits st infinite exits step) none s := by
  obtain ⟨x, hx, hk, hrel⟩ := h
  cases x with
  | brk st' => exact ⟨.next st', mem_append_right _ (mem_flatMap.mpr ⟨_, hx, by simp⟩), rfl, hrel⟩
  | next | cont | ret => cases hk

theorem loopExits_ret (h : Ends b exits (some .ret) s) : Ends b (loopExits st infinite exits step) (some .ret) s := by
  obtain ⟨x, hx, hk, hrel⟩ := h
  cases x with
  | ret st' => exact ⟨.ret st', mem_append_right _ (mem_flatMap.mpr ⟨_, hx, by simp⟩), rfl, hrel⟩
  | next | brk | cont => cases hk

theorem loopExits_skip (h : Rel b st s) : Ends b (loopExits st false exits step) none s :=
  ends_next (mem_append_left _ (by simp)) h

theorem leaves_ret {k : Leave} (h : Abrupt k ∨ k = .ret ∧ Ends b exits (some .ret) s) (hret : Ends b exits (some .ret) s →
    Ends b exits' (some .ret) s) : Leaves b exits' k s := by
  rcases h with h | ⟨rfl, h⟩
  · exact .inl h
  · exact .inr (hret h)

theorem stepState_mem {x : Exit} (hx : x ∈ exits) (hk : Exit.kind x = none ∨ Exit.kind x = some .cont) :
    Exit.state x ∈ stepStates exits := by
  refine mem_filterMap.mpr ⟨x, hx, ?_⟩
  cases x with
  | next | cont => rfl
  | brk | ret => simp [Exit.kind] at hk

/-- how a loop goes on from its body -/
theorem Ends.again (h : Ends b exits none s ∨ Ends b exits (some .cont) s) :
    ∃ x, (x ∈ exits ∧ (Exit.kind x = none ∨ Exit.kind x = some .cont)) ∧ Rel b (Exit.state x) s := by
  rcases h with ⟨x, hx, hk, hrel⟩ | ⟨x, hx, hk, hrel⟩
  · exact ⟨x, ⟨hx, .inl hk⟩, hrel⟩
  · exact ⟨x, ⟨hx, .inr hk⟩, hrel⟩

section Elements

variable {name : String}

theorem restore_hide (b : Binding) (name : String) (st : State) : { hide b name st with active := st.active } = st := by
  cases b with
  | field => rfl
  | localVar binding _ =>
    simp only [hide]
    split <;> rfl

theorem elementExits_skip (h : Rel b st s) : Ends b (elementExits st (hide b name st) exits) none s := by
  refine ⟨restoreScope st (.next (hide b name st)), mem_map_of_mem (mem_append_left _ (by simp)), rfl, ?_⟩
  rw [state_restoreScope]
  exact (restore_hide b name st).symm ▸ h

theorem elementExits_brk {hidden : State} (h : Ends b (exits.map (restoreScope st)) (some .brk) s) :
    Ends b (elementExits st hidden exits) none s := by
  obtain ⟨_, hmap, hk, hrel⟩ := h
  obtain ⟨x, hx, rfl⟩ := mem_map.mp hmap
  cases x with
  | brk st' =>
    have hnext : .next { st' with active := hidden.active } ∈
        loopExits hidden false (exits.map (restoreScope hidden)) fun s => [.next s] :=
      mem_append_right _ (mem_flatMap.mpr ⟨_, mem_map_of_mem hx, by simp [restoreScope]⟩)
    exact ⟨_, mem_map_of_mem hnext, rfl, hrel⟩
  | next | cont | ret => cases hk

theorem elementExits_ret {hidden : State} (h : Ends b (exits.map (restoreScope st)) (some .ret) s) :
    Ends b (elementExits st hidden exits) (some .ret) s := by
  obtain ⟨_, hmap, hk, hrel⟩ := h
  obtain ⟨x, hx, rfl⟩ := mem_map.mp hmap
  cases x with
  | ret st' =>
    have hret : .ret { st' with active := hidden.active } ∈
        loopExits hidden false (exits.map (restoreScope hidden)) fun s => [.next s] :=
      mem_append_right _ (mem_flatMap.mpr ⟨_, mem_map_of_mem hx, by simp [restoreScope]⟩)
    exact ⟨_, mem_map_of_mem hret, rfl, hrel⟩
  | next | cont | brk => cases hk

/-- the variable of the element hides the binding in the body -/
theorem element_triple (h : Covers m b (Pre b (hide b name st) declared) c exits) (hm : Tame names declared' c) :
    Triple (MemberOnly m) (Safe b) (Pre b st declared)
      (do if ← anyBool then loopBody (do Run.declare name ⟨none, true⟩; c) else pure false)
      (fun again s => if again then True else Ends b (elementExits st (hide b name st) exits) none s)
      (Leaves b (elementExits st (hide b name st) exits)) := by
  refine .bind anyBool_triple fun taken => ?_
  split
  · have hbody : Covers m b (Pre b st declared) (do Run.declare name ⟨none, true⟩; c) exits :=
      .bind (.modify fun s hs => (⟨hs.rel.hide name, hs.fresh.push_other⟩ : Pre b (hide b name st) declared _)) fun _ => h
    refine .weaken (loopBody_triple (hbody.inScope (tame_element name hm)))
      (fun again s hs => ?_) fun k s hs => leaves_ret hs elementExits_ret
    cases again with
    | true => trivial
    | false => exact elementExits_brk hs
  · exact .ret fun s hs => elementExits_skip hs.rel

end Elements

/-! ### Exceptions and finalizers -/

theorem Covers.catching {handler : Run Unit} (h : Triple (MemberOnly m) (Safe b) P c (fun _ => Ends b exits none)
    fun k s => P s ∧ Leaves b exits k s) (hh : Covers m b P handler exits) : Covers m b P (catching c handler) exits := by
  refine Triple.after h fun r => ?_
  rcases r with - | (_ | _ | _ | _ | _ | _)
  · exact .ret fun _ => id
  · exact .leave fun _ hs => hs.2
  · exact .leave fun _ hs => hs.2
  · exact .leave fun _ hs => hs.2
  · exact .pre hh (fun _ hs => hs.1)
  · exact .leave fun _ hs => hs.2
  · exact .leave fun _ hs => hs.2

theorem Covers.caught (binding : Option (String × Ty)) (h : Covers m b (Pre b (match binding with
    | some (name, _) => hide b name st
    | none => st) declared) c exits) :
    Covers m b (Pre b st declared) (do declareCaught binding; c) exits := by
  refine Triple.bind ?_ fun _ => h
  cases binding with
  | none => exact .ret fun _ => id
  | some caught => exact .modify fun s hs => ⟨hs.rel.hide _, hs.fresh.push_other⟩

/-- the body with what stays true of the store -/
abbrev CoversToo (m : Members) (b : Binding) (P : Store → Prop) (c : Run Unit) (exits : List Exit) : Prop :=
  Triple (MemberOnly m) (Safe b) P c (fun _ s => P s ∧ Ends b exits none s) fun k s => P s ∧ Leaves b exits k s

/-- a hook after the body can raise and does nothing else -/
theorem CoversToo.hook (h : CoversToo m b P c exits) : CoversToo m b P (finally_ c mayStop) exits := by
  have hthen : ∀ k, Triple (MemberOnly m) (Safe b) (fun s => P s ∧ Leaves b exits k s) (do mayStop; Comp.leave k : Run Unit)
      (fun _ s => P s ∧ Ends b exits none s) fun k s => P s ∧ Leaves b exits k s :=
    fun k => .bind (mayStop_triple fun _ _ hk hs => ⟨hs.1, .inl hk⟩) fun _ => .leave fun _ hs => hs
  refine Triple.after h fun r => ?_
  rcases r with - | (_ | _ | _ | _ | _ | _)
  · exact mayStop_triple fun _ _ hk hs => ⟨hs.1, .inl hk⟩
  · exact hthen .brk
  · exact hthen .cont
  · exact hthen .ret
  · exact hthen .threw
  · exact hthen .closed
  · exact .leave fun _ hs => hs

/-- the finalizer runs from each exit of the body, and after an exception -/
theorem CoversToo.finalize {finalizer : Run Unit} (h : CoversToo m b P c exits)
    (hfin : ∀ x ∈ exits, Triple (MemberOnly m) (Safe b) (fun s => P s ∧ Rel b (Exit.state x) s) finalizer
      (fun _ => Ends b exits' (Exit.kind x)) (Leaves b exits'))
    (hexc : Triple (MemberOnly m) (Safe b) P finalizer (fun _ _ => True) (Leaves b exits')) :
    Covers m b P (finally_ c finalizer) exits' := by
  have hjump : ∀ k, ¬ Abrupt k → Triple (MemberOnly m) (Safe b) (fun s => P s ∧ Leaves b exits k s)
      (do finalizer; Comp.leave k : Run Unit) (fun _ => Ends b exits' none) (Leaves b exits') := by
    intro k hk
    refine .bind ?_ fun _ => .leave fun s hs => .inr hs
    refine .of_start fun s₀ hs₀ => ?_
    obtain ⟨x, hx, hkind, hrel⟩ := hs₀.2.resolve_left hk
    refine .conseq (hfin x hx) (fun s hs => hs ▸ ⟨hs₀.1, hrel⟩) (fun _ s hs => ?_) fun _ _ => id
    rwa [← hkind]
  have hthrow : ∀ k, Abrupt k → Triple (MemberOnly m) (Safe b) (fun s => P s ∧ Leaves b exits k s)
      (do finalizer; Comp.leave k : Run Unit) (fun _ => Ends b exits' none) (Leaves b exits') := by
    intro k hk
    refine .bind (Q := fun _ _ => True) ?_ fun _ => .leave fun s _ => .inl hk
    exact .pre hexc (fun s hs => hs.1)
  refine Triple.after h fun r => ?_
  rcases r with - | (_ | _ | _ | _ | _ | _)
  · refine .of_start fun s₀ hs₀ => ?_
    obtain ⟨hs₀, x, hx, hkind, hrel⟩ := hs₀
    refine .conseq (hfin x hx) (fun s hs => hs ▸ ⟨hs₀, hrel⟩) (fun _ s hs => ?_) fun _ _ => id
    rwa [← hkind]
  · exact hjump .brk id
  · exact hjump .cont id
  · exact hjump .ret id
  · exact hthrow .threw trivial
  · exact hthrow .closed trivial
  · exact .leave fun _ _ => .inl trivial

end Rules

end Subscript.Check.AssignmentFlow
