import Subscript.Check.AssignmentFrame

/-! The states of the flow analysis against the store: a state says whether the name means the binding here and, if it is
`held`, that the binding has a value. Expressions keep this, and if no read is reported none is of an unassigned local. -/

namespace Subscript.Check.AssignmentFlow

open List Flow Hir Hir.Assign Hir.Assign.Run

/-- the local that is declared at the position -/
def isOf (name : String) (declaration : Pos) (p : String × Slot) : Bool :=
  p.1 == name && p.2.declaration == some declaration

structure LocalRel (name : String) (declaration : Pos) (st : State) (s : Store) : Prop where
  active : st.active = true ↔ (s.locals.lookup name).map (·.declaration) = some (some declaration)
  held : st.held = true → ∀ p ∈ s.locals, isOf name declaration p = true → p.2.assigned = true
  once : s.locals.countP (isOf name declaration) ≤ 1

/-- the state of the analysis is true of the store -/
def Rel : Binding → State → Store → Prop
  | .field name, st, s => st.held = true → name ∈ s.fields
  | .localVar name declaration, st, s => LocalRel name declaration st s

/-- the binding is not in scope where it is declared -/
def Fresh : Binding → List (String × Pos × Bool) → Store → Prop
  | .field _, _, _ => True
  | .localVar name declaration, declared, s =>
    (name, declaration) ∈ declaredKeys declared → s.locals.countP (isOf name declaration) = 0

/-- no read of the binding comes before an assignment -/
def Safe : Binding → Event → Prop
  | .localVar name declaration, .unassigned n d => ¬(n = name ∧ d = declaration)
  | _, _ => True

def Checked : Binding → Reads → Prop
  | .field _, _ => True
  | .localVar _ _, reads => ∀ r ∈ reads, r.2 = true

@[simp] theorem checked_append (b : Binding) (r r' : Reads) : Checked b (r ++ r') ↔ Checked b r ∧ Checked b r' := by
  cases b with
  | field => simp [Checked]
  | localVar => simp only [Checked, forall_mem_append]

theorem Checked.of_subset {b : Binding} {r r' : Reads} (h : Checked b r) (hsub : r' ⊆ r) : Checked b r' := by
  cases b with
  | field => trivial
  | localVar => exact fun x hx => h x (hsub hx)

section Rel

variable {name : String} {declaration : Pos} {b : Binding} {st st' : State} {s s' : Store}
  {declared declared' : List (String × Pos × Bool)} {names : List String}

variable {p : String × Slot}

theorem isOf_older {q : String × Slot} (h : Older p q) : isOf name declaration p = isOf name declaration q := by
  rw [isOf, isOf, h.1, h.2.1]

variable {l l' : Scope String Slot}

theorem count_older (h : List.Forall₂ Older l l') :
    l.countP (isOf name declaration) = l'.countP (isOf name declaration) := by
  induction h with
  | nil => rfl
  | cons hpq _ ih => rw [countP_cons, countP_cons, ih, isOf_older hpq]

theorem lookup_older (h : List.Forall₂ Older l l') (n : String) :
    (l.lookup n).map (·.declaration) = (l'.lookup n).map (·.declaration) := by
  induction h with
  | nil => rfl
  | @cons p q l l' hpq _ ih =>
    obtain ⟨m, slot⟩ := p
    obtain ⟨m', slot'⟩ := q
    obtain ⟨rfl, hd, -⟩ := hpq
    by_cases hn : n = m
    · subst hn
      simpa [lookup_cons] using hd
    · have hne : (n == m) = false := beq_false_of_ne hn
      simpa only [lookup_cons, hne] using ih

theorem Rel.aged (h : Rel b st s) (ha : Aged s s') : Rel b st s' := by
  cases b with
  | field => exact fun hheld => ha.fields (h hheld)
  | localVar name declaration =>
    obtain ⟨hactive, hheld, honce⟩ := h
    refine ⟨by rw [← lookup_older ha.locals]; exact hactive, fun hst q hq hof => ?_, by rwa [← count_older ha.locals]⟩
    obtain ⟨p, hp, hpq⟩ := forall₂_exists_of_mem ha.locals hq
    exact hpq.2.2 (hheld hst p hp (by rwa [isOf_older hpq]))

theorem Fresh.aged (h : Fresh b declared s) (ha : Aged s s') : Fresh b declared s' := by
  cases b with
  | field => trivial
  | localVar => exact fun hmem => (count_older ha.locals).symm.trans (h hmem)

theorem Fresh.subset (h : Fresh b declared s) (hsub : declared' ⊆ declared) : Fresh b declared' s := by
  cases b with
  | field => trivial
  | localVar => exact fun hmem => h (map_subset _ hsub hmem)

theorem fresh_nil (b : Binding) (s : Store) : Fresh b [] s := by
  cases b with
  | field => trivial
  | localVar => exact fun hmem => absurd hmem not_mem_nil

theorem Fresh.push_other {n : String} (h : Fresh b declared s) :
    Fresh b declared { s with locals := (n, ⟨none, true⟩) :: s.locals } := by
  cases b with
  | field => trivial
  | localVar name declaration =>
    intro hmem
    rw [countP_cons_of_neg (by simp [isOf])]
    exact h hmem

/-- what other statements declare leaves a declaration fresh -/
theorem Fresh.grown (h : Fresh b declared s) (hg : Grown names declared' s s')
    (hdisj : (declaredKeys declared').Disjoint (declaredKeys declared)) : Fresh b declared s' := by
  cases b with
  | field => trivial
  | localVar name declaration =>
    intro hmem
    obtain ⟨pushed, base, heq, hsame, hpushed⟩ := hg.locals
    have hnone : pushed.countP (isOf name declaration) = 0 := by
      refine countP_eq_zero.mpr fun p hp hof => ?_
      simp only [isOf, Bool.and_eq_true, beq_iff_eq] at hof
      exact hdisj (hof.1 ▸ (hpushed p hp).2 declaration hof.2) hmem
    rw [heq, countP_append, hnone, ← count_older hsame, h hmem]

/-- at the end of a scope the name means what it did at its start -/
theorem Rel.restore (h : Rel b st s) (h' : Rel b st' s') (hg : Grown names declared s s') :
    Rel b { st' with active := st.active } (leaveScope s s') := by
  have haged := h.aged hg.leave
  cases b with
  | field => exact h'
  | localVar name declaration =>
    refine ⟨haged.active, fun hst p hp => ?_, haged.once⟩
    exact h'.held hst p (mem_of_mem_drop hp)

theorem Rel.held_of {held : Bool} (h : Rel b st s) (h' : Rel b st' s) (hst : held = true → st'.held = true) :
    Rel b { st with held := held } s := by
  cases b with
  | field => exact fun hheld => h' (hst hheld)
  | localVar => exact ⟨h.active, fun hheld => h'.held (hst hheld), h.once⟩

/-- another local, of the same name or not -/
theorem LocalRel.push {active : Bool} (h : LocalRel name declaration st s)
    (hof : isOf name declaration p = false)
    (hactive : active = true ↔ ((p :: s.locals).lookup name).map (·.declaration) = some (some declaration)) :
    LocalRel name declaration { st with active := active } { s with locals := p :: s.locals } := by
  refine ⟨hactive, fun hst q hq hq' => ?_, ?_⟩
  · rcases mem_cons.mp hq with rfl | hq
    · rw [hof] at hq'
      cases hq'
    · exact h.held hst q hq hq'
  · rw [countP_cons_of_neg (by simp [hof])]
    exact h.once

theorem LocalRel.push_of_ne {n : String} {slot : Slot} (h : LocalRel name declaration st s) (hn : n ≠ name) :
    LocalRel name declaration st { s with locals := (n, slot) :: s.locals } := by
  have hne : (name == n) = false := beq_false_of_ne (Ne.symm hn)
  exact h.push (by simp [isOf, hn]) (by simpa only [lookup_cons, hne] using h.active)

theorem Rel.declare {name : String} {pos : Pos} {init : Expr} {i : Bool} (h : Rel b st s) (hfresh : Fresh b [(name, pos, i)] s) :
    Rel b (declare b name pos init st)
      { s with locals := (name, ⟨some pos, !init.isUnassigned⟩) :: s.locals } := by
  cases b with
  | field => exact h
  | localVar binding declaration =>
    simp only [AssignmentFlow.declare]
    split
    · next hname =>
      subst hname
      split
      · next hpos =>
        subst hpos
        have hzero := hfresh (by simp [declaredKeys])
        refine ⟨by simp, fun hst p hp hof => ?_, by simp [hzero, isOf]⟩
        rcases mem_cons.mp hp with rfl | hp
        · exact hst
        · exact absurd hof (countP_eq_zero.mp hzero p hp)
      · next hpos => exact LocalRel.push h (by simp [isOf, hpos]) (by simp [hpos])
    · next hname => exact LocalRel.push_of_ne h hname

theorem Rel.hide (name : String) (h : Rel b st s) :
    Rel b (hide b name st) { s with locals := (name, ⟨none, true⟩) :: s.locals } := by
  cases b with
  | field => exact h
  | localVar binding declaration =>
    simp only [AssignmentFlow.hide]
    split
    · next hname =>
      subst hname
      exact LocalRel.push h (by simp [isOf]) (by simp)
    · next hname => exact LocalRel.push_of_ne h hname

/-- the innermost local of the name is the one that an assignment writes -/
theorem mem_assigned (hp : p ∈ assigned name l)
    (hl : (l.lookup name).map (·.declaration) = some (some declaration)) (honce : l.countP (isOf name declaration) ≤ 1)
    (hof : isOf name declaration p = true) : p.2.assigned = true := by
  induction l with
  | nil => cases hp
  | cons q l ih =>
    obtain ⟨n, slot⟩ := q
    rw [assigned] at hp
    by_cases hn : n = name
    · subst hn
      have hslot : slot.declaration = some declaration := by simpa using hl
      have hzero : l.countP (isOf n declaration) = 0 := by
        rw [countP_cons_of_pos (by simp [isOf, hslot])] at honce
        omega
      rw [if_pos rfl] at hp
      rcases mem_cons.mp hp with rfl | hp
      · rfl
      · exact absurd hof (countP_eq_zero.mp hzero p hp)
    · have hne : (name == n) = false := beq_false_of_ne (Ne.symm hn)
      have hnot : isOf name declaration (n, slot) = false := by simp [isOf, hn]
      rw [if_neg hn] at hp
      rw [countP_cons_of_neg (by simp [hnot])] at honce
      rcases mem_cons.mp hp with rfl | hp
      · rw [hnot] at hof
        cases hof
      · exact ih hp (by simpa only [lookup_cons, hne] using hl) honce

end Rel

section Expressions

variable {A : Event → Prop} {b : Binding} {st st' : State} {α : Type} {c : Run α}

/-- how an expression can be left -/
def Abrupt : Leave → Prop
  | .threw | .closed | .cut => True
  | .brk | .cont | .ret => False

variable {E : Leave → Store → Prop} {P : Store → Prop}

theorem mayStop_triple (hE : ∀ k s, Abrupt k → P s → E k s) :
    Triple A (Safe b) P mayStop (fun _ => P) E := by
  refine .choose fun stop => ?_
  rcases stop with _ | _ | _
  · exact .ret fun _ => id
  · exact .leave fun s hs => hE .cut s trivial hs
  · exact .leave fun s hs => hE .threw s trivial hs

theorem anyBool_triple : Triple A (Safe b) P anyBool (fun _ => P) E :=
  .choose fun _ => .ret fun _ => id

variable {names : List String} {G : Event → Prop} {Q : α → Store → Prop}

/-- what was true of the store stays true -/
theorem Steady.keep (hm : Steady names c) (hP : ∀ {s s'}, Aged s s' → P s → P s') (h : Triple A G P c Q E) :
    Triple A G P c (fun a s => P s ∧ Q a s) fun k s => P s ∧ E k s := by
  refine .moving hm fun s₀ hs => ?_
  refine .conseq h (fun s hs' => hs' ▸ hs) (fun a s hQ ha => ⟨hP ha hs, hQ⟩) fun k s hE ha => ⟨hP ha hs, hE⟩

theorem Rel.keep (hm : Steady names c) (h : Triple A G (Rel b st) c Q E) :
    Triple A G (Rel b st) c (fun a s => Rel b st s ∧ Q a s) E :=
  .weaken (hm.keep (fun ha hr => hr.aged ha) h) (fun _ _ => id) fun _ _ hE => hE.2

variable {name : String}

theorem lookup_mem {slot : Slot} {l : Scope String Slot} (h : l.lookup name = some slot) : (name, slot) ∈ l := by
  induction l with
  | nil => cases h
  | cons p l ih =>
    obtain ⟨n, slot'⟩ := p
    by_cases hn : name = n
    · subst hn
      obtain rfl : slot' = slot := by simpa using h
      exact mem_cons_self
    · have hne : (name == n) = false := beq_false_of_ne hn
      exact mem_cons_of_mem _ (ih (by simpa only [lookup_cons, hne] using h))

/-- a read that the analysis finds to be held is of a local with a value -/
theorem readLocal_triple {ty : Ty} {pos : Pos} {args : List Expr} {body : List Stmt}
    (hread : Checked b (if target b st (.mk (.localVar name) ty pos args body) then [(pos, st.held)] else [])) :
    Triple A (Safe b) (Rel b st) (readLocal name) (fun _ => Rel b st) fun k _ => Abrupt k := by
  refine .of_start fun s₀ hs => ?_
  refine .bind (Q := fun s s' => s = s₀ ∧ s' = s₀) (.get fun s h => ⟨h, h⟩) fun s => ?_
  refine .of_start fun s' h => ?_
  obtain ⟨rfl, rfl⟩ := h
  split
  · next declaration hlookup =>
    refine .emit fun s h _ => ⟨?_, h ▸ hs⟩
    cases b with
    | field => trivial
    | localVar binding pos' =>
      rintro ⟨rfl, rfl⟩
      -- the name means the binding here, so that this read is reported
      have hactive : st.active = true := hs.active.mpr (by rw [hlookup]; rfl)
      have hheld : st.held = true := by simpa [Checked, target, hactive] using hread
      have := hs.held hheld _ (lookup_mem hlookup) (by simp [isOf])
      cases this
  · exact .ret fun s h => h ▸ hs

/-- an assignment of the binding -/
theorem write_triple {e : Expr} (ht : target b st e = true) :
    Triple A (Safe b) (fun s => Rel b st s ∧ Rel b st' s) (write e) (fun _ => Rel b { st' with held := true }) E := by
  obtain ⟨op, ty, pos, args, body⟩ := e
  unfold target at ht
  dsimp only at ht
  split at ht
  · obtain rfl := eq_of_beq ht
    exact .modify fun s _ _ => mem_cons_self
  · obtain ⟨hactive, hname⟩ := Bool.and_eq_true_iff.1 ht
    obtain rfl := eq_of_beq hname
    refine .modify fun s hs => ?_
    obtain ⟨hrel, hrel'⟩ := hs
    have haged (name : String) : Aged s { s with locals := assigned name s.locals } :=
      ⟨older_assigned _ _, List.Subset.refl _⟩
    refine ⟨(hrel'.aged (haged _)).active, fun _ p hp hof => ?_, (hrel'.aged (haged _)).once⟩
    exact mem_assigned hp (hrel.active.mp hactive) hrel.once hof
  · cases ht

theorem Steady.rel (hm : Steady names c)
    (h : Triple A G (Rel b st) c (fun _ _ => True) E) : Triple A G (Rel b st) c (fun _ => Rel b st) E :=
  .post (Rel.keep hm h) (fun _ _ h => h.1)

theorem write_keeps (e : Expr) : Triple A (Safe b) (Rel b st) (write e) (fun _ => Rel b st) E := by
  have hsteady : Steady [] (write e) := steady_write e
  refine hsteady.rel ?_
  fun_cases write e
  · exact .modify fun _ _ => trivial
  · exact .modify fun _ _ => trivial
  · exact .ret fun _ _ => trivial

/-- nothing is read of a target that is the binding -/
theorem evalAs_target {e : Expr} (ht : target b st e = true)
    (hfield : ∀ field, b = .field field → Triple A (Safe b) (Rel b st) (evalAs true e) (fun _ _ => True) fun k _ => Abrupt k) :
    Triple A (Safe b) (Rel b st) (evalAs true e) (fun _ => Rel b st) fun k _ => Abrupt k := by
  cases b with
  | field field => exact Steady.rel (steady_evalAs true e) (hfield field rfl)
  | localVar binding declaration =>
    obtain ⟨op, ty, pos, args, body⟩ := e
    cases op <;> simp [target] at ht
    exact .bind (mayStop_triple fun _ _ hk _ => hk) fun _ => .ret fun _ => id

mutual

theorem evalAs_sound (place : Bool) : ∀ (e : Expr) (st : State), Checked b (expression b e st).1 →
    Triple A (Safe b) (Rel b st) (evalAs place e) (fun _ => Rel b (expression b e st).2) fun k _ => Abrupt k
  | .mk op ty pos args body, st, hread => by
    unfold evalAs
    refine .bind (mayStop_triple fun _ _ hk _ => hk) fun _ => ?_
    split
    · next name =>
      unfold expression at hread ⊢
      split
      · exact .ret fun _ => id
      · exact readLocal_triple hread
    · next op left value =>
      simp only [expression, checked_append, and_assoc] at hread ⊢
      by_cases ht : target b st left = true ∧ op = none
      · obtain ⟨ht, rfl⟩ := ht
        simp only [ht] at hread ⊢
        refine .bind (evalAs_target ht fun field hb => ?_) fun _ => ?_
        · refine .post (evalAs_sound true left st ?_) (fun _ _ _ => trivial)
          rw [hb]
          trivial
        · refine .bind (Rel.keep (steady_evalAs false value) (evalAs_sound false value st hread.2.2)) fun _ => ?_
          exact .bind (mayStop_triple fun _ _ hk _ => hk) fun _ => write_triple ht
      · have hreads : (!target b st left || op.isSome) = true := by
          cases op <;> simp_all
        have hwrites : (target b st left && op.isNone) = false := by
          cases op <;> simp_all
        rw [hreads, if_pos rfl] at hread
        rw [hreads, hwrites, if_pos rfl]
        refine .bind (evalAs_sound _ left st hread.2.1) fun _ => ?_
        refine .bind (evalAs_sound false value _ hread.2.2) fun _ => ?_
        exact .bind (mayStop_triple fun _ _ hk _ => hk) fun _ => write_keeps left
    · next left right =>
      simp only [expression, checked_append, and_assoc] at hread ⊢
      refine .bind (evalAs_sound false left st hread.2.1) fun _ => ?_
      refine .bind anyBool_triple fun taken => ?_
      split
      · refine .post (Rel.keep (steady_evalAs false right) (evalAs_sound false right _ hread.2.2)) (fun _ s h => ?_)
        exact h.1.held_of h.1 fun hheld => (Bool.and_eq_true _ _ ▸ hheld).1
      · exact .ret fun s h => h.held_of h fun hheld => (Bool.and_eq_true _ _ ▸ hheld).1
    · next left right =>
      simp only [expression, checked_append, and_assoc] at hread ⊢
      refine .bind (evalAs_sound false left st hread.2.1) fun _ => ?_
      refine .bind anyBool_triple fun taken => ?_
      split
      · refine .post (Rel.keep (steady_evalAs false right) (evalAs_sound false right _ hread.2.2)) (fun _ s h => ?_)
        exact h.1.held_of h.1 fun hheld => (Bool.and_eq_true _ _ ▸ hheld).1
      · exact .ret fun s h => h.held_of h fun hheld => (Bool.and_eq_true _ _ ▸ hheld).1
    · next cond then_ els =>
      simp only [expression, checked_append, and_assoc] at hread ⊢
      refine .bind (evalAs_sound false cond st hread.2.1) fun _ => ?_
      refine .bind anyBool_triple fun taken => ?_
      split
      · refine .post (Rel.keep (steady_evalAs false then_) (evalAs_sound false then_ _ hread.2.2.1)) (fun _ s h => ?_)
        exact h.1.held_of h.2 fun hheld => (Bool.and_eq_true _ _ ▸ hheld).1
      · refine .post (Rel.keep (steady_evalAs false els) (evalAs_sound false els _ hread.2.2.2)) (fun _ s h => ?_)
        exact h.1.held_of h.2 fun hheld => (Bool.and_eq_true _ _ ▸ hheld).2
    · unfold expression
      exact .ret fun _ => id
    · unfold expression at hread ⊢
      simp only [checked_append] at hread ⊢
      refine .bind (evalAll_sound args st hread.2) fun _ => ?_
      refine .choose fun close => ?_
      split
      · exact .leave fun _ _ => trivial
      · exact .ret fun _ => id
    · rw [expression] at hread ⊢ <;> try assumption
      rw [checked_append] at hread
      exact .bind (evalAll_sound args st hread.2) fun _ => mayStop_triple fun _ _ hk _ => hk

theorem evalAll_sound : ∀ (es : List Expr) (st : State), Checked b (expressions b es st).1 →
    Triple A (Safe b) (Rel b st) (evalAll es) (fun _ => Rel b (expressions b es st).2) fun k _ => Abrupt k
  | [], st, _ => .ret fun _ => id
  | e :: es, st, hread => by
    rw [expressions] at hread ⊢
    simp only [checked_append] at hread
    exact .bind (evalAs_sound false e st hread.1) fun _ => evalAll_sound es _ hread.2

end

end Expressions

end Subscript.Check.AssignmentFlow
