import Subscript.Hir.CountedLoops

/-! What the analysis of `trap_sites.rs` knows at a place of the program, and the rules by which a run keeps it:
the locals with facts are unchanged and every access without a check stays in its array. -/

namespace Subscript.Hir

open Flow Run

/-- what is assumed of a run: no integer wraps in an index or a loop header, none at all inside of one -/
def Assumed (quiet : Bool) : Event → Prop
  | .wrapped decisive => decisive = false ∧ quiet = false
  | .access _ _ => True

def InBounds : Event → Prop
  | .access index len => 0 ≤ index ∧ index < len
  | .wrapped _ => True

def Ranges.Hold (ranges : Ranges) (env : Env) : Prop :=
  ∀ name range, ranges name = some range → ∃ n, env.lookup name = some (.int n) ∧ range.Holds n

theorem Ranges.Hold.anti {ranges more : Ranges} {env : Env} (h : more.Hold env) (hle : ranges.Le more) :
    ranges.Hold env :=
  fun name range hr => h name range (hle name range hr)

theorem Ranges.Hold.remove {ranges : Ranges} {env : Env} (h : ranges.Hold env) (name : String) (v : Val) :
    (ranges.remove name).Hold ((name, v) :: env) := by
  intro n range hr
  have hne : n ≠ name := by
    rintro rfl
    rw [ranges.remove_self] at hr
    cases hr
  obtain ⟨value, hvalue, hin⟩ := h n range (ranges.remove_le name n range hr)
  have hbeq : (n == name) = false := beq_false_of_ne hne
  exact ⟨value, by simp [List.lookup_cons, hbeq, hvalue], hin⟩

/-- the facts of the analysis at a place of the program: about locals that nothing there assigns -/
structure Known where
  ranges : Ranges
  kept : String → Prop
  start : Env
  tracked : ∀ name range, ranges name = some range → kept name
  holds : ranges.Hold start

namespace Known

/-- nothing is known at the start of a function or a lambda -/
def nothing (start : Env) : Known where
  ranges := .empty
  kept := fun _ => False
  start := start
  tracked := by
    intro _ _ h
    cases h
  holds := by
    intro _ _ h
    cases h

variable (K : Known)

/-- the locals of the start, those with facts unchanged -/
def At (env : Env) : Prop := Scope.Same K.kept K.start env

theorem hold_of_at {K : Known} {env : Env} (h : K.At env) : K.ranges.Hold env := by
  intro name range hr
  obtain ⟨n, hn, hin⟩ := K.holds name range hr
  exact ⟨n, (h.lookup_eq (K.tracked name range hr)).trans hn, hin⟩

/-- with fewer facts, from a later state -/
def later {ranges : Ranges} (hle : ranges.Le K.ranges) {env : Env} (hold : ranges.Hold env) : Known where
  ranges := ranges
  kept := K.kept
  start := env
  tracked := fun name range hr => K.tracked name range (hle name range hr)
  holds := hold

/-- the same facts, from a later state -/
def move {env : Env} (h : K.At env) : Known := K.later (.refl K.ranges) (hold_of_at h)

/-- with one more local that is kept from now on -/
def keep (name : String) : Known :=
  { K with
    kept := fun n => n = name ∨ K.kept n
    tracked := fun n range hr => .inr (K.tracked n range hr) }

/-- with the range of one more counter, which is kept from now on -/
def count {name : String} {range : Interval} {env : Env}
    (hold : (K.ranges.insert name range).Hold env) : Known where
  ranges := K.ranges.insert name range
  kept := fun n => n = name ∨ K.kept n
  start := env
  tracked := by
    intro n r hr
    by_cases hn : n = name
    · exact .inl hn
    · exact .inr (K.tracked n r (by rwa [Ranges.insert_of_ne hn] at hr))
  holds := hold

/-- runs that keep the locals, stay in the arrays and give a value of `Q` -/
def Keeps (quiet : Bool) {α : Type} (c : Run α) (Q : α → Prop) : Prop :=
  Triple (Assumed quiet) InBounds K.At c (fun a env => K.At env ∧ Q a) fun _ env => K.At env

/-- runs that declare locals too, after which `ranges` are the facts -/
def Steps (quiet : Bool) (c : Run Unit) (ranges : Ranges) : Prop :=
  Triple (Assumed quiet) InBounds K.At c (fun _ env => Scope.Kept K.kept K.start env ∧ ranges.Hold env)
    fun _ env => Scope.Kept K.kept K.start env

/-- runs that declare locals too, whatever is known after them -/
def Moves (quiet : Bool) (c : Run Unit) : Prop :=
  Triple (Assumed quiet) InBounds K.At c (fun _ env => Scope.Kept K.kept K.start env)
    fun _ env => Scope.Kept K.kept K.start env

/-- runs that stay in the arrays -/
def Safe (quiet : Bool) {α : Type} (c : Run α) : Prop :=
  Triple (Assumed quiet) InBounds K.At c (fun _ _ => True) fun _ _ => True

end Known

section Rules

variable {K : Known} {quiet : Bool} {α β : Type} {c : Run α} {Q Q' : α → Prop} {R : β → Prop}

/-- inside of an index or a header no wrapping at all is assumed -/
theorem triple_decisive {P : Env → Prop} {Q : α → Env → Prop} {E : Leave → Env → Prop}
    (h : Triple (Assumed true) InBounds P c Q E) : Triple (Assumed quiet) InBounds P (decisive c) Q E := by
  apply Triple.mapEvents
  intro s s' r t hs hrun hA
  obtain ⟨hG, hpost⟩ := h hs hrun fun e he => by
    have := hA e he
    cases e with
    | access index len => trivial
    | wrapped d => cases this.1
  refine ⟨fun e he => ?_, hpost⟩
  have := hG e he
  cases e with
  | access index len => exact this
  | wrapped d => trivial

namespace Known.Keeps

theorem ret {a : α} (h : Q a) : K.Keeps quiet (pure a) Q := Triple.ret fun _ hs => ⟨hs, h⟩

theorem leave {k : Leave} : K.Keeps quiet (Comp.leave k) Q := Triple.leave fun _ hs => hs

theorem bind {f : α → Run β} (hc : K.Keeps quiet c Q) (hf : ∀ a, Q a → K.Keeps quiet (f a) R) :
    K.Keeps quiet (c >>= f) R := by
  refine Triple.bind hc fun a => ?_
  rintro s s' r t ⟨hs, ha⟩ hrun hA
  exact hf a ha hs hrun hA

/-- followed by what does not keep the locals -/
theorem followed {f : α → Run β} {P : β → Env → Prop} {E : Leave → Env → Prop} (hc : K.Keeps quiet c Q)
    (hE : ∀ k env, K.At env → E k env) (hf : ∀ a, Q a → Triple (Assumed quiet) InBounds K.At (f a) P E) :
    Triple (Assumed quiet) InBounds K.At (c >>= f) P E := by
  refine Triple.bind (Triple.weaken hc (fun _ _ hs => hs) hE) fun a => ?_
  rintro s s' r t ⟨hs, ha⟩ hrun hA
  exact hf a ha hs hrun hA

theorem weaken (h : K.Keeps quiet c Q) (hQ : ∀ a, Q a → Q' a) : K.Keeps quiet c Q' :=
  Triple.post h (fun a _ ha => ⟨ha.1, hQ a ha.2⟩)

theorem choose {ι : Type} {f : ι → Run α} (h : ∀ i, K.Keeps quiet (f i) Q) : K.Keeps quiet (Comp.choose f) Q :=
  Triple.choose h

theorem loop {c : Run Bool} (h : K.Keeps quiet c fun _ => True) : K.Keeps quiet (Comp.loop c) fun _ => True := by
  apply Triple.loop
  refine Triple.post h (fun b s hs => ?_)
  cases b with
  | false => exact hs
  | true => exact hs.1

theorem decisive (h : K.Keeps true c Q) : K.Keeps quiet (decisive c) Q := triple_decisive h

theorem anyValue : K.Keeps quiet anyValue fun _ => True := choose fun _ => ret trivial

theorem anyBool : K.Keeps quiet anyBool fun _ => True := choose fun _ => ret trivial

theorem mayStop : K.Keeps quiet mayStop fun _ => True := by
  apply choose
  rintro (_ | _ | _)
  · exact ret trivial
  · exact leave
  · exact leave

theorem truth (v : Val) : K.Keeps quiet (truth v) fun b => ∀ b', v = .bool b' → b = b' := by
  cases v with
  | bool b => exact ret fun _ h => Val.bool.inj h
  | int n => exact anyBool.weaken fun _ _ _ h => nomatch h
  | opaqueValue => exact anyBool.weaken fun _ _ _ h => nomatch h

theorem readLocal (name : String) :
    K.Keeps quiet (readLocal name) fun v => ∀ w, K.kept name → K.start.lookup name = some w → v = w := by
  have hget : Triple (Assumed quiet) InBounds K.At (Comp.get : Run Env) (fun env s => K.At s ∧ K.At env)
      fun _ => K.At := Triple.get fun s hs => ⟨hs, hs⟩
  refine bind hget fun env henv => ?_
  have heq : K.kept name → env.lookup name = K.start.lookup name := henv.lookup_eq
  cases hv : env.lookup name with
  | some v =>
    refine ret fun w hk hw => ?_
    rw [← heq hk, hv] at hw
    exact Option.some.inj hw
  | none =>
    refine anyValue.weaken fun v _ w hk hw => ?_
    rw [← heq hk, hv] at hw
    cases hw

theorem writeLocal {name : String} (hname : ¬ K.kept name) (v : Val) : K.Keeps quiet (writeLocal name v) fun _ => True :=
  Triple.modify fun _ hs => ⟨hs.trans (.assign v hname), trivial⟩

theorem wrapped (ty : Ty) (n : Int) : K.Keeps quiet (wrapped ty n) fun v => quiet = true → v = .int n := by
  rw [Run.wrapped]
  split
  · exact ret fun _ => rfl
  · -- a run without wrapping has no event here
    have hemit : K.Keeps quiet (Comp.emit (.wrapped false)) fun _ => quiet = false :=
      Triple.emit fun _ hs hA => ⟨trivial, hs, hA.2⟩
    refine bind hemit fun _ hquiet => ret fun h => ?_
    rw [hquiet] at h
    cases h

theorem cast (ty : Ty) (v : Val) : K.Keeps quiet (cast ty v) fun w => ∀ n, v = .int n → w = .int (ty.wrap n) := by
  cases v with
  | int n =>
    apply ret
    intro m hm
    rw [Val.int.inj hm]
  | bool b => exact anyValue.weaken fun _ _ _ h => nomatch h
  | opaqueValue => exact anyValue.weaken fun _ _ _ h => nomatch h

theorem length (ty : Ty) :
    K.Keeps quiet (length ty) fun v => ∀ element len, ty = .fixedArray element len → v = .int len := by
  unfold Run.length
  split
  · apply ret
    rintro _ _ h
    cases h
    rfl
  · next hty => exact anyValue.weaken fun _ _ element len h => absurd h (hty element len)

theorem access {checked : Bool} {ty : Ty} {v : Val}
    (h : ∀ element len n, checked = false → ty = .fixedArray element len → v = .int n → 0 ≤ n ∧ n < len) :
    K.Keeps quiet (access checked ty v) fun _ => True := by
  unfold Run.access
  split
  · exact Triple.emit fun _ hs _ => ⟨h _ _ _ rfl rfl rfl, hs, trivial⟩
  · exact ret trivial

/-- what the operator gives of two integers -/
theorem binary (op : BinOp) (ty : Ty) (a b : Val) :
    K.Keeps quiet (binary op ty a b) fun v => ∀ x y, a = .int x → b = .int y →
      (quiet = true → (op = .add → v = .int (x + y)) ∧ (op = .sub → v = .int (x - y)) ∧
        (op = .mul → v = .int (x * y))) ∧
      (op = .lt → v = .bool (x < y)) ∧ (op = .le → v = .bool (x ≤ y)) := by
  unfold Run.binary
  split
  · refine (wrapped ty _).weaken ?_
    rintro v hv x y ⟨⟩ ⟨⟩
    simpa using hv
  · refine (wrapped ty _).weaken ?_
    rintro v hv x y ⟨⟩ ⟨⟩
    simpa using hv
  · refine (wrapped ty _).weaken ?_
    rintro v hv x y ⟨⟩ ⟨⟩
    simpa using hv
  · apply ret
    rintro x y ⟨⟩ ⟨⟩
    simp
  · apply ret
    rintro x y ⟨⟩ ⟨⟩
    simp
  · next hadd hsub hmul hlt hle =>
    refine anyValue.weaken ?_
    rintro v - x y rfl rfl
    refine ⟨fun _ => ⟨?_, ?_, ?_⟩, ?_, ?_⟩
    · exact fun hop => absurd rfl (hadd x y hop · rfl)
    · exact fun hop => absurd rfl (hsub x y hop · rfl)
    · exact fun hop => absurd rfl (hmul x y hop · rfl)
    · exact fun hop => absurd rfl (hlt x y hop · rfl)
    · exact fun hop => absurd rfl (hle x y hop · rfl)

theorem assigned (op : Option BinOp) (ty : Ty) (old v : Val) :
    K.Keeps quiet (assigned op ty old v) fun new => quiet = true → op = some .add → ∀ x y, old = .int x → v = .int y →
      new = .int (x + y) := by
  cases op with
  | some op =>
    refine (binary op ty old v).weaken fun new hnew hq hop x y hx hy => ?_
    exact ((hnew x y hx hy).1 hq).1 (Option.some.inj hop)
  | none => exact ret fun _ hop => nomatch hop

theorem after {f : Result Leave α → Run β} (hc : K.Keeps quiet c Q) (hf : ∀ r, K.Keeps quiet (f r) R) :
    K.Keeps quiet (Comp.after c f) R := by
  refine Triple.after hc fun r => Triple.conseq (hf r) (fun s hs => ?_) (fun _ _ h => h) fun _ _ h => h
  cases r with
  | done a => exact hs.1
  | left k => exact hs

theorem safe (h : K.Keeps quiet c Q) : K.Safe quiet c :=
  Triple.weaken h (fun _ _ _ => trivial) fun _ _ _ => trivial

theorem apart (h : ∀ start, (Known.nothing start).Safe quiet c) : K.Keeps quiet (Comp.apart c) fun _ => True := by
  refine Triple.apart (Triple.of_start fun s₀ _ => ?_) fun s hs => ⟨hs, trivial⟩
  refine Triple.conseq (h s₀) ?_ (fun _ _ _ => trivial) fun _ _ _ => trivial
  rintro _ rfl
  exact .refl _

/-- what a scope declares is gone at its end -/
theorem inScope {c : Run Unit} (h : ∀ env (hat : K.At env), (K.move hat).Moves quiet c) :
    K.Keeps quiet (inScope c) fun _ => True := by
  apply Triple.within
  intro env hat
  refine Triple.conseq (h env hat) ?_ (fun _ s hs => ⟨hat.trans hs.leave_same, trivial⟩) fun _ s hs =>
    hat.trans hs.leave_same
  rintro _ rfl
  exact .refl _

theorem loopBody {c : Run Unit} (h : ∀ env (hat : K.At env), (K.move hat).Moves quiet c) :
    K.Keeps quiet (loopBody c) fun _ => True := by
  refine after (inScope h) fun r => ?_
  match r with
  | .done () => exact ret trivial
  | .left .cont => exact ret trivial
  | .left .brk => exact ret trivial
  | .left .ret => exact leave
  | .left .threw => exact leave
  | .left .cut => exact leave

theorem switchBody {c : Run Unit} (h : K.Keeps quiet c fun _ => True) :
    K.Keeps quiet (switchBody c) fun _ => True := by
  refine after h fun r => ?_
  match r with
  | .done () => exact ret trivial
  | .left .brk => exact ret trivial
  | .left .cont => exact leave
  | .left .ret => exact leave
  | .left .threw => exact leave
  | .left .cut => exact leave

theorem catching {c handler : Run Unit} (h : K.Keeps quiet c fun _ => True)
    (hhandler : K.Keeps quiet handler fun _ => True) : K.Keeps quiet (catching c handler) fun _ => True := by
  refine after h fun r => ?_
  match r with
  | .done () => exact ret trivial
  | .left .threw => exact hhandler
  | .left .brk => exact leave
  | .left .cont => exact leave
  | .left .ret => exact leave
  | .left .cut => exact leave

theorem finally_ {c finalizer : Run Unit} (h : K.Keeps quiet c fun _ => True)
    (hfinalizer : K.Keeps quiet finalizer fun _ => True) : K.Keeps quiet (finally_ c finalizer) fun _ => True := by
  refine after h fun r => ?_
  match r with
  | .done () => exact hfinalizer
  | .left .cut => exact leave
  | .left .threw => exact bind hfinalizer fun _ _ => leave
  | .left .brk => exact bind hfinalizer fun _ _ => leave
  | .left .cont => exact bind hfinalizer fun _ _ => leave
  | .left .ret => exact bind hfinalizer fun _ _ => leave

theorem moves {c : Run Unit} (h : K.Keeps quiet c fun _ => True) : K.Moves quiet c :=
  Triple.weaken h (fun _ _ hs => .of_same hs.1) fun _ _ hs => .of_same hs

theorem steps {c : Run Unit} {ranges : Ranges} (h : K.Keeps quiet c fun _ => True) (hle : ranges.Le K.ranges) :
    K.Steps quiet c ranges :=
  Triple.weaken h (fun _ _ hs => ⟨.of_same hs.1, (hold_of_at hs.1).anti hle⟩) fun _ _ hs =>
    .of_same hs

end Known.Keeps

namespace Known.Steps

theorem safe {c : Run Unit} {ranges : Ranges} (h : K.Steps quiet c ranges) : K.Safe quiet c :=
  Triple.weaken h (fun _ _ _ => trivial) fun _ _ _ => trivial

theorem moves {c : Run Unit} {ranges : Ranges} (h : K.Steps quiet c ranges) : K.Moves quiet c :=
  Triple.post h (fun _ _ hs => hs.1)

theorem bind {c rest : Run Unit} {ranges ranges' : Ranges} (hc : K.Steps quiet c ranges) (hle : ranges.Le K.ranges)
    (hrest : ∀ env (hold : ranges.Hold env), (K.later hle hold).Steps quiet rest ranges') :
    K.Steps quiet (do c; rest) ranges' := by
  refine Triple.bind hc fun _ => Triple.of_start ?_
  rintro env ⟨hkept, hold⟩
  refine Triple.conseq (hrest env hold) ?_ (fun _ _ hs => ⟨hkept.trans hs.1, hs.2⟩) fun _ _ hs => hkept.trans hs
  rintro _ rfl
  exact .refl _

theorem bind_moves {c rest : Run Unit} {ranges : Ranges} (hc : K.Steps quiet c ranges) (hle : ranges.Le K.ranges)
    (hrest : ∀ env (hold : ranges.Hold env), (K.later hle hold).Moves quiet rest) : K.Moves quiet (do c; rest) := by
  refine Triple.bind hc fun _ => Triple.of_start ?_
  rintro env ⟨hkept, hold⟩
  refine Triple.conseq (hrest env hold) ?_ (fun _ _ hs => hkept.trans hs) fun _ _ hs => hkept.trans hs
  rintro _ rfl
  exact .refl _

theorem declare {c : Run Val} {Q : Val → Prop} (h : K.Keeps quiet c Q) (name : String) :
    K.Steps quiet (do let v ← c; declare name v) (K.ranges.remove name) := by
  refine Triple.bind (Triple.weaken h (fun _ _ hs => hs) fun _ _ hs => .of_same hs) fun v => ?_
  exact Triple.modify fun env hs => ⟨(Scope.Kept.of_same hs.1).push _, (hold_of_at hs.1).remove name v⟩

end Known.Steps

end Rules

end Subscript.Hir
