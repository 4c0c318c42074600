import Subscript.Check.AssignmentSound

/-! No run of a body that passes the checks reads a local before it is assigned, and a field that is reported as assigned
on every normal exit is assigned there, if the switches that are exhaustive over an enum get members of it. -/

namespace Subscript.Check.AssignmentFlow

open List Flow Hir Hir.Assign Hir.Assign.Run

/-! ### The selected statements -/

/-- a root statement that matters for the local -/
def selects (name : String) (s : Stmt) : Bool := (stmtExits s).any || decide (name ∈ stmtNames s)

variable {k : Nat} {own exits : List Nat}

theorem merge_cons_left (h : ∀ i ∈ exits, k < i) : merge (k :: own) exits = k :: merge own exits := by
  cases exits with
  | nil => rfl
  | cons i exits =>
    rw [merge, mergeInto, if_pos (h i mem_cons_self)]

theorem merge_cons_right (h : ∀ i ∈ own, k < i) : merge own (k :: exits) = k :: merge own exits := by
  cases own with
  | nil => rfl
  | cons i own =>
    have hnot : ¬ i < k := Nat.not_lt.mpr (h i mem_cons_self).le
    rw [merge, mergeInto, if_neg hnot]
    rfl

variable {α : Type} {l : List α}

theorem lt_of_mem_zipIdx {r : α × Nat → Bool} {i : Nat}
    (h : i ∈ ((l.zipIdx (k + 1)).filter r).map (·.2)) : k < i := by
  obtain ⟨x, hx, rfl⟩ := mem_map.mp h
  exact le_snd_of_mem_zipIdx (mem_filter.mp hx).1

theorem merge_filter (p q : α → Bool) (hpq : ∀ a, q a = true → p a = false) (l : List α) (k : Nat) :
    merge (((l.zipIdx k).filter fun x => p x.1).map (·.2)) (((l.zipIdx k).filter fun x => q x.1).map (·.2)) =
      ((l.zipIdx k).filter fun x => q x.1 || p x.1).map (·.2) := by
  induction l generalizing k with
  | nil => rfl
  | cons a l ih =>
    rw [zipIdx_cons]
    by_cases hq : q a = true
    · simp only [filter_cons, hpq a hq, hq, Bool.false_eq_true, if_false, if_true, Bool.true_or, map_cons]
      rw [merge_cons_right fun i => lt_of_mem_zipIdx, ih]
    · by_cases hp : p a = true
      · simp only [filter_cons, hq, hp, Bool.false_eq_true, if_false, if_true, Bool.or_true, map_cons]
        rw [merge_cons_left fun i => lt_of_mem_zipIdx, ih]
      · simp only [filter_cons, hq, hp, Bool.false_eq_true, if_false, Bool.or_self]
        exact ih (k + 1)

theorem add_fold (name : String) (l : List (Stmt × Nat)) (index : LocalStatements) :
    (l.foldl .add index).names name = index.names name ++
        (l.filter fun x => !(stmtExits x.1).any && decide (name ∈ stmtNames x.1)).map (·.2) ∧
      (l.foldl .add index).exits = index.exits ++ (l.filter fun x => (stmtExits x.1).any).map (·.2) := by
  induction l generalizing index with
  | nil => simp
  | cons x l ih =>
    rw [foldl_cons]
    obtain ⟨hnames, hexits⟩ := ih (index.add x)
    rw [hnames, hexits]
    unfold LocalStatements.add
    by_cases hexit : (stmtExits x.1).any = true
    · simp [hexit]
    · by_cases hname : name ∈ stmtNames x.1
      · simp [hexit, hname]
      · simp [hexit, hname]

/-- the index finds the statements that matter, in their order -/
theorem selected_eq (body : List Stmt) (name : String) :
    ((LocalStatements.new body).forLocal name).filterMap (body[·]?) = body.filter (selects name) := by
  obtain ⟨hnames, hexits⟩ := add_fold name body.zipIdx ⟨fun _ => [], []⟩
  have hfor : (LocalStatements.new body).forLocal name = (body.zipIdx.filter fun x => selects name x.1).map (·.2) := by
    rw [LocalStatements.forLocal, LocalStatements.new, hnames, hexits, nil_append, nil_append]
    rw [merge_filter (fun s => !(stmtExits s).any && decide (name ∈ stmtNames s)) (fun s => (stmtExits s).any) (by simp_all)]
    congr 1
    refine filter_congr fun x _ => ?_
    cases hexit : (stmtExits x.1).any <;> simp [selects, hexit]
  have hget : ∀ x ∈ body.zipIdx.filter fun x => selects name x.1, body[x.2]? = some x.1 := fun x hx =>
    mem_zipIdx_iff_getElem?.mp (mem_filter.mp hx).1
  rw [hfor, filterMap_map]
  calc (body.zipIdx.filter fun x => selects name x.1).filterMap ((body[·]?) ∘ (·.2))
      = (body.zipIdx.filter fun x => selects name x.1).filterMap (fun x => some x.1) := filterMap_congr hget
    _ = (body.zipIdx.filter fun x => selects name x.1).map (·.1) := by rw [filterMap_eq_map']
    _ = (body.zipIdx.map (·.1)).filter (selects name) := by rw [filter_map]; rfl
    _ = body.filter (selects name) := by rw [zipIdx_map_fst]

/-! ### The diagnostics -/

theorem foldl_eq_nil {β : Type} {f : List β → α → List β} (hf : ∀ out a, f out a = [] → out = []) {out : List β}
    (h : l.foldl f out = []) : out = [] ∧ ∀ a ∈ l, f [] a = [] := by
  induction l generalizing out with
  | nil => exact ⟨h, by simp⟩
  | cons a l ih =>
    obtain ⟨hout, hl⟩ := ih h
    obtain rfl := hf out a hout
    exact ⟨rfl, forall_mem_cons.mpr ⟨hout, hl⟩⟩

variable {out : List (String × Pos)}

theorem report_eq_nil {name : String} {reads : Reads} (h : report name out reads = []) :
    out = [] ∧ ∀ r ∈ reads, r.2 = true := by
  obtain ⟨hout, hreads⟩ := foldl_eq_nil (fun out r hr => by split at hr <;> simp_all) h
  exact ⟨hout, fun r hr => by simpa using hreads r hr⟩

theorem bodyDiagnostics_eq_nil {m : Members} {body : List Stmt} (h : bodyDiagnostics m out body = []) :
    out = [] ∧ ∀ d ∈ declarations body, ∀ r ∈ localReads m body d.1 d.2, r.2 = true := by
  obtain ⟨hout, hdecl⟩ := foldl_eq_nil (fun out d hd => (report_eq_nil hd).1) h
  exact ⟨hout, fun d hd => (report_eq_nil (hdecl d hd)).2⟩

/-! ### Whole bodies -/

/-- the locals of a caller, parameters and captured variables, are no `let`s of the body -/
def Start (s : Store) : Prop := ∀ p ∈ s.locals, p.2.declaration = none

section Bodies

variable {m : Members} {name : String} {declaration : Pos} {b : Binding} {s s' : Store}

theorem Start.count (h : Start s) : s.locals.countP (isOf name declaration) = 0 := by
  refine countP_eq_zero.mpr fun p hp hof => ?_
  simp [isOf, h p hp] at hof

theorem Start.pre (h : Start s) (declared : List (String × Pos × Bool)) : Pre b (initial b) declared s := by
  cases b with
  | field => exact ⟨fun hheld => absurd hheld (by simp [initial]), trivial⟩
  | localVar name declaration =>
    refine ⟨⟨?_, fun hheld => absurd hheld (by simp [initial]), ?_⟩, fun _ => h.count⟩
    · simp only [initial, Bool.false_eq_true, false_iff]
      intro hl
      obtain ⟨slot, hslot, hdecl⟩ := Option.map_eq_some_iff.mp hl
      rw [h _ (lookup_mem hslot)] at hdecl
      cases hdecl
    · rw [h.count]
      exact Nat.zero_le 1

theorem lookup_append_of_notMem {pushed base : Scope String Slot} (h : ∀ p ∈ pushed, p.1 ≠ name) :
    (pushed ++ base).lookup name = base.lookup name := by
  induction pushed with
  | nil => rfl
  | cons p pushed ih =>
    obtain ⟨n, slot⟩ := p
    have hne : (name == n) = false := beq_false_of_ne (Ne.symm (h _ mem_cons_self))
    rw [cons_append, lookup_cons, hne]
    exact ih fun p hp => h p (mem_cons_of_mem _ hp)

/-- a statement that does not name the local leaves its state -/
theorem Rel.grown_other {st : State} {names : List String} {declared : List (String × Pos × Bool)}
    (h : Rel (.localVar name declaration) st s) (hg : Grown names declared s s') (hn : name ∉ names) :
    Rel (.localVar name declaration) st s' := by
  obtain ⟨pushed, base, heq, hsame, hpushed⟩ := hg.locals
  have hne : ∀ p ∈ pushed, p.1 ≠ name := fun p hp hpn => hn (hpn ▸ (hpushed p hp).1)
  have hbase : Rel (.localVar name declaration) st { s with locals := base } := h.aged ⟨hsame, List.Subset.refl _⟩
  have hnot : ∀ p ∈ pushed, ¬ isOf name declaration p = true := fun p hp hof => by
    simp only [isOf, Bool.and_eq_true, beq_iff_eq] at hof
    exact hne p hp hof.1
  refine ⟨?_, fun hst p hp hof => ?_, ?_⟩
  · rw [heq, lookup_append_of_notMem hne]
    exact hbase.active
  · rw [heq] at hp
    rcases mem_append.mp hp with hp | hp
    · exact absurd hof (hnot p hp)
    · exact hbase.held hst p hp hof
  · rw [heq, countP_append, countP_eq_zero.mpr hnot, Nat.zero_add]
    exact hbase.once

/-- the walk over the selected statements is as good as one over all -/
theorem execAll_selected (body : List Stmt) (st : State) (paths : List Exit) (hst : .next st ∈ paths)
    (hread : Checked (.localVar name declaration) (statements m (.localVar name declaration) (body.filter (selects name)) paths).1)
    (hloops : plainLoopsAll body = true) (hdist : Distinct (stmtsDeclared body)) :
    Triple (MemberOnly m) (Safe (.localVar name declaration)) (Pre (.localVar name declaration) st (stmtsDeclared body))
      (execAll body) (fun _ _ => True) fun _ _ => True := by
  induction body generalizing st paths with
  | nil => exact .post (mayStop_triple fun _ _ _ _ => trivial) (fun _ _ _ => trivial)
  | cons s ss ih =>
    rw [plainLoopsAll, Bool.and_eq_true] at hloops
    obtain ⟨hd, hds, hdisj⟩ := distinct_append.mp hdist
    by_cases hsel : selects name s = true
    · rw [filter_cons_of_pos hsel] at hread
      obtain ⟨hfirst, hreads⟩ := checked_first hst hread
      refine .bind (.weaken (exec_first [] hst hdisj (exec_sound s st hfirst hloops.1 hd)) (fun _ _ => id)
        fun _ _ _ => trivial) fun _ => ?_
      refine .exists_pre fun st' => .fact_pre fun hst' => ?_
      exact ih st' _ hst' hreads hloops.2 hds
    · rw [filter_cons_of_neg hsel] at hread
      have hname : name ∉ stmtNames s := fun hmem => hsel (by simp [selects, hmem])
      refine .bind ?_ fun _ => ih st paths hst hread hloops.2 hds
      intro s₀ s₁ r t hs₀ hrun _
      obtain ⟨hg, hnamed⟩ := tame_exec s hrun
      refine ⟨fun e he => ?_, ?_⟩
      · cases e with
        | dispatch => trivial
        | unassigned n d => exact fun heq => hname (heq.1 ▸ hnamed _ he)
      · cases r with
        | done => exact ⟨hs₀.rel.grown_other hg hname, (hs₀.fresh.subset (subset_append_right _ _)).grown hg hdisj⟩
        | left => trivial

/-- Runs whose exhaustive switches get members of their enum: no local without an initializer is read before it is
assigned, and a field that is assigned on every normal exit is so when the body ends or returns. -/
theorem assignments_precede_reads (m : Members) (f : Body) {s s' : Store} {r : Result Leave Unit} {t : List Event} (hs : Start s)
    (hmember : ∀ e ∈ t, MemberOnly m e) :
    (localDiagnostics m f.stmts = [] → ∀ body ∈ bodies f.stmts, execAll body s s' r t →
      ∀ d ∈ declarations body, .unassigned d.1 d.2 ∉ t) ∧
    (execAll f.stmts s s' r t → r = .done () ∨ r = .left .ret →
      ∀ field, fieldOnNormalExit m f.stmts field = true → field ∈ s'.fields) := by
  refine ⟨fun hpass body hbody hrun d hd hevent => ?_, fun hrun hr field hfield => ?_⟩
  · obtain ⟨-, hbodies⟩ := foldl_eq_nil (fun out body h => (bodyDiagnostics_eq_nil h).1) hpass
    have hread := (bodyDiagnostics_eq_nil (hbodies body hbody)).2 d hd
    rw [localReads, selected_eq] at hread
    have hsound := execAll_selected body _ _ (mem_singleton_self _) hread (f.loops body hbody) (f.distinct body hbody)
    exact (hsound (hs.pre _) hrun hmember).1 _ hevent ⟨rfl, rfl⟩
  · have hself : f.stmts ∈ bodies f.stmts := mem_cons_self
    have hsound : Covers m (.field field) _ (execAll f.stmts) _ := execAll_sound f.stmts (initial (.field field)) _
      (mem_singleton_self _) trivial (f.loops _ hself) (f.distinct _ hself)
    obtain ⟨-, hpost⟩ := hsound (hs.pre _) hrun hmember
    have hexits := all_eq_true.mp hfield
    rcases hr with rfl | rfl
    · obtain ⟨x, hx, -, hrel⟩ := hpost
      exact hrel (hexits x hx)
    · obtain ⟨x, hx, -, hrel⟩ := hpost.resolve_left id
      exact hrel (hexits x hx)

end Bodies

/-! ### A switch over an enum of two members -/

def at_ (line : Nat) : Pos := ⟨"main.ts", line, 1⟩

def leaf (op : Op) (ty : Ty) (line : Nat) : Expr := .mk op ty (at_ line) [] []

def setX (value : Int) (line : Nat) : Stmt :=
  .expr (.mk (.assign none) .i32 (at_ line) [leaf (.localVar "x") .i32 line, leaf (.int value) .i32 line] [])

def disc : Expr := leaf (.localVar "e") (.enum 0) 2

def arms : List SwitchCase :=
  [.mk (some (leaf (.enumMember 0) (.enum 0) 3)) [setX 1 3, .breakLoop],
    .mk (some (leaf (.enumMember 1) (.enum 0) 4)) [setX 2 4, .breakLoop]]

/-- `let x: i32; switch (e) { case E.A: x = 1; break; case E.B: x = 2; break; } return x;` -/
def enumSwitch : Body where
  stmts := [.letDecl "x" .i32 true (leaf .unassigned .i32 1) (at_ 1), .switch disc arms,
    .ret (some (leaf (.localVar "x") .i32 5))]
  loops := by decide
  distinct := by decide

def twoMembers : Members := ⟨fun _ => [0, 1], fun _ => 0⟩

/-- the parameter `e` -/
def caller : Store := ⟨[("e", ⟨none, true⟩)], []⟩

theorem enumSwitch_passes : localDiagnostics twoMembers enumSwitch.stmts = [] := by decide

section Runs

open Comp

theorem run_mayStop (s : Store) : mayStop s s (.done ()) [] := ⟨none, run_pure () s⟩

/-- an expression that reads nothing -/
theorem run_leaf {e : Expr} (s : Store) (h : eval e = (do mayStop; evalAll []; mayStop)) : eval e s s (.done ()) [] := by
  rw [h]
  exact run_silent (run_mayStop s) (run_silent (run_pure () s) (run_mayStop s))

theorem run_local {name : String} {ty : Ty} {line : Nat} {s : Store} {t : List Event} (h : readLocal name s s (.done ()) t) :
    eval (leaf (.localVar name) ty line) s s (.done ()) t := by
  exact run_silent (run_mayStop s) h

/-- the locals after the declaration -/
def localX (assigned : Bool) : Store := ⟨[("x", ⟨some (at_ 1), assigned⟩), ("e", ⟨none, true⟩)], []⟩

theorem run_declare : exec (.letDecl "x" .i32 true (leaf .unassigned .i32 1) (at_ 1)) caller (localX false) (.done ()) [] := by
  exact run_silent (run_leaf caller rfl) ⟨rfl, rfl, rfl⟩

/-- the value that the `switch` gets -/
theorem run_switch {value : Int} {s' : Store} {found : Option Nat}
    (htests : matchTest value arms 0 (localX false) (localX false) (.done found) [])
    (harms : (match found.or (defaultIndex arms) with
      | some i => switchBody (execFrom arms i)
      | none => if isAlias disc.ty then Comp.leave .cut else pure ()) (localX false) s' (.done ()) []) :
    exec (.switch disc arms) (localX false) s' (.done ()) [.dispatch disc arms value] := by
  have hemit : (emit (.dispatch disc arms value) : Run Unit) (localX false) (localX false) (.done ())
      [.dispatch disc arms value] := ⟨rfl, rfl, rfl⟩
  refine run_silent (run_local (run_silent ⟨rfl, rfl, rfl⟩ (run_pure () _))) (run_silent ⟨value, run_pure _ _⟩ ?_)
  exact run_bind hemit (run_silent htests harms)

/-- a value that is no member passes by both arms -/
theorem run_stranger : execAll enumSwitch.stmts caller (localX false) (.left .ret)
    [.dispatch disc arms 9, .unassigned "x" (at_ 1)] := by
  have htests : matchTest 9 arms 0 (localX false) (localX false) (.done none) [] := by
    refine run_silent (run_leaf _ rfl) (run_silent (run_pure _ _) ?_)
    refine run_silent (run_leaf _ rfl) (run_silent (a := false) (run_pure _ _) ?_)
    exact run_pure none _
  have hread : readLocal "x" (localX false) (localX false) (.done ()) [.unassigned "x" (at_ 1)] :=
    run_silent ⟨rfl, rfl, rfl⟩ ⟨rfl, rfl, rfl⟩
  have hswitch : exec (.switch disc arms) (localX false) (localX false) (.done ()) [.dispatch disc arms 9] :=
    run_switch htests (run_pure () _)
  have hret : exec (.ret (some (leaf (.localVar "x") .i32 5))) (localX false) (localX false) (.left .ret)
      [.unassigned "x" (at_ 1)] := by
    exact run_bind (run_local hread) ⟨rfl, rfl, rfl⟩
  exact run_silent run_declare (run_bind hswitch (run_bind_left hret))

/-- a member takes its arm -/
theorem run_member : execAll enumSwitch.stmts caller (localX true) (.left .ret) [.dispatch disc arms 0] := by
  have htests : matchTest 0 arms 0 (localX false) (localX false) (.done (some 0)) [] :=
    run_silent (run_leaf _ rfl) (run_silent (run_pure _ _) (run_pure (some 0) _))
  have hset : exec (setX 1 3) (localX false) (localX true) (.done ()) [] := by
    have htarget : evalAs true (leaf (.localVar "x") .i32 3) (localX false) (localX false) (.done ()) [] :=
      run_silent (run_mayStop _) (run_pure () _)
    have hwrite : write (leaf (.localVar "x") .i32 3) (localX false) (localX true) (.done ()) [] := ⟨rfl, rfl, rfl⟩
    refine run_silent (a := ()) (run_silent (run_mayStop _) (run_silent htarget ?_)) (run_pure () _)
    exact run_silent (run_leaf _ rfl) (run_silent (run_mayStop _) hwrite)
  have harm : execFrom arms 0 (localX false) (localX true) (.left .brk) [] := by
    refine run_bind_left ⟨localX true, ?_, rfl⟩
    exact run_silent hset (run_bind_left ⟨rfl, rfl, rfl⟩)
  have hread : readLocal "x" (localX true) (localX true) (.done ()) [] :=
    run_silent ⟨rfl, rfl, rfl⟩ ⟨rfl, rfl, rfl⟩
  have hswitch : exec (.switch disc arms) (localX false) (localX true) (.done ()) [.dispatch disc arms 0] :=
    run_switch htests ⟨.left .brk, localX true, [], [], harm, run_pure () _, rfl⟩
  have hret : exec (.ret (some (leaf (.localVar "x") .i32 5))) (localX true) (localX true) (.left .ret) [] :=
    run_silent (run_local hread) ⟨rfl, rfl, rfl⟩
  exact run_silent run_declare (run_bind hswitch (run_bind_left hret))

/-- A value that is no member of the enum passes by both arms. -/
theorem enumSwitch_reads_unassigned : localDiagnostics twoMembers enumSwitch.stmts = [] ∧ Start caller ∧
    ∃ s' r t, execAll enumSwitch.stmts caller s' r t ∧ ∃ d ∈ declarations enumSwitch.stmts, .unassigned d.1 d.2 ∈ t :=
  ⟨enumSwitch_passes, by simp [Start, caller], _, _, _, run_stranger, ("x", at_ 1), by decide, by simp⟩

theorem enumSwitch_member_assigned : execAll enumSwitch.stmts caller (localX true) (.left .ret) [.dispatch disc arms 0] ∧
    ∀ d ∈ declarations enumSwitch.stmts, .unassigned d.1 d.2 ∉ [Event.dispatch disc arms 0] := by
  refine ⟨run_member, ?_⟩
  refine (assignments_precede_reads twoMembers enumSwitch ?_ ?_).1 enumSwitch_passes _ mem_cons_self run_member
  · simp [Start, caller]
  · intro e he
    obtain rfl := mem_singleton.mp he
    exact fun _ _ => ⟨0, rfl, by simp [twoMembers]⟩

end Runs

end Subscript.Check.AssignmentFlow
