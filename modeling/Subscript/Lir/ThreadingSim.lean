import Subscript.Lir.ThreadingStage

/-! The rewriting of one origin keeps the value of every operand: both functions run side by side, and the
version at a point has the value of the origin as long as it is still to be read. -/

namespace Subscript.Lir

open List

section Values

variable {V : Type*} {env env' : ValueId → V} {v : ValueId}

variable {parameters : List ValueId} {values : List V}

theorem assign_append (env : ValueId → V) (h : parameters.length = values.length) (more : List ValueId) (others : List V) :
    assign env (parameters ++ more) (values ++ others) = assign (assign env parameters values) more others := by
  simp only [assign, zip_append h, foldl_append]

/-- values for the first parameters only -/
theorem assign_append_nil (h : parameters.length = values.length)
    (more : List ValueId) : assign env (parameters ++ more) values = assign env parameters values := by
  have happend := assign_append env h more []
  rwa [append_nil, assign_nil_right] at happend

theorem assign_congr (h : env' v = env v) (parameters : List ValueId) (values : List V) :
    assign env' parameters values v = assign env parameters values v := by
  induction parameters generalizing env env' values with
  | nil => exact h
  | cons p parameters ih =>
    cases values with
    | nil => exact h
    | cons x values =>
      refine ih ?_ values
      by_cases hv : v = p
      · subst hv
        simp
      · simp [hv, h]

end Values

/-- a parameter that was added for the origin -/
def NewVersion (O : OriginFacts) (s : Versions) (v : ValueId) : Prop :=
  (∃ c, O.special c = some v) ∨ ∃ c, s.merges.of c = some v

/-- Configurations of the function before and after the rewriting. -/
structure Sim {V : Type*} (f : Function) (O : OriginFacts) (s : Versions) (c c' : Config V) : Prop where
  point : c'.point = c.point
  run : ∃ τ, Run f τ c.point
  env : ∀ v, ¬ NewVersion O s v → c'.env v = c.env v
  version : Live f c.point O.origin → ∀ w, versionAt f O s c.point = some w → c'.env w = c.env O.origin

namespace NextOrigin

variable {V : Type*} {f g g' : Function} {liveIn : LiveSets} {carried : Carried} {G : VersionGraph} {R : List ValueId}
variable {O : OriginFacts} {s : Versions} {v : ValueId} {c c' : Config V} {constant : Constant → V}

variable {p : Point} {t : Terminator}

theorem readsAt_of_group (ht : g.terminatorAt p = some t) {group : List Operand}
    (hgroup : group ∈ t.operandGroups) (hv : .value v ∈ group) : v ∈ g.readsAt p := by
  have hi : g.instructionAt p = none := instructionAt_none_of_terminatorAt ht le_rfl
  simp only [Function.readsAt, hi, ht, Option.map_some, Option.getD_some]
  exact Terminator.mem_valueUses.mpr ⟨group, hgroup, hv⟩

theorem version_origin_or_new {w k : ValueId} (hinv : VersionsInv G O k s)
    (hw : versionAt f O s p = some w) : w = O.origin ∨ NewVersion O s w := versionAt_isVersion hinv hw

variable {target : BlockTarget}

theorem targets_length (hres : t.resume? = none) (htarget : target ∈ t.targets) :
    (target.block, target.arguments.length) ∈ t.passes := by
  cases t with
  | suspend sus => exact absurd hres (by simp [Terminator.resume?])
  | _ => exact mem_map.mpr ⟨target, htarget, rfl⟩

theorem targets_group (hres : t.resume? = none) (h : target ∈ t.targets) :
    target.arguments ∈ t.operandGroups := by
  cases t with
  | suspend sus => exact absurd hres (by simp [Terminator.resume?])
  | conditionalBranch condition thenTarget elseTarget =>
    rcases mem_pair.mp h with rfl | rfl
    · exact mem_cons_of_mem _ mem_cons_self
    · exact mem_cons_of_mem _ (mem_cons_of_mem _ mem_cons_self)
  | switch value arms default =>
    simp only [Terminator.targets, mem_append, mem_map, mem_singleton] at h
    simp only [Terminator.operandGroups, mem_cons, mem_append, mem_map, not_mem_nil, or_false]
    rcases h with ⟨arm, harm, rfl⟩ | rfl
    · exact .inr (.inl ⟨arm, harm, rfl⟩)
    · exact .inr (.inr rfl)
  | _ => simp_all [Terminator.targets, Terminator.operandGroups]

variable (h : NextOrigin f liveIn carried G O R s g g')

include h

theorem origin_not_new : ¬ NewVersion O s O.origin := by
  have hlt := h.lt O.origin mem_cons_self
  rintro (⟨d, hd⟩ | ⟨d, hd⟩)
  · rw [h.special] at hd
    exact absurd hlt (Nat.not_lt.mpr (h.setting.le_special hd))
  · exact absurd hlt (Nat.not_lt.mpr (Nat.le_trans h.stage.le (h.versioned.inv.merge hd).1))

/-- what the function reads before the rewriting is not new -/
theorem read_not_new (hv : v ∈ g.readsAt p) :
    ¬ NewVersion O s v := by
  rintro (⟨d, hd⟩ | ⟨d, hd⟩)
  · rw [h.special] at hd
    exact h.stage.unread p _ mem_cons_self d v hd hv
  · exact absurd (h.stage.structured.lt_of_readsAt hv) (Nat.not_lt.mpr (h.versioned.inv.merge hd).1)

/-- a new parameter belongs to one block, and nothing else defines it -/
theorem new_enter (hv : NewVersion O s v) :
    ∃ d, v ∈ g'.defines (.enter d) ∧ (O.special d = some v ∨ s.merges.of d = some v) := by
  rcases hv with ⟨d, hd⟩ | ⟨d, hd⟩
  · exact ⟨d, h.defines_of_gives (.inr ⟨d, rfl, .inl hd⟩), .inl hd⟩
  · exact ⟨d, h.defines_of_gives (.inr ⟨d, rfl, .inr hd⟩), .inr hd⟩

theorem new_not_done (hv : NewVersion O s v) (b : BlockId) (j : Nat) :
    v ∉ g'.defines (.done b j) := by
  intro hdone
  obtain ⟨d, hd, -⟩ := h.new_enter hv
  exact absurd (h.structured.defines_unique hdone hd) (by simp)

variable {d : BlockId}

theorem new_not_parameter (hv : NewVersion O s v)
    (hsp : O.special d = none) (hm : s.merges.of d = none) : v ∉ g.parametersOf d := by
  intro hmem
  obtain ⟨d', hd', hnew⟩ := h.new_enter hv
  have heq := h.structured.defines_unique (h.defines_subset (e := .enter d) hmem) hd'
  obtain rfl : d' = d := by simpa using heq
  rcases hnew with hnew | hnew
  · exact absurd (hsp.symm.trans hnew) (by simp)
  · exact absurd (hm.symm.trans hnew) (by simp)

theorem origin_not_parameter (hd : O.origin ∉ f.defines (.enter d)) : O.origin ∉ g.parametersOf d := by
  obtain ⟨extra, hparams, hextra⟩ := h.stage.parameters d
  rw [hparams]
  intro hmem
  rcases mem_append.mp hmem with hmem | hmem
  · exact hd hmem
  · exact absurd (h.lt _ mem_cons_self) (Nat.not_lt.mpr (hextra _ hmem))

theorem sim_initial (env : ValueId → V) :
    Sim f O s (g.initial env) (g'.initial env) := by
  have hentry : g.entry = f.entry := h.stage.frame.entry
  refine ⟨?_, ⟨[.enter f.entry, .start], [], ?_, rfl⟩, fun _ _ => rfl, fun hlive w hw => ?_⟩
  · simp [Function.initial, h.threads.frame.entry]
  · simp only [Function.initial, hentry]
    exact .refl
  · have hrun : Run f [.enter f.entry, .start] ⟨f.entry, 0⟩ := ⟨[], .refl, rfl⟩
    simp only [Function.initial, hentry] at hlive hw
    obtain ⟨block, hb⟩ : ∃ block, f.blocks[f.entry]? = some block :=
      ⟨_, getElem?_eq_getElem h.versioned.ssa.entry⟩
    have hdef : O.entryDefinition f.entry = true := by
      refine (h.versioned.facts.entryDefinition hb).mpr ?_
      exact (h.versioned.ssa.defined_of_live_entry hlive).imp (mem_defines_enter hb).mp fun hstart => ⟨rfl, hstart⟩
    have hv : versionAt f O s ⟨f.entry, 0⟩ = some O.origin := by simp [versionAt, Function.resultsBefore, hdef]
    rw [Option.mem_unique hw hv]
    rfl

section Related

variable (hc : Sim f O s c c')

include hc

/-- each operand has the value that it had -/
theorem read (hv : v ∈ g.readsAt c.point) :
    c'.env (renameAt f G O s c.point v) = c.env v := by
  by_cases hvo : v = O.origin
  · subst hvo
    have hread := h.stage.reads _ _ mem_cons_self hv
    obtain ⟨τ, hrun⟩ := hc.run
    obtain ⟨w, hw, -⟩ := h.versioned.given hrun (.of_read hread)
    have hlt : c.point.block < f.blocks.length := by
      obtain ⟨block, hb, -⟩ := readsAt_cases hread
      exact (List.getElem?_eq_some_iff.mp hb).1
    rw [renameAt_origin (h.versioned.reachable hrun hlt) hw]
    exact hc.version (.of_read hread) w hw
  · rw [renameAt_of_ne hvo]
    exact hc.env v (h.read_not_new hv)

variable {operand : Operand}

theorem eval (hv : ∀ v, operand = .value v → v ∈ g.readsAt c.point) :
    (operand.mapValue (renameAt f G O s c.point)).eval constant c'.env = operand.eval constant c.env := by
  cases operand with
  | value v => exact h.read hc (hv v rfl)
  | constant k => rfl

variable {t : Terminator} {group : List Operand}

theorem map_eval (ht : g.terminatorAt c.point = some t) (hgroup : group ∈ t.operandGroups) :
    (group.map (Operand.mapValue (renameAt f G O s c.point))).map (Operand.eval constant c'.env) =
      group.map (Operand.eval constant c.env) := by
  rw [map_map]
  refine map_congr_left fun operand hop => ?_
  refine h.eval hc fun v hv => readsAt_of_group ht hgroup (hv ▸ hop)

variable {d : BlockId}

/-- Both functions enter block `d`: old values are the same, and a parameter of `d` for the origin gets its
version. -/
theorem sim_enter {ε : List Event} (hs : Step f c.point ε ⟨d, 0⟩) (hε : Event.enter d ∈ ε) {E E' : ValueId → V}
    (henv : ∀ v, ¬ NewVersion O s v → E' v = E v) (hold : ∀ v, v ∉ g.parametersOf d → E v = c.env v)
    (hold' : ∀ v, v ∉ g.parametersOf d → s.merges.of d ≠ some v → E' v = c'.env v)
    (hnew : ∀ t m w, f.terminatorAt c.point = some t → O.special d = some m ∧ t.resume? = some d ∨ s.merges.of d = some m →
      Live f c.point O.origin → versionAt f O s c.point = some w → E' m = c'.env w) :
    Sim f O s ⟨⟨d, 0⟩, E⟩ ⟨⟨d, 0⟩, E'⟩ := by
  obtain ⟨τ, hrun⟩ := hc.run
  refine ⟨rfl, ⟨_, hrun.step hs⟩, henv, fun hlive w hw => ?_⟩
  change E' w = E O.origin
  cases h.versioned.step hrun hs hlive (h.versioned.exists_version hrun) with
  | defined e he hdef hq =>
    obtain rfl := Option.mem_unique hw hq
    exact henv _ h.origin_not_new
  | kept hl hdef hsus hq hnone =>
    obtain ⟨hsp, hm⟩ := hnone d hε
    rw [hq] at hw
    have hE : E O.origin = c.env O.origin := hold _ (h.origin_not_parameter (hdef _ hε))
    rcases version_origin_or_new h.versioned.inv hw with rfl | hwnew
    · exact henv _ h.origin_not_new
    · rw [hE, hold' w (h.new_not_parameter hwnew hsp hm) (by simp [hm])]
      exact hc.version hl w hw
  | merged d' m t hl hdef hq _ ht hm hv =>
    obtain rfl : d = d' := by simpa using hq
    obtain rfl := Option.mem_unique hw hv
    obtain ⟨u, hu⟩ := h.versioned.exists_version hrun hl
    rw [hold _ (h.origin_not_parameter (hdef _ hε)), hnew t w u ht (.inr hm) hl hu]
    exact hc.version hl u hu
  | carried d' m t hl hdef hq _ ht hr hm hv =>
    obtain rfl : d = d' := by simpa using hq
    obtain rfl := Option.mem_unique hw hv
    obtain ⟨u, hu⟩ := h.versioned.exists_version hrun hl
    rw [hold _ (h.origin_not_parameter (hdef _ hε)), hnew t w u ht (.inl ⟨hm, hr⟩) hl hu]
    exact hc.version hl u hu

variable {i : Instruction}

theorem sim_done (hi : g.instructionAt c.point = some i) (x : V) :
    Sim f O s ⟨⟨c.point.block, c.point.index + 1⟩, storeResult c.env i.result x⟩
      ⟨⟨c.point.block, c.point.index + 1⟩, storeResult c'.env i.result x⟩ := by
  obtain ⟨τ, hrun⟩ := hc.run
  obtain ⟨i₀, hi₀, hres, -⟩ := h.stage.shape.symm.instruction hi
  have hs : Step f c.point [.done c.point.block c.point.index] ⟨c.point.block, c.point.index + 1⟩ := .next hi₀
  have hother : ∀ {E : ValueId → V} {v : ValueId}, i.result ≠ some v → storeResult E i.result x v = E v := by
    intro E v hne
    cases hr : i.result with
    | none => rfl
    | some r => exact Function.update_of_ne (fun heq => hne (by rw [hr, heq])) _ _
  have hdefines : ∀ {v : ValueId}, i.result = some v → v ∈ g.defines (.done c.point.block c.point.index) := by
    intro v hv
    simp only [Function.defines, hi, Option.bind_some, hv]
    exact mem_singleton.mpr rfl
  have henv : ∀ v, ¬ NewVersion O s v → storeResult c'.env i.result x v = storeResult c.env i.result x v := by
    intro v hv
    by_cases hr : i.result = some v
    · simp [storeResult, hr]
    · rw [hother hr, hother hr, hc.env v hv]
  refine ⟨rfl, ⟨_, hrun.step hs⟩, henv, fun hlive w hw => ?_⟩
  change storeResult c'.env i.result x w = storeResult c.env i.result x O.origin
  cases h.versioned.step hrun hs hlive (h.versioned.exists_version hrun) with
  | defined e he hdef hq =>
    obtain rfl := Option.mem_unique hw hq
    exact henv _ h.origin_not_new
  | kept hl hdef hsus hq _ =>
    rw [hq] at hw
    rcases version_origin_or_new h.versioned.inv hw with rfl | hwnew
    · exact henv _ h.origin_not_new
    · have hne : i.result ≠ some w := fun hr =>
        h.new_not_done hwnew _ _ (h.defines_subset (hdefines hr))
      have hne' : i.result ≠ some O.origin := by
        intro hr
        have hmem := hdefines hr
        rw [h.stage.shape.defines_done] at hmem
        exact hdef _ (mem_singleton.mpr rfl) hmem
      rw [hother hne, hother hne']
      exact hc.version hl w hw
  | merged d m t _ _ hq => exact absurd (congrArg Point.index hq) (Nat.succ_ne_zero _)
  | carried d m t _ _ hq => exact absurd (congrArg Point.index hq) (Nat.succ_ne_zero _)

theorem sim_raise (hi : g.instructionAt c.point = some i) (hd : i.handler = some d) :
    Sim f O s (g.enter c.env d []) (g'.enter c'.env d []) := by
  obtain ⟨i₀, hi₀, -, htraps⟩ := h.stage.shape.symm.instruction hi
  have hs : Step f c.point [.enter d] ⟨d, 0⟩ := .raise hi₀ ((Function.SameShape.handler htraps).trans hd)
  simp only [Function.enter, assign_nil_right]
  refine h.sim_enter hc hs (mem_singleton.mpr rfl) hc.env (fun v _ => rfl) (fun v _ _ => rfl) ?_
  intro t m w ht _
  exact absurd (instructionAt_none_of_terminatorAt ht le_rfl) (by rw [hi₀]; simp)

/-- the version that a block ends with is the one it passes on -/
theorem outgoing_at (ht : f.terminatorAt c.point = some t) :
    G.reachable c.point.block = true ∧ s.outgoing.of c.point.block = versionAt f O s c.point := by
  obtain ⟨τ, hrun⟩ := hc.run
  obtain ⟨block, hb, hlen, -⟩ := terminatorAt_eq_some.mp ht
  have hr := h.versioned.reachable hrun (List.getElem?_eq_some_iff.mp hb).1
  exact ⟨hr, by rw [h.versioned.outgoing_eq hb hr, hlen]⟩

theorem sim_edge
    (ht : g.terminatorAt c.point = some t) (hres : t.resume? = none) {target : BlockTarget} (htarget : target ∈ t.targets) :
    Sim f O s (g.enter c.env target.block (target.arguments.map (Operand.eval constant c.env)))
      (g'.enter c'.env target.block ((((target.mapValues (renameAt f G O s c.point)).passing
        (passedArgs G O s c.point.block t)).arguments).map (Operand.eval constant c'.env))) := by
  obtain ⟨t₀, ht₀, hsucc, hres₀⟩ := h.stage.shape.symm.terminator ht
  have hd : target.block ∈ t₀.successors := hsucc ▸ mem_map.mpr ⟨target, htarget, rfl⟩
  have hs : Step f c.point [.enter target.block] ⟨target.block, 0⟩ := .jump ht₀ (hres₀.trans hres) hd
  obtain ⟨block, hb, hlen, rfl⟩ := terminatorAt_eq_some.mp ht
  have hlength : (g.parametersOf target.block).length = (target.arguments.map (Operand.eval constant c.env)).length := by
    rw [length_map, h.stage.normal hb hres _ _ (targets_length hres htarget)]
  obtain ⟨hr, hout⟩ := h.outgoing_at hc ht₀
  have hargs : passedArgs G O s c.point.block block.terminator target.block =
      if (s.merges.of target.block).isSome then (versionAt f O s c.point).toList.map .value else [] := by
    simp [passedArgs, hres, mergeArgs, hr, hout]
  have hvalues : ((target.mapValues (renameAt f G O s c.point)).passing
      (passedArgs G O s c.point.block block.terminator)).arguments.map (Operand.eval constant c'.env) =
        target.arguments.map (Operand.eval constant c.env) ++
          (passedArgs G O s c.point.block block.terminator target.block).map (Operand.eval constant c'.env) := by
    rw [← h.map_eval hc ht (targets_group hres htarget)]
    simp [BlockTarget.passing, BlockTarget.mapValues]
  simp only [Function.enter]
  rw [hvalues, h.parametersOf, assign_append c'.env hlength]
  refine h.sim_enter hc hs (mem_singleton.mpr rfl) (fun v hv => ?_) (fun v hv => assign_of_notMem hv)
    (fun v hv hm => ?_) fun t' m w ht' hnew hl hw => ?_
  · have hnot : v ∉ (s.merges.of target.block).toList := fun hmem => hv (.inr ⟨_, by simpa using hmem⟩)
    rw [assign_of_notMem hnot]
    exact assign_congr (hc.env v hv) _ _
  · rw [assign_of_notMem (by simpa using hm), assign_of_notMem hv]
  · rcases hnew with ⟨-, hr'⟩ | hm
    · obtain rfl := Option.mem_unique ht' ht₀
      exact absurd (hr'.symm.trans (hres₀.trans hres)) (by simp)
    · rw [hargs, hm, hw]
      simp only [Option.isSome_some, if_true, Option.toList_some, map_cons, map_nil, Operand.eval]
      rw [assign_cons, assign_nil_right, Function.update_self]

theorem sim_resume {sus sus' : Suspend}
    (ht : g.terminatorAt c.point = some (.suspend sus))
    (hsus : ((Terminator.suspend sus).mapValues (renameAt f G O s c.point)).passing
      (passedArgs G O s c.point.block (.suspend sus)) = .suspend sus') (x : V) :
    Sim f O s (g.enter c.env sus.successor (sus.passed constant c.env x))
      (g'.enter c'.env sus'.successor (sus'.passed constant c'.env x)) := by
  obtain ⟨t₀, ht₀, -, hres₀⟩ := h.stage.shape.symm.terminator ht
  have hs : Step f c.point [.enter sus.successor, .suspend] ⟨sus.successor, 0⟩ := .suspend ht₀ hres₀
  obtain ⟨block, hb, hlen, hblock⟩ := terminatorAt_eq_some.mp ht
  obtain ⟨pre, hparams, hpre⟩ := h.stage.suspended hb (by rw [hblock]; rfl) sus.successor
    (sus.resumeValue.toList.length + sus.arguments.length) (by rw [hblock]; exact mem_singleton.mpr rfl)
  obtain ⟨-, hout⟩ := h.outgoing_at hc ht₀
  obtain ⟨block₀, hb₀, -, hblock₀⟩ := terminatorAt_eq_some.mp ht₀
  have hmerge : s.merges.of sus.successor = none :=
    h.versioned.merges_of_resume ⟨c.point.block, block₀, hb₀, hblock₀ ▸ hres₀⟩
  have hinj := Terminator.suspend.inj hsus
  have hsuccessor : sus'.successor = sus.successor := by
    rw [← hinj]
  have hlength : pre.length = (sus.passed constant c.env x).length := by
    rw [← hpre]
    simp [Suspend.passed]
  have hargs : passedArgs G O s c.point.block (.suspend sus) sus.successor =
      if (O.special sus.successor).isSome then (versionAt f O s c.point).toList.map .value else [] := by
    simp [passedArgs, Terminator.resume?, hout]
  have hvalues : sus'.passed constant c'.env x = sus.passed constant c.env x ++
      (passedArgs G O s c.point.block (.suspend sus) sus.successor).map (Operand.eval constant c'.env) := by
    have hgroup : sus.arguments ∈ (Terminator.suspend sus).operandGroups := mem_cons_self
    rw [← hinj, Suspend.passed, Suspend.passed, map_append, h.map_eval hc ht hgroup, ← append_assoc]
  simp only [Function.enter]
  rw [hsuccessor, hvalues, h.parametersOf, hmerge, Option.toList_none, append_nil, hparams,
    assign_append c'.env hlength, assign_append_nil hlength]
  refine h.sim_enter hc hs mem_cons_self (fun v hv => ?_) (fun v hv => ?_) (fun v hv _ => ?_)
    fun t m w ht' hnew hl hw => ?_
  · rw [← assign_congr (hc.env v hv) pre, hargs, filterMap_cons, ← h.special]
    cases hsp : O.special sus.successor with
    | none => simp [assign_nil_right]
    | some m =>
      cases versionAt f O s c.point with
      | none => simp [assign_nil_right]
      | some w =>
        have hne : v ≠ m := fun heq => hv (.inl ⟨_, heq ▸ hsp⟩)
        simp only [Option.isSome_some, if_true, Option.toList_some, map_cons, map_nil]
        rw [assign_cons, assign_nil_right, Function.update_of_ne hne]
  · rw [hparams] at hv
    exact assign_of_notMem fun hmem => hv (mem_append_left _ hmem)
  · rw [hparams] at hv
    rw [assign_of_notMem fun hmem => hv (mem_append_right _ hmem),
      assign_of_notMem fun hmem => hv (mem_append_left _ hmem)]
  · rcases hnew with ⟨hsp, -⟩ | hm
    · have hcarried : carried.parameter O.origin sus.successor = some m := h.special ▸ hsp
      rw [hargs, hsp, hw, filterMap_cons, hcarried]
      simp only [Option.isSome_some, if_true, Option.toList_some, map_cons, map_nil, Operand.eval]
      rw [assign_cons, assign_nil_right, Function.update_self]
    · exact absurd (hmerge.symm.trans hm) (by simp)

/-- both functions take the same steps -/
theorem sim_step (choice : Choice V) :
    Option.Rel (Sim f O s) (execStep g constant c choice) (execStep g' constant c' choice) := by
  cases choice with
  | done x =>
    simp only [execStep, hc.point]
    cases hi : g.instructionAt c.point with
    | none =>
      rw [h.threads.shape.instruction_none hi]
      exact .none
    | some i =>
      obtain ⟨i', hi', hres, -, -⟩ := h.threads.instructionAt h.stage.shape hi
      rw [hi', Option.map_some, Option.map_some, hres]
      exact .some (h.sim_done hc hi x)
  | raise =>
    simp only [execStep, hc.point]
    cases hi : g.instructionAt c.point with
    | none =>
      rw [h.threads.shape.instruction_none hi]
      exact .none
    | some i =>
      obtain ⟨i', hi', -, hh, -⟩ := h.threads.instructionAt h.stage.shape hi
      rw [hi', Option.bind_some, Option.bind_some, hh]
      cases hd : i.handler with
      | none => exact .none
      | some d => exact .some (h.sim_raise hc hi hd)
  | edge k =>
    simp only [execStep, hc.point]
    cases ht : g.terminatorAt c.point with
    | none =>
      rw [h.threads.shape.terminator_none ht]
      exact .none
    | some t =>
      rw [h.threads.terminatorAt h.stage.shape ht, Option.bind_some, Option.bind_some, Terminator.passing_resume,
        Terminator.mapValues_resume]
      cases hr : t.resume? with
      | some d => exact .none
      | none =>
        simp only [Terminator.passing_targets, Terminator.mapValues_targets, map_map, getElem?_map,
          Option.map_map]
        cases htarget : t.targets[k]? with
        | none => exact .none
        | some target => exact .some (h.sim_edge hc ht hr (mem_of_getElem? htarget))
  | resume x =>
    simp only [execStep, hc.point]
    cases ht : g.terminatorAt c.point with
    | none =>
      rw [h.threads.shape.terminator_none ht]
      exact .none
    | some t =>
      rw [h.threads.terminatorAt h.stage.shape ht]
      cases t with
      | suspend sus => exact .some (h.sim_resume hc ht rfl x)
      | _ => exact .none

theorem sim_exec (choices : List (Choice V)) :
    Option.Rel (Sim f O s) (exec g constant choices c) (exec g' constant choices c') := by
  induction choices using List.reverseRecOn with
  | nil => exact .some hc
  | append_singleton choices choice ih =>
    rw [exec_concat, exec_concat]
    generalize exec g constant choices c = a at ih ⊢
    generalize exec g' constant choices c' = b at ih ⊢
    cases ih with
    | none => exact .none
    | some hrel => exact h.sim_step hrel choice

/-- in related configurations the operands have the same values -/
theorem sim_reads {i j : Nat}
    (hgroup : (g.operandGroups c.point)[i]? = some group) (hop : group[j]? = some operand) :
    ∃ (group' : List Operand) (operand' : Operand), (g'.operandGroups c.point)[i]? = some group' ∧
      group'[j]? = some operand' ∧ operand'.eval constant c'.env = operand.eval constant c.env := by
  unfold Function.operandGroups at hgroup ⊢
  cases hi : g.instructionAt c.point with
  | some instr =>
    obtain ⟨instr', hi', -, -, hops⟩ := h.threads.instructionAt h.stage.shape hi
    simp only [hi, hi', hops, getElem?_singleton] at hgroup ⊢
    split_ifs at hgroup ⊢
    obtain rfl := Option.some.inj hgroup
    refine ⟨_, operand.mapValue (renameAt f G O s c.point), rfl, by rw [getElem?_map, hop]; rfl, ?_⟩
    refine h.eval hc fun v hv => ?_
    subst hv
    simp only [Function.readsAt, hi, Instruction.valueUses]
    exact mem_filterMap.mpr ⟨_, mem_of_getElem? hop, rfl⟩
  | none =>
    simp only [hi, h.threads.shape.instruction_none hi] at hgroup ⊢
    cases ht : g.terminatorAt c.point with
    | none => simp [ht] at hgroup
    | some t =>
      simp only [ht, Option.map_some, Option.getD_some, h.threads.terminatorAt h.stage.shape ht] at hgroup ⊢
      have hmapped : (t.mapValues (renameAt f G O s c.point)).operandGroups[i]? =
          some (group.map (Operand.mapValue (renameAt f G O s c.point))) := by
        rw [Terminator.mapValues_groups, getElem?_map, hgroup]
        rfl
      obtain ⟨extra, hextra⟩ := Terminator.passing_groups (passedArgs G O s c.point.block t) hmapped
      refine ⟨_, operand.mapValue (renameAt f G O s c.point), hextra, ?_, ?_⟩
      · rw [getElem?_append_left, getElem?_map, hop]
        · rfl
        · rw [length_map]
          exact (List.getElem?_eq_some_iff.mp hop).1
      · refine h.eval hc fun v hv => ?_
        subst hv
        exact readsAt_of_group ht (mem_of_getElem? hgroup) (mem_of_getElem? hop)

end Related

/-- The rewriting of one origin keeps the value of every operand. -/
theorem sameReads : SameReads g g' := by
  intro V constant env choices
  have hsim : Option.Rel (Sim f O s) (exec g constant choices (g.initial env)) (exec g' constant choices (g'.initial env)) :=
    h.sim_exec (h.sim_initial env) choices
  generalize exec g constant choices (g.initial env) = a at hsim ⊢
  generalize exec g' constant choices (g'.initial env) = b at hsim ⊢
  cases hsim with
  | none => exact .none
  | some hc => exact .some ⟨hc.point, fun i j group operand hgroup hop => h.sim_reads hc hgroup hop⟩

end NextOrigin

end Subscript.Lir
