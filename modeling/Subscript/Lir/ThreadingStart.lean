import Subscript.Lir.ThreadingSim

/-! Before the first origin of `thread_suspension_live_ins`: the block graph that the loop reads, and what the
first part of the pass leaves. -/

namespace Subscript.Lir

open List

section Graph

variable {f g : Function}

theorem mem_successorsOf {b c : BlockId} : c ∈ successorsOf f b ↔ f.Edge b c := by
  unfold successorsOf Function.Edge
  cases f.blocks[b]? with
  | none => simp
  | some block => simp

theorem reflTransGen_iff_reachable {b : BlockId} :
    Relation.ReflTransGen (fun a c => c ∈ successorsOf f a) f.entry b ↔ Flow.Reachable f.Edge f.entry b := by
  simp only [mem_successorsOf]
  constructor
  · intro h
    induction h with
    | refl => exact ⟨[], .refl⟩
    | tail _ hE ih =>
      obtain ⟨l, hp⟩ := ih
      exact ⟨_, hp.snoc hE⟩
  · rintro ⟨l, hp⟩
    induction hp with
    | refl => exact .refl
    | snoc _ hE ih => exact ih.tail hE

/-- the search has fuel for every edge -/
theorem searchWork_blocks : Flow.searchWork (fun b => (false, successorsOf f b)) (Finset.range f.blocks.length) [f.entry] ∅ <
    (f.blocks.map (·.successors.length)).sum + 2 := by
  have hsum : ∑ b ∈ Finset.range f.blocks.length, (successorsOf f b).length = (f.blocks.map (·.successors.length)).sum := by
    have hlist : f.blocks.map (·.successors.length) =
        (List.range f.blocks.length).map fun b => (successorsOf f b).length := by
      refine ext_getElem? fun b => ?_
      rw [getElem?_map, getElem?_map]
      by_cases hb : b < f.blocks.length
      · rw [getElem?_eq_getElem hb, getElem?_range hb]
        simp [successorsOf, getElem?_eq_getElem hb]
      · have hnot := Nat.le_of_not_lt hb
        rw [getElem?_eq_none hnot, getElem?_eq_none (by simpa using hnot)]
        rfl
    rw [hlist]
    rfl
  simp only [Flow.searchWork, length_singleton, Finset.sdiff_empty, hsum]
  omega

theorem versionGraph_describes (hg : g.Indexed) (htarget : ∀ {a b}, g.Edge a b → b < g.blocks.length) :
    (versionGraph g).Describes g.Edge g.entry where
  lt := by
    intro b hb
    by_contra hnot
    have hle : g.blocks.length ≤ b := Nat.le_of_not_lt hnot
    have hnone : (reachableBlocks g)[b]? = none := getElem?_eq_none (by simpa [reachableBlocks] using hle)
    simp [versionGraph, getD_eq_getElem?_getD, hnone] at hb
  source_lt hE := hE.lt
  target_lt hE := htarget hE
  predecessors hb := by
    simp only [versionGraph, mem_predecessors hg]
    exact and_iff_right hb
  reachable := by
    intro b hb
    have hU : ∀ c ∉ Finset.range g.blocks.length, successorsOf g c = [] := by
      intro c hc
      have hnone : g.blocks[c]? = none := getElem?_eq_none (by simpa using hc)
      simp [successorsOf, hnone]
    rw [← reflTransGen_iff_reachable, ← Flow.mem_visits_iff hU searchWork_blocks]
    have hlt : b < g.blocks.length := hb
    simp [versionGraph, reachableBlocks, getD_eq_getElem?_getD, hlt]

end Graph

section Carried

variable {f : Function} {liveIn : LiveSets} {c : Carrying} {o w : ValueId} {b : BlockId}

theorem Carried.parameter_isSome {carried : Carried} :
    (carried.parameter o b).isSome ↔ o ∈ (carried.getD b []).map Prod.fst := by
  rw [Carried.parameter, findSome?_isSome_iff, mem_map]
  constructor
  · rintro ⟨⟨o', w⟩, hmem, hsome⟩
    refine ⟨(o', w), hmem, ?_⟩
    by_contra hne
    simp [hne] at hsome
  · rintro ⟨⟨o', w⟩, hmem, rfl⟩
    exact ⟨(o', w), hmem, by simp⟩

theorem Carried.mem_of_parameter {carried : Carried} (h : carried.parameter o b = some w) :
    (o, w) ∈ carried.getD b [] := by
  obtain ⟨⟨o', w'⟩, hmem, heq⟩ := exists_of_findSome?_eq_some h
  simp only at heq
  split_ifs at heq with ho
  obtain rfl := Option.some.inj heq
  exact ho ▸ hmem

theorem mem_getD_nil {α : Type*} {l : List (List α)} {x : α} {i : Nat} (h : x ∈ l.getD i []) : ∃ xs ∈ l, x ∈ xs := by
  rw [getD_eq_getElem?_getD] at h
  cases hl : l[i]? with
  | none => rw [hl] at h; exact absurd h not_mem_nil
  | some xs => exact ⟨xs, mem_of_getElem? hl, by rwa [hl] at h⟩

theorem mem_getD_flatten {carried : Carried} (h : (o, w) ∈ carried.getD b []) : w ∈ carried.flatten.map Prod.snd := by
  exact mem_map.mpr ⟨(o, w), mem_flatten.mpr (mem_getD_nil h), rfl⟩

theorem index_unique {α : Type*} {l : List (List α)} (h : l.flatten.Nodup) {x : α} {i j : Nat} (hi : x ∈ l.getD i [])
    (hj : x ∈ l.getD j []) : i = j := by
  have hmem : ∀ {l : List (List α)} {i : Nat}, x ∈ l.getD i [] → x ∈ l.flatten :=
    fun hx => mem_flatten.mpr (mem_getD_nil hx)
  induction l generalizing i j with
  | nil => exact absurd hi (by simp)
  | cons xs l ih =>
    rw [flatten_cons, nodup_append] at h
    cases i with
    | zero =>
      cases j with
      | zero => rfl
      | succ j => exact absurd rfl (h.2.2 x (by simpa using hi) x (hmem (by simpa using hj)))
    | succ i =>
      cases j with
      | zero => exact absurd rfl (h.2.2 x (by simpa using hj) x (hmem (by simpa using hi)))
      | succ j => exact congrArg (· + 1) (ih h.2.1 (by simpa using hi) (by simpa using hj))

/-- a number occurs at one place only -/
theorem unique_of_nodup_flatten {carried : Carried} (hnodup : (carried.flatten.map Prod.snd).Nodup) {o' : ValueId}
    {b' : BlockId} (h : (o, w) ∈ carried.getD b []) (h' : (o', w) ∈ carried.getD b' []) : o = o' ∧ b = b' := by
  rw [map_flatten] at hnodup
  have hget : ∀ b, (carried.map (List.map Prod.snd)).getD b [] = (carried.getD b []).map Prod.snd := by
    intro b
    simp only [getD_eq_getElem?_getD, getElem?_map]
    cases carried[b]? <;> rfl
  have hw : ∀ {o : ValueId} {b : BlockId}, (o, w) ∈ carried.getD b [] → w ∈ (carried.map (List.map Prod.snd)).getD b [] := by
    intro o b hmem
    rw [hget]
    exact mem_map.mpr ⟨_, hmem, rfl⟩
  obtain rfl := index_unique hnodup (hw h) (hw h')
  have hnd : ((carried.getD b []).map Prod.snd).Nodup := by
    rw [nodup_flatten] at hnodup
    rw [getD_eq_getElem?_getD] at h ⊢
    cases hb : carried[b]? with
    | none => simp
    | some l => exact hnodup.1 _ (mem_map.mpr ⟨l, mem_of_getElem? hb, rfl⟩)
  exact ⟨congrArg Prod.fst (inj_on_of_nodup_map hnd h h' rfl), rfl⟩

end Carried

section Start

variable {f : Function} {liveIn : LiveSets} {c : Carrying}

/-- the parameters of a block come in the order of the origins -/
theorem filterMap_lookup {origins : List ValueId} {pairs : List (ValueId × ValueId)} (horigins : origins.Pairwise (· < ·))
    (hpairs : (pairs.map Prod.fst).Pairwise (· < ·)) (hmem : ∀ o ∈ pairs.map Prod.fst, o ∈ origins) :
    origins.filterMap (fun o => pairs.findSome? fun (candidate, parameter) =>
      if candidate = o then some parameter else none) = pairs.map Prod.snd := by
  induction origins generalizing pairs with
  | nil =>
    cases pairs with
    | nil => rfl
    | cons p pairs => exact absurd (hmem p.1 mem_cons_self) not_mem_nil
  | cons x origins ih =>
    obtain ⟨hx, horigins⟩ := pairwise_cons.mp horigins
    cases pairs with
    | nil => simp
    | cons p pairs =>
      obtain ⟨hp, hpairs'⟩ := pairwise_cons.mp hpairs
      by_cases hxp : p.1 = x
      · -- the first pair is that of the first origin
        have hrest : ∀ o ∈ pairs.map Prod.fst, o ∈ origins := by
          intro o ho
          refine (mem_cons.mp (hmem o (mem_cons_of_mem _ ho))).resolve_left fun heq => ?_
          exact absurd (hp o ho) (by rw [heq, hxp]; exact lt_irrefl x)
        have hskip : origins.filterMap (fun o => (p :: pairs).findSome? fun (candidate, parameter) =>
            if candidate = o then some parameter else none) = origins.filterMap (fun o => pairs.findSome?
              fun (candidate, parameter) => if candidate = o then some parameter else none) := by
          refine filterMap_congr fun o ho => ?_
          have hne : p.1 ≠ o := by
            rw [hxp]
            exact (hx o ho).ne
          simp [hne]
        rw [filterMap_cons, hskip, ih horigins hpairs' hrest]
        simp [hxp]
      · have hmem' : ∀ o ∈ (p :: pairs).map Prod.fst, o ∈ origins := by
          have hpo : p.1 ∈ origins := (mem_cons.mp (hmem p.1 mem_cons_self)).resolve_left hxp
          intro o ho
          refine (mem_cons.mp (hmem o ho)).resolve_left fun heq => ?_
          rcases mem_cons.mp ho with rfl | ho
          · exact hxp heq
          · exact absurd (hp o ho) (Nat.lt_asymm (heq ▸ hx p.1 hpo))
        have hnone : ((p :: pairs).findSome? fun (candidate, parameter) =>
            if candidate = x then some parameter else none) = none := by
          rw [findSome?_eq_none_iff]
          rintro ⟨o, w⟩ ho
          refine if_neg fun heq => ?_
          have := hx o (hmem' o (mem_map.mpr ⟨_, ho, rfl⟩))
          exact absurd this (by rw [heq]; exact lt_irrefl x)
        rw [filterMap_cons, hnone, ih horigins hpairs hmem']

/-- What the first part of the pass leaves, for a function that the pass handles. -/
structure Started (f : Function) (liveIn : LiveSets) (c : Carrying) : Prop where
  ssa : Ssa f
  threadable : Threadable f
  resumed : ResumedOnly f
  live : ∀ b v, v ∈ liveIn.of b ↔ LiveIn f f.values.length v b
  inv : CarryInv f liveIn c
  originals : ∀ b, (ResumeBlock f b → c.originals b = ascending (liveIn.of b)) ∧ (¬ ResumeBlock f b → c.originals b = [])

theorem retainInvalidates_terminator (liveIn : LiveSets) (block : BasicBlock) :
    (retainInvalidates liveIn block).id = block.id ∧ (retainInvalidates liveIn block).instructions = block.instructions ∧
    (retainInvalidates liveIn block).terminator.targets = block.terminator.targets ∧
    (retainInvalidates liveIn block).terminator.resume? = block.terminator.resume? ∧
    (retainInvalidates liveIn block).terminator.passes = block.terminator.passes ∧
    (retainInvalidates liveIn block).terminator.operandGroups = block.terminator.operandGroups := by
  unfold retainInvalidates
  split
  · rename_i sus hsus
    rw [hsus]
    exact ⟨rfl, rfl, rfl, rfl, rfl, rfl⟩
  · exact ⟨rfl, rfl, rfl, rfl, rfl, rfl⟩

namespace Started

variable (h : Started f liveIn c)

include h

/-- block `b` after the first part -/
theorem block {b : BlockId} {block : BasicBlock} (hb : f.blocks[b]? = some block) :
    c.function.blocks[b]? = some { retainInvalidates liveIn block with
      parameters := block.parameters ++ (c.carried.getD b []).map Prod.snd } := by
  rw [h.inv.blocks, getElem?_mapIdx, hb]
  rfl

theorem shape : f.SameShape c.function := by
  refine ⟨h.inv.frame.entry, h.inv.frame.parameters, ?_⟩
  rw [h.inv.blocks]
  refine ext_getElem? fun b => ?_
  rw [getElem?_map, getElem?_map, getElem?_mapIdx, Option.map_map]
  cases f.blocks[b]? with
  | none => rfl
  | some block =>
    obtain ⟨hid, hi, ht, hr, -, -⟩ := retainInvalidates_terminator liveIn block
    simp [BasicBlock.shape, hid, hi, hr, Terminator.successors, ht]

theorem parametersOf (b : BlockId) :
    c.function.parametersOf b = f.parametersOf b ++ (c.carried.getD b []).map Prod.snd := by
  cases hb : f.blocks[b]? with
  | some block => rw [parametersOf_of (h.block hb), parametersOf_of hb]
  | none =>
    have hcarried : c.carried[b]? = none :=
      getElem?_eq_none (by rw [h.inv.length]; exact getElem?_eq_none_iff.mp hb)
    simp [Function.parametersOf, hb, h.shape.block_none hb, getD_eq_getElem?_getD, hcarried]

theorem carried_of_not_resume {b : BlockId} (hb : ¬ ResumeBlock f b) :
    c.carried.getD b [] = [] := map_eq_nil_iff.mp ((h.originals b).2 hb)

theorem instructionAt (p : Point) : c.function.instructionAt p = f.instructionAt p := by
  cases hb : f.blocks[p.block]? with
  | some block => simp [Function.instructionAt, hb, h.block hb, (retainInvalidates_terminator liveIn block).2.1]
  | none => simp [Function.instructionAt, hb, h.shape.block_none hb]

theorem terminatorAt (p : Point) : c.function.terminatorAt p =
    (f.terminatorAt p).map fun t => (retainInvalidates liveIn { id := 0, terminator := t }).terminator := by
  cases hb : f.blocks[p.block]? with
  | some block =>
    simp only [Function.terminatorAt, hb, h.block hb, Option.filter_some, (retainInvalidates_terminator liveIn block).2.1]
    split_ifs
    · simp only [Option.map_some, retainInvalidates]
      split <;> simp_all
    · rfl
  | none => simp [Function.terminatorAt, hb, h.shape.block_none hb]

theorem operandGroups (p : Point) : c.function.operandGroups p = f.operandGroups p := by
  unfold Function.operandGroups
  rw [h.instructionAt, h.terminatorAt]
  cases f.instructionAt p with
  | some i => rfl
  | none =>
    cases f.terminatorAt p with
    | none => rfl
    | some t => exact (retainInvalidates_terminator liveIn { id := 0, terminator := t }).2.2.2.2.2

theorem mem_readsAt (p : Point) {v : ValueId} : v ∈ c.function.readsAt p ↔ v ∈ f.readsAt p := by
  unfold Function.readsAt
  rw [h.instructionAt, h.terminatorAt]
  cases f.instructionAt p with
  | some i => exact Iff.rfl
  | none =>
    cases f.terminatorAt p with
    | none => exact Iff.rfl
    | some t =>
      simp only [Option.map_some, Option.getD_some, Terminator.mem_valueUses]
      rw [(retainInvalidates_terminator liveIn { id := 0, terminator := t }).2.2.2.2.2]

theorem le_of_carried {o w : ValueId} {b : BlockId} (hw : (o, w) ∈ c.carried.getD b []) :
    f.values.length ≤ w := by
  have hmem := h.inv.fresh.mem_iff.mp (mem_getD_flatten hw)
  exact (mem_range'_1.mp hmem).1

theorem setting : Setting f liveIn c.carried (versionGraph c.function) where
  ssa := h.ssa
  threadable := h.threadable
  resumed := h.resumed
  live := h.live
  graph := by
    have hindexed := h.shape.indexed h.ssa.toIndexed h.inv.frame.locals
    have hdescribes := versionGraph_describes hindexed fun hE => by
      obtain ⟨block, hb⟩ := h.ssa.block_of_edge (h.shape.edge.mp hE)
      rw [h.shape.length]
      exact (List.getElem?_eq_some_iff.mp hb).1
    rwa [h.shape.edge_eq, h.inv.frame.entry] at hdescribes
  count := h.shape.length
  special o b := by
    rw [Carried.parameter_isSome]
    change o ∈ c.originals b ↔ _
    by_cases hb : ResumeBlock f b
    · rw [(h.originals b).1 hb, mem_ascending, h.live]
      exact (and_iff_right hb).symm
    · rw [(h.originals b).2 hb]
      exact ⟨fun hmem => absurd hmem not_mem_nil, fun hmem => absurd hmem.1 hb⟩
  le_special hw := h.le_of_carried (Carried.mem_of_parameter hw)
  special_inj hw hw' := unique_of_nodup_flatten (h.inv.fresh.nodup_iff.mpr nodup_range')
    (Carried.mem_of_parameter hw) (Carried.mem_of_parameter hw')

theorem parameters_eq (b : BlockId) :
    (c.carried.getD b []).map Prod.snd = c.origins.filterMap (c.carried.parameter · b) := by
  have hpairs : (c.originals b).Pairwise (· < ·) := by
    by_cases hb : ResumeBlock f b
    · rw [(h.originals b).1 hb]
      exact pairwise_ascending _
    · rw [(h.originals b).2 hb]
      exact .nil
  refine (filterMap_lookup (pairwise_ascending _) hpairs fun o ho => mem_ascending.mpr ?_).symm
  obtain ⟨⟨o', w⟩, hmem, rfl⟩ := mem_map.mp ho
  rw [mem_toFinset, mem_flatMap]
  obtain ⟨l, hl, hmem⟩ := mem_getD_nil hmem
  exact ⟨l, hl, mem_map.mpr ⟨_, hmem, rfl⟩⟩

theorem mem_origins {o : ValueId} :
    o ∈ c.origins ↔ ∃ b, ResumeBlock f b ∧ LiveIn f f.values.length o b := by
  simp only [Carrying.origins, mem_ascending, mem_toFinset, mem_flatMap]
  constructor
  · rintro ⟨l, hl, ho⟩
    obtain ⟨b, hb⟩ := mem_iff_getElem?.mp hl
    have hget : c.carried.getD b [] = l := by rw [getD_eq_getElem?_getD, hb]; rfl
    exact ⟨b, (h.setting.special o b).mp (Carried.parameter_isSome.mpr (hget ▸ ho))⟩
  · rintro ⟨b, hb⟩
    obtain ⟨p, hp, rfl⟩ := mem_map.mp (Carried.parameter_isSome.mp ((h.setting.special o b).mpr hb))
    obtain ⟨l, hl, hp⟩ := mem_getD_nil hp
    exact ⟨l, hl, mem_map.mpr ⟨p, hp, rfl⟩⟩

theorem structured : c.function.Structured := by
  refine structured_of_perm (h.shape.indexed h.ssa.toIndexed h.inv.frame.locals) ?_ ?_
  · intro block hblock v hv
    obtain ⟨b, hb⟩ := mem_iff_getElem?.mp hblock
    obtain ⟨j, hread⟩ := exists_readsAt hb hv
    exact Nat.lt_of_lt_of_le (h.ssa.lt_of_readsAt ((h.mem_readsAt _).mp hread)) h.inv.le
  · have hsplit : (definedValues c.function).Perm (definedValues f ++ c.carried.flatten.map Prod.snd) := by
      have hflat : c.carried.flatten.map Prod.snd =
          (List.range f.blocks.length).flatMap fun b => (c.carried.getD b []).map Prod.snd := by
        have hrange : (List.range c.carried.length).map (fun b => c.carried.getD b []) = c.carried := by
          refine ext_getElem? fun b => ?_
          by_cases hb : b < c.carried.length
          · simp [hb]
          · have hle := Nat.le_of_not_lt hb
            rw [getElem?_eq_none (by simpa using hle), getElem?_eq_none hle]
        conv_lhs => rw [← hrange]
        rw [h.inv.length, ← flatMap_def, map_flatMap]
      rw [definedValues, definedValues, h.inv.blocks, h.inv.frame.parameters, append_assoc, hflat]
      refine List.Perm.append_left _ (perm_flatMap_mapIdx fun b block => ?_)
      rw [(retainInvalidates_terminator liveIn block).2.1, append_assoc, append_assoc]
      exact perm_append_comm.append_left _
    refine hsplit.trans ((h.ssa.toStructured.perm.append h.inv.fresh).trans ?_)
    have hconcat := range'_append_1 (s := 0) (m := f.values.length) (n := c.function.values.length - f.values.length)
    rw [Nat.zero_add, Nat.add_sub_cancel' h.inv.le] at hconcat
    rw [range_eq_range', range_eq_range', hconcat]

/-- a step that is no suspension does not enter a suspend successor -/
theorem not_resume {p : Point} {ε : List Event} {d : BlockId} (hs : Step f p ε ⟨d, 0⟩)
    (hε : Event.suspend ∉ ε) : ¬ ResumeBlock f d := fun hd => hε (h.resumed d hd p ε hs)

theorem stage : Stage f c.carried c.origins c.function where
  frame := h.inv.frame
  shape := h.shape
  structured := h.structured
  le := h.inv.le
  parameters b := by
    refine ⟨_, h.parametersOf b, fun v hv => ?_⟩
    obtain ⟨⟨o, w⟩, hmem, rfl⟩ := mem_map.mp hv
    exact h.le_of_carried hmem
  carriedIn hw := by
    rw [h.parametersOf]
    exact mem_append_right _ (mem_map.mpr ⟨_, Carried.mem_of_parameter hw, rfl⟩)
  reads p o _ hv := (h.mem_readsAt p).mp hv
  unread p o _ b w hw hv :=
    absurd (h.ssa.lt_of_readsAt ((h.mem_readsAt p).mp hv)) (Nat.not_lt.mpr (h.setting.le_special hw))
  normal := by
    intro b block' hb' hres d n hmem
    obtain ⟨block, hb, -⟩ := h.shape.symm.block hb'
    obtain rfl := Option.mem_unique (h.block hb) hb'
    obtain ⟨-, -, -, hr, hp, -⟩ := retainInvalidates_terminator liveIn block
    simp only [hr] at hres
    simp only [hp] at hmem
    have hnot := h.not_resume (.jump (terminatorAt_end hb) hres (mem_successors_of_passes hmem)) (by simp)
    rw [(h.ssa.edges.passes hb d n hmem).2, h.parametersOf, h.carried_of_not_resume hnot]
    simp
  suspended := by
    intro b block' hb' hres d n hmem
    obtain ⟨block, hb, -⟩ := h.shape.symm.block hb'
    obtain rfl := Option.mem_unique (h.block hb) hb'
    obtain ⟨-, -, -, hr, hp, -⟩ := retainInvalidates_terminator liveIn block
    simp only [hp] at hmem
    exact ⟨f.parametersOf d, by rw [h.parametersOf, h.parameters_eq], (h.ssa.edges.passes hb d n hmem).2⟩
  handlers := by
    intro b d block' hb' hd
    obtain ⟨block, hb, heq⟩ := h.shape.symm.block hb'
    rw [← Function.SameShape.handlers heq] at hd
    obtain ⟨i, hi, hh⟩ := mem_filterMap.mp hd
    obtain ⟨j, hj⟩ := mem_iff_getElem?.mp hi
    have hat : f.instructionAt ⟨b, j⟩ = some i := instructionAt_eq_some.mpr ⟨block, hb, hj⟩
    rw [h.parametersOf, (h.ssa.edges.handlers hb i hi d hh).2, h.carried_of_not_resume (h.not_resume (.raise hat hh) (by simp))]
    rfl
  since τ q hrun v hv hR := by
    have hv := (h.mem_readsAt q).mp hv
    have hdefines : ∀ {e : Event}, v ∈ f.defines e → v ∈ c.function.defines e :=
      h.shape.defines_subset h.inv.frame.parameters fun b => by
        rw [h.parametersOf]
        exact subset_append_left _ _
    by_cases hsus : Event.suspend ∈ τ
    · -- otherwise the value would be live at the entry of the resume block
      obtain ⟨d, σ, hw, hsince⟩ := hrun.last_suspend hsus
      rw [hsince]
      by_contra hnone
      have hnot : ∀ e ∈ σ ++ [.enter d], v ∉ f.defines e := fun e he hdef => hnone ⟨e, he, hdefines hdef⟩
      obtain ⟨hσ, hd⟩ := forall_mem_append.mp hnot
      obtain ⟨⟨ρ, r, t, hr, ht, htr⟩, hwalk, -⟩ := hw
      have hrunD := hr.step (.suspend ht htr)
      obtain ⟨block, hb, -, hterm⟩ := terminatorAt_eq_some.mp ht
      have hE : f.Edge r.block d := ⟨block, hb, mem_append_right _ (hterm ▸ resume_mem_successors htr)⟩
      obtain ⟨target, htarget⟩ := h.ssa.block_of_edge hE
      have hlive : LiveAtEntry f d v := ⟨⟨σ, q, hwalk, hv, hσ⟩, hd _ (mem_singleton.mpr rfl)⟩
      have hin := (h.ssa.liveIn_iff hrunD htarget).mpr hlive
      exact hR (h.mem_origins.mpr ⟨d, ⟨r.block, block, hb, hterm ▸ htr⟩, hin⟩)
    · obtain ⟨e, he, hdef⟩ := h.ssa.reads_defined τ q hrun v hv
      refine ⟨e, ?_, hdefines hdef⟩
      have hall := Versioned.sinceSuspend_append_of_notMem (τ := []) hsus
      rw [append_nil] at hall
      rw [hall]
      exact mem_append_left _ he

/-- the parameters that nothing is passed to change no step -/
theorem execStep_eq {V : Type} (constant : Constant → V) (config : Config V) (choice : Choice V) :
    execStep c.function constant config choice = execStep f constant config choice := by
  have henter : ∀ {env : ValueId → V} {d : BlockId} {values : List V},
      ¬ ResumeBlock f d ∨ (f.parametersOf d).length = values.length →
      c.function.enter env d values = f.enter env d values := by
    intro env d values hd
    simp only [Function.enter, h.parametersOf]
    rcases hd with hd | hd
    · rw [h.carried_of_not_resume hd, map_nil, append_nil]
    · rw [assign_append_nil hd]
  cases choice with
  | done x => simp only [execStep, h.instructionAt]
  | raise =>
    simp only [execStep, h.instructionAt]
    refine Option.bind_congr fun i hi => ?_
    refine Option.map_congr fun d hd => henter (.inl ?_)
    exact h.not_resume (.raise hi hd) (by simp)
  | edge k =>
    simp only [execStep, h.terminatorAt]
    cases ht : f.terminatorAt config.point with
    | none => rfl
    | some t =>
      obtain ⟨-, -, htargets, hr, -, -⟩ := retainInvalidates_terminator liveIn { id := 0, terminator := t }
      simp only [Option.map_some, Option.bind_some, hr, htargets]
      cases hres : t.resume? with
      | some d => rfl
      | none =>
        refine Option.map_congr fun target htarget => henter (.inl ?_)
        exact h.not_resume (.jump ht hres (mem_successors_of_target htarget)) (by simp)
  | resume x =>
    simp only [execStep, h.terminatorAt]
    cases ht : f.terminatorAt config.point with
    | none => rfl
    | some t =>
      cases t with
      | suspend sus =>
        obtain ⟨block, hb, -, hblock⟩ := terminatorAt_eq_some.mp ht
        have hpass := h.ssa.edges.passes hb sus.successor _ (by rw [hblock]; exact mem_singleton.mpr rfl)
        refine congrArg some (henter (.inr ?_))
        rw [← hpass.2]
        simp [Suspend.passed]
      | _ => rfl

theorem sameReads : SameReads f c.function := by
  intro V constant env choices
  have hexec : exec c.function constant choices (c.function.initial env) = exec f constant choices (f.initial env) := by
    have hstep : execStep c.function constant = execStep f constant := by
      funext config choice
      exact h.execStep_eq constant config choice
    simp only [exec, hstep, Function.initial, h.inv.frame.entry]
  rw [hexec]
  cases exec f constant choices (f.initial env) with
  | none => exact .none
  | some config =>
    refine .some ⟨rfl, fun i j group operand hgroup hop => ⟨group, operand, ?_, hop, rfl⟩⟩
    rwa [h.operandGroups]

end Started

end Start

end Subscript.Lir
