import Subscript.Lir.ThreadingCarry

/-! One origin in `thread_suspension_live_ins`: what its rewriting makes of a function, point by point. -/

namespace Subscript.Lir

open List

/-- What stays the same for all origins. -/
structure Setting (f : Function) (liveIn : LiveSets) (carried : Carried) (G : VersionGraph) : Prop where
  ssa : Ssa f
  threadable : Threadable f
  resumed : ResumedOnly f
  live : ∀ b v, v ∈ liveIn.of b ↔ LiveIn f f.values.length v b
  graph : G.Describes f.Edge f.entry
  count : G.count = f.blocks.length
  special : ∀ o b, (carried.parameter o b).isSome ↔ ResumeBlock f b ∧ LiveIn f f.values.length o b
  le_special : ∀ {o b w}, carried.parameter o b = some w → f.values.length ≤ w
  special_inj : ∀ {o o' b b' w}, carried.parameter o b = some w → carried.parameter o' b' = some w → o = o' ∧ b = b'

/-- The function between two origins; `R` are those still to come. Their reads are as in `f`, and the
parameters that carry them are not passed and not read yet. -/
structure Stage (f : Function) (carried : Carried) (R : List ValueId) (g : Function) : Prop where
  frame : f.SameFrame g
  shape : f.SameShape g
  structured : g.Structured
  le : f.values.length ≤ g.values.length
  parameters : ∀ b, ∃ extra, g.parametersOf b = f.parametersOf b ++ extra ∧ ∀ v ∈ extra, f.values.length ≤ v
  carriedIn : ∀ {o b w}, carried.parameter o b = some w → w ∈ g.parametersOf b
  reads : ∀ p, ∀ o ∈ R, o ∈ g.readsAt p → o ∈ f.readsAt p
  unread : ∀ p, ∀ o ∈ R, ∀ b w, carried.parameter o b = some w → w ∉ g.readsAt p
  normal : ∀ {b : BlockId} {block : BasicBlock}, g.blocks[b]? = some block → block.terminator.resume? = none →
    ∀ d n, (d, n) ∈ block.terminator.passes → n = (g.parametersOf d).length
  suspended : ∀ {b : BlockId} {block : BasicBlock}, g.blocks[b]? = some block → block.terminator.resume?.isSome →
    ∀ d n, (d, n) ∈ block.terminator.passes → ∃ pre, g.parametersOf d = pre ++ R.filterMap (carried.parameter · d) ∧
      n = pre.length
  handlers : ∀ {b h : BlockId} {block : BasicBlock}, g.blocks[b]? = some block →
    h ∈ block.instructions.filterMap Instruction.handler → g.parametersOf h = []
  since : ∀ τ q, Run f τ q → ∀ v ∈ g.readsAt q, v ∉ R → ∃ e ∈ sinceSuspend τ, v ∈ g.defines e

section Parameters

variable {f g : Function} {b : BlockId} {v : ValueId}

theorem defines_enter (f : Function) (b : BlockId) : f.defines (.enter b) = f.parametersOf b := rfl

variable {block : BasicBlock}

theorem parametersOf_of (hb : f.blocks[b]? = some block) : f.parametersOf b = block.parameters := by
  simp [Function.parametersOf, hb]

variable {e : Event}

theorem Function.Structured.declared_event (hf : f.Structured) (he : v ∈ f.defines e) : v < f.values.length := by
  obtain ⟨s, -, hs⟩ := exists_site hf.toIndexed he
  exact hf.declared hs

theorem Function.Structured.lt_of_parametersOf (hf : f.Structured) (hv : v ∈ f.parametersOf b) : v < f.values.length :=
  hf.declared_event (e := .enter b) hv

variable {block' : BasicBlock}

theorem results_of_shape (h : block.shape = block'.shape) (k : Nat) :
    (block.instructions.take k).filterMap Instruction.result = (block'.instructions.take k).filterMap Instruction.result := by
  have := congrArg (fun l => (l.take k).filterMap id) (Function.SameShape.results h)
  simpa [filterMap_map, ← map_take] using this

theorem allResults_of_shape (h : block.shape = block'.shape) :
    block.instructions.filterMap Instruction.result = block'.instructions.filterMap Instruction.result := by
  simpa [filterMap_map] using congrArg (List.filterMap id) (Function.SameShape.results h)

/-- a function with more block parameters defines more -/
theorem Function.SameShape.defines_subset (h : f.SameShape g) (hparams : g.parameters = f.parameters)
    (hblocks : ∀ b, f.parametersOf b ⊆ g.parametersOf b) (hv : v ∈ f.defines e) : v ∈ g.defines e := by
  cases e with
  | start =>
    simp only [Function.defines, hparams]
    exact hv
  | enter b => exact hblocks b hv
  | done b j => rwa [h.defines_done]
  | suspend => exact hv

end Parameters

section Facts

variable {f g : Function} {liveIn : LiveSets} {carried : Carried} {G : VersionGraph} {R : List ValueId} {o : ValueId}

theorem takeWhile_lt_append {l l' : List Nat} {n : Nat} (h : ∀ v ∈ l, v < n) (h' : ∀ v ∈ l', n ≤ v) :
    (l ++ l').takeWhile (· < n) = l := by
  rw [takeWhile_append_of_pos fun v hv => decide_eq_true (h v hv)]
  cases l' with
  | nil => simp
  | cons v l' => simp [Nat.not_lt.mpr (h' v mem_cons_self)]

/-- the facts read off the rewritten function are those of the original -/
theorem Setting.facts (hS : Setting f liveIn carried G) (hg : Stage f carried R g) :
    (originFacts g f.values.length liveIn carried o).Of f where
  live b := by
    simp only [originFacts, decide_eq_true_eq]
    exact hS.live b o
  entryDefinition := by
    intro b block hb
    obtain ⟨block', hb', heq⟩ := hg.shape.block hb
    obtain ⟨extra, hparams, hextra⟩ := hg.parameters b
    rw [parametersOf_of hb, parametersOf_of hb'] at hparams
    have hlt : ∀ v ∈ block.parameters, v < f.values.length := fun v hv =>
      hS.ssa.lt_of_parametersOf (b := b) (by rwa [parametersOf_of hb])
    simp only [originFacts, hb', Option.any_some, hparams, takeWhile_lt_append hlt hextra, Bool.or_eq_true,
      any_eq_true, decide_eq_true_eq, Bool.and_eq_true, hg.frame.entry, hg.frame.parameters,
      hg.structured.block hb', mem_map]
    simp
  instructionDefinition := by
    intro b block hb
    obtain ⟨block', hb', heq⟩ := hg.shape.block hb
    have hfilter := allResults_of_shape heq
    simp only [originFacts, hb', Option.any_some, ← hfilter, any_eq_true, decide_eq_true_eq, mem_filterMap]
  special b := hS.special o b

end Facts

section One

variable {f g g' : Function} {G : VersionGraph} {O : OriginFacts} {s : Versions} {k : ValueId}
variable {p : Point} {τ : List Event} {b : BlockId} {v : ValueId}

/-- `g'` is `g` after the rewriting of one origin -/
structure Threads (G : VersionGraph) (O : OriginFacts) (s : Versions) (g g' : Function) : Prop where
  frame : g.SameFrame g'
  blocks : g'.blocks = g.blocks.mapIdx (threadedBlock G O s)
  values : g'.values.length = s.fresh

theorem threadedBlock_shape (G : VersionGraph) (O : OriginFacts) (s : Versions) (b : BlockId) (block : BasicBlock) :
    (threadedBlock G O s b block).shape = block.shape := by
  simp only [threadedBlock, BasicBlock.shape, Terminator.passing_successors, Terminator.passing_resume]
  cases G.reachable b with
  | false => rfl
  | true =>
    simp only [if_true, rewrittenBlock, replaceTerminatorUses, Terminator.mapValues_successors,
      Terminator.mapValues_resume]
    congr 1
    refine ext_getElem? fun j => ?_
    rw [getElem?_map, getElem?_map, getElem?_mapIdx, Option.map_map]
    rfl

namespace Threads

theorem block (h : Threads G O s g g') {block : BasicBlock} (hb : g.blocks[b]? = some block) :
    g'.blocks[b]? = some (threadedBlock G O s b block) := by
  rw [h.blocks, getElem?_mapIdx, hb]
  rfl

theorem shape (h : Threads G O s g g') : g.SameShape g' := by
  refine ⟨h.frame.entry, h.frame.parameters, ?_⟩
  rw [h.blocks]
  refine ext_getElem? fun b => ?_
  rw [getElem?_map, getElem?_map, getElem?_mapIdx, Option.map_map]
  cases g.blocks[b]? with
  | none => rfl
  | some block => exact congrArg some (threadedBlock_shape G O s b block)

theorem parametersOf (h : Threads G O s g g') (hb : b < g.blocks.length) :
    g'.parametersOf b = g.parametersOf b ++ (s.merges.of b).toList := by
  have hget := getElem?_eq_getElem hb
  rw [parametersOf_of (h.block hget), parametersOf_of hget]
  rfl

end Threads

/-- the version that the rewriting has reached in a block is the one of the point -/
theorem versionAfter_eq (hshape : f.SameShape g) {block : BasicBlock} (hb : g.blocks[b]? = some block)
    (j : Nat) : versionAfter O.origin (if O.entryDefinition b then some O.origin else s.incoming.of b)
      (block.instructions.take j) = versionAt f O s ⟨b, j⟩ := by
  obtain ⟨block₀, hb₀, heq⟩ := hshape.symm.block hb
  rw [versionAfter, versionAt, Function.resultsBefore_of (p := ⟨b, j⟩) hb₀, results_of_shape heq]

/-- the map on values at a point -/
def renameAt (f : Function) (G : VersionGraph) (O : OriginFacts) (s : Versions) (p : Point) : ValueId → ValueId :=
  if G.reachable p.block then replaceId O.origin (versionAt f O s p) else id

theorem renameAt_of_ne (hv : v ≠ O.origin) : renameAt f G O s p v = v := by
  unfold renameAt replaceId
  split_ifs
  · split
    · exact if_neg hv
    · rfl
  · rfl

theorem renameAt_origin (hr : G.reachable p.block = true) (hv : versionAt f O s p = some v) :
    renameAt f G O s p O.origin = v := by
  simp [renameAt, hr, hv, replaceId]

namespace Threads

theorem mapValue_id : Operand.mapValue id = id := by
  funext o
  cases o <;> rfl

theorem mapValues_id (t : Terminator) : t.mapValues id = t := by
  have htarget : ∀ target : BlockTarget, target.mapValues id = target := fun target => by
    simp [BlockTarget.mapValues, mapValue_id]
  cases t with
  | «return» value => cases value <;> simp [Terminator.mapValues, mapValue_id]
  | suspend s =>
    have hkind : s.kind.mapValues id = s.kind := by
      cases s.kind with
      | yield value => cases value <;> rfl
      | _ => simp [SuspendKind.mapValues]
    simp [Terminator.mapValues, hkind, mapValue_id]
  | _ => simp [Terminator.mapValues, mapValue_id, htarget]

theorem instructionAt (h : Threads G O s g g') (hshape : f.SameShape g) {i : Instruction}
    (hi : g.instructionAt p = some i) : ∃ i', g'.instructionAt p = some i' ∧ i'.result = i.result ∧
      i'.handler = i.handler ∧ i'.operands = i.operands.map (Operand.mapValue (renameAt f G O s p)) := by
  obtain ⟨block, hb, hi⟩ := instructionAt_eq_some.mp hi
  have hat : ∀ {i' : Instruction}, (threadedBlock G O s p.block block).instructions[p.index]? = some i' →
      g'.instructionAt p = some i' := fun hi' => instructionAt_eq_some.mpr ⟨_, h.block hb, hi'⟩
  unfold threadedBlock at hat
  cases hr : G.reachable p.block with
  | false =>
    rw [hr] at hat
    exact ⟨i, hat hi, rfl, rfl, by simp [renameAt, hr, mapValue_id]⟩
  | true =>
    rw [hr] at hat
    refine ⟨i.rewrite O.origin (versionAt f O s p), hat ?_, rfl, rfl, by simp [renameAt, hr]; rfl⟩
    simp only [if_true, rewrittenBlock, getElem?_mapIdx, hi, Option.map_some]
    rw [versionAfter_eq hshape hb]

theorem terminatorAt (h : Threads G O s g g') (hshape : f.SameShape g) {t : Terminator}
    (ht : g.terminatorAt p = some t) :
    g'.terminatorAt p = some ((t.mapValues (renameAt f G O s p)).passing (passedArgs G O s p.block t)) := by
  obtain ⟨block, hb, hlen, rfl⟩ := terminatorAt_eq_some.mp ht
  have hlen' : (threadedBlock G O s p.block block).instructions.length = p.index := by
    rw [← hlen]
    exact Function.SameShape.instructions_length (threadedBlock_shape G O s p.block block)
  refine terminatorAt_eq_some.mpr ⟨_, h.block hb, hlen', ?_⟩
  unfold threadedBlock renameAt
  cases hr : G.reachable p.block with
  | false =>
    simp [mapValues_id]
  | true =>
    have hv := versionAfter_eq (O := O) (s := s) hshape hb block.instructions.length
    rw [take_length] at hv
    simp only [if_true, rewrittenBlock, replaceTerminatorUses, hv, hlen]

theorem mem_readsAt (h : Threads G O s g g') (hshape : f.SameShape g) (hv : v ∈ g'.readsAt p) :
    (∃ u ∈ g.readsAt p, renameAt f G O s p u = v) ∨
    ∃ t c, g.terminatorAt p = some t ∧ c ∈ t.successors ∧ .value v ∈ passedArgs G O s p.block t c := by
  unfold Function.readsAt at hv ⊢
  cases hi : g.instructionAt p with
  | some i =>
    obtain ⟨i', hi', -, -, hops⟩ := h.instructionAt hshape hi
    rw [hi'] at hv
    simp only [Instruction.valueUses, hops, filterMap_map, mem_filterMap, Function.comp_apply] at hv
    obtain ⟨operand, hmem, hval⟩ := hv
    cases operand with
    | value u => exact .inl ⟨u, mem_filterMap.mpr ⟨_, hmem, rfl⟩, Option.some.inj hval⟩
    | constant c => exact absurd hval (by simp [Operand.mapValue, Operand.value?])
  | none =>
    rw [h.shape.instruction_none hi] at hv
    cases ht : g.terminatorAt p with
    | none => simp [h.shape.terminator_none ht] at hv
    | some t =>
      simp only [h.terminatorAt hshape ht, Option.map_some, Option.getD_some] at hv ⊢
      rcases Terminator.mem_passing_valueUses hv with hv | ⟨c, hc, hv⟩
      · exact .inl (Terminator.valueUses_mapValues hv)
      · exact .inr ⟨t, c, rfl, by rwa [Terminator.mapValues_successors] at hc, hv⟩

end Threads

/-- a version of the origin: the origin itself or a new parameter for it -/
def IsVersion (O : OriginFacts) (s : Versions) (v : ValueId) : Prop :=
  v = O.origin ∨ (∃ c, O.special c = some v) ∨ ∃ c, s.merges.of c = some v

theorem mem_passedArgs {t : Terminator} {c : BlockId} (h : .value v ∈ passedArgs G O s b t c) :
    s.outgoing.of b = some v ∧ ((t.resume?.isSome ∧ (O.special c).isSome) ∨
      (t.resume? = none ∧ (s.merges.of c).isSome ∧ G.reachable b = true)) := by
  unfold passedArgs at h
  cases hr : t.resume? with
  | some d =>
    simp only [hr] at h
    split_ifs at h with hsp
    · exact ⟨by simpa using h, .inl ⟨rfl, hsp⟩⟩
    · exact absurd h not_mem_nil
  | none =>
    simp only [hr, mergeArgs] at h
    split_ifs at h with hm
    · exact ⟨by simpa using h, .inr ⟨rfl, hm⟩⟩
    · exact absurd h not_mem_nil

theorem versionAt_isVersion (hinv : VersionsInv G O k s) (h : versionAt f O s p = some v) : IsVersion O s v := by
  unfold versionAt at h
  split_ifs at h
  · exact .inl (Option.some.inj h).symm
  · exact .inl (Option.some.inj h).symm
  · exact hinv.known (.inl h)

/-- the new reads are versions -/
theorem Threads.mem_readsAt_isVersion (h : Threads G O s g g') (hshape : f.SameShape g)
    (hinv : VersionsInv G O k s) (hv : v ∈ g'.readsAt p) : v ∈ g.readsAt p ∨ IsVersion O s v := by
  rcases h.mem_readsAt hshape hv with ⟨u, hu, rfl⟩ | ⟨t, c, -, -, hmem⟩
  · unfold renameAt
    split_ifs
    · unfold replaceId
      split
      · rename_i r hr
        split_ifs
        · exact .inr (versionAt_isVersion hinv hr)
        · exact .inl hu
      · exact .inl hu
    · exact .inl hu
  · exact .inr (hinv.known (.inr (mem_passedArgs hmem).1))

namespace Versioned

variable {c : BlockId}

section

variable (h : Versioned f G O k s)

include h

/-- what is passed for the origin is its version, at a point where it is live -/
theorem passed_live {t : Terminator} (ht : f.terminatorAt p = some t)
    (hc : c ∈ t.successors) (hin : LiveIn f f.values.length O.origin c) : Live f p O.origin := by
  obtain ⟨ε, hs, hε⟩ := Step.of_successor ht hc
  exact .of_enter hs hε (hin.live h.ssa.toStructured)

theorem liveIn_of_merges (hm : (s.merges.of c).isSome) :
    LiveIn f f.values.length O.origin c := by
  obtain ⟨m, hm⟩ := Option.isSome_iff_exists.mp hm
  exact (h.facts.live c).mp (h.inv.merge hm).2.2.2.1

theorem liveIn_of_special (hsp : (O.special c).isSome) :
    LiveIn f f.values.length O.origin c := ((h.facts.special c).mp hsp).2

theorem merges_of_resume (hc : ResumeBlock f c) : s.merges.of c = none := by
  cases hm : s.merges.of c with
  | none => rfl
  | some m =>
    have hsome := (h.facts.special c).mpr ⟨hc, h.liveIn_of_merges (by rw [hm]; rfl)⟩
    rw [(h.inv.merge hm).2.2.2.2.1] at hsome
    exact absurd hsome (by simp)

end

variable {block : BasicBlock}

theorem merges_of_handler (h : Versioned f G O k s) (hb : f.blocks[b]? = some block)
    (hc : c ∈ block.instructions.filterMap Instruction.handler) : s.merges.of c = none := by
  cases hm : s.merges.of c with
  | none => rfl
  | some m =>
    exact absurd hc (h.threadable.handlers (h.joins hm) hb)

/-- at the end of a reached block the version that leaves it is there if some target takes it -/
theorem outgoing_isSome (h : Versioned f G O k s) (hb : f.blocks[b]? = some block)
    (hr : Flow.Reachable f.Edge f.entry b) (hc : c ∈ block.terminator.successors)
    (hin : LiveIn f f.values.length O.origin c) : (s.outgoing.of b).isSome := by
  obtain ⟨l, hpath⟩ := hr
  obtain ⟨τ, hrun, -⟩ := Run.of_path hpath
  obtain ⟨σ, hw, -⟩ := Walk.to_index hb le_rfl
  have hrun' := hrun.trans hw
  obtain ⟨w, hv, -⟩ := h.given hrun' (h.passed_live (terminatorAt_end hb) hc hin)
  have hlt : b < f.blocks.length := (List.getElem?_eq_some_iff.mp hb).1
  rw [h.outgoing_eq hb (h.reachable hrun hlt), hv]
  rfl

end Versioned

end One

section Reads

variable {f : Function} {b : BlockId} {v : ValueId}

theorem exists_readsAt {block : BasicBlock} (hb : f.blocks[b]? = some block) (hv : v ∈ block.valueUses) :
    ∃ j, v ∈ f.readsAt ⟨b, j⟩ := by
  rcases mem_append.mp hv with hv | hv
  · obtain ⟨i, hi, hv⟩ := mem_flatMap.mp hv
    obtain ⟨j, hj⟩ := mem_iff_getElem?.mp hi
    exact ⟨j, by rwa [readsAt_instruction hb hj]⟩
  · exact ⟨_, by rwa [readsAt_terminator hb]⟩

end Reads

section Definitions

variable {f g g' : Function} {G : VersionGraph} {O : OriginFacts} {s : Versions} {k : ValueId}

theorem perm_flatMap_mapIdx {α β : Type*} {l : List α} {h : Nat → α → α} {F : α → List β} {E : Nat → List β}
    (hF : ∀ b x, (F (h b x)).Perm (F x ++ E b)) :
    ((l.mapIdx h).flatMap F).Perm (l.flatMap F ++ (List.range l.length).flatMap E) := by
  induction l using List.reverseRecOn with
  | nil => simp
  | append_singleton l x ih =>
    rw [mapIdx_concat, flatMap_append, flatMap_append, length_append, length_singleton,
      range_succ, flatMap_append, flatMap_singleton, flatMap_singleton, flatMap_singleton]
    refine (ih.append (hF l.length x)).trans ?_
    rw [append_assoc, append_assoc]
    refine List.Perm.append_left _ ?_
    rw [← append_assoc, ← append_assoc]
    exact perm_append_comm.append_right _

/-- the merge parameters are the new numbers -/
theorem VersionsInv.perm_merges (hinv : VersionsInv G O k s) (hlt : ∀ {b}, G.reachable b = true → b < G.count) :
    ((List.range G.count).flatMap fun b => (s.merges.of b).toList).Perm (List.range' k (s.fresh - k)) := by
  refine (perm_ext_iff_of_nodup ?_ nodup_range').mpr fun v => ?_
  · rw [nodup_flatMap]
    refine ⟨fun b _ => ?_, ?_⟩
    · cases s.merges.of b <;> simp
    · refine nodup_range.imp_of_mem fun {a b} _ _ hne => ?_
      intro v hv hv'
      exact hne (hinv.merge_inj (by simpa using hv) (by simpa using hv'))
  · simp only [mem_flatMap, mem_range, Option.mem_toList, mem_range'_1,
      Nat.add_sub_cancel' hinv.le_fresh]
    constructor
    · rintro ⟨b, -, hm⟩
      exact ⟨(hinv.merge hm).1, (hinv.merge hm).2.1⟩
    · rintro ⟨hle, hlt'⟩
      obtain ⟨b, hb⟩ := hinv.merge_surj hle hlt'
      exact ⟨b, hlt (hinv.merge hb).2.2.1, hb⟩

theorem Threads.perm (h : Threads G O s g g') (hg : g.Structured) (hcount : G.count = g.blocks.length)
    (hinv : VersionsInv G O g.values.length s) (hlt : ∀ {b}, G.reachable b = true → b < G.count) :
    (definedValues g').Perm (List.range g'.values.length) := by
  have hsplit : (definedValues g').Perm
      (definedValues g ++ (List.range g.blocks.length).flatMap fun b => (s.merges.of b).toList) := by
    rw [definedValues, definedValues, h.blocks, h.frame.parameters, append_assoc]
    refine List.Perm.append_left _ (perm_flatMap_mapIdx fun b block => ?_)
    rw [allResults_of_shape (threadedBlock_shape G O s b block)]
    simp only [threadedBlock, append_assoc]
    exact perm_append_comm.append_left _
  refine hsplit.trans ?_
  rw [← hcount]
  refine (hg.perm.append (hinv.perm_merges hlt)).trans ?_
  rw [h.values, range_eq_range', range_eq_range']
  have hconcat := range'_append_1 (s := 0) (m := g.values.length) (n := s.fresh - g.values.length)
  rw [Nat.zero_add, Nat.add_sub_cancel' hinv.le_fresh] at hconcat
  rw [hconcat]

end Definitions

section Next

variable {f g g' : Function} {liveIn : LiveSets} {carried : Carried} {G : VersionGraph} {R : List ValueId}
variable {O : OriginFacts} {s : Versions} {v : ValueId}

theorem Stage.defines_subset (hg : Stage f carried R g) {e : Event} (hv : v ∈ f.defines e) : v ∈ g.defines e := by
  refine hg.shape.defines_subset hg.frame.parameters (fun b => ?_) hv
  obtain ⟨extra, hparams, -⟩ := hg.parameters b
  rw [hparams]
  exact subset_append_left _ _

variable {d : BlockId}

/-- the passes of a threaded block -/
theorem mem_passes {b : BlockId} {n : Nat} {block : BasicBlock}
    (hmem : (d, n) ∈ (threadedBlock G O s b block).terminator.passes) :
    ∃ m, (d, m) ∈ block.terminator.passes ∧ n = m + (passedArgs G O s b block.terminator d).length := by
  simp only [threadedBlock, Terminator.passing_passes] at hmem
  have hpasses : (if G.reachable b = true then rewrittenBlock O s b block else block).terminator.passes =
      block.terminator.passes := by
    split_ifs
    · exact Terminator.mapValues_passes
    · rfl
  rw [hpasses] at hmem
  obtain ⟨⟨d', m⟩, hm, heq⟩ := mem_map.mp hmem
  obtain ⟨rfl, rfl⟩ := Prod.mk.inj heq
  exact ⟨m, hm, rfl⟩

theorem mem_successors_of_passes {n : Nat} {t : Terminator} (h : (d, n) ∈ t.passes) : d ∈ t.successors := by
  cases t with
  | suspend sus =>
    obtain ⟨rfl, -⟩ := Prod.mk.inj (mem_singleton.mp h)
    exact mem_singleton.mpr rfl
  | _ =>
    obtain ⟨target, htarget, heq⟩ := mem_map.mp h
    obtain ⟨rfl, -⟩ := Prod.mk.inj heq
    exact mem_map.mpr ⟨target, htarget, rfl⟩

/-- The rewriting of the first of the remaining origins. -/
structure NextOrigin (f : Function) (liveIn : LiveSets) (carried : Carried) (G : VersionGraph) (O : OriginFacts)
    (R : List ValueId) (s : Versions) (g g' : Function) : Prop where
  setting : Setting f liveIn carried G
  stage : Stage f carried (O.origin :: R) g
  versioned : Versioned f G O g.values.length s
  special : O.special = carried.parameter O.origin
  threads : Threads G O s g g'
  /-- the remaining origins are values of the original function, and different -/
  lt : ∀ v ∈ O.origin :: R, v < f.values.length
  nodup : O.origin ∉ R

namespace NextOrigin

variable (h : NextOrigin f liveIn carried G O R s g g')

include h

/-- a version is the origin, a parameter that carries it, or a new number -/
theorem version_cases (hv : IsVersion O s v) :
    v = O.origin ∨ (∃ c, carried.parameter O.origin c = some v ∧ f.values.length ≤ v ∧ v < g.values.length) ∨
      g.values.length ≤ v ∧ v < s.fresh := by
  rcases hv with rfl | ⟨c, hc⟩ | ⟨c, hc⟩
  · exact .inl rfl
  · rw [h.special] at hc
    exact .inr (.inl ⟨c, hc, h.setting.le_special hc, h.stage.structured.lt_of_parametersOf (h.stage.carriedIn hc)⟩)
  · exact .inr (.inr ⟨(h.versioned.inv.merge hc).1, (h.versioned.inv.merge hc).2.1⟩)

theorem not_version (hv : v ∈ R) : ¬ IsVersion O s v := by
  intro hversion
  have hlt := h.lt v (mem_cons_of_mem _ hv)
  rcases h.version_cases hversion with rfl | ⟨c, -, hle, -⟩ | ⟨hle, -⟩
  · exact h.nodup hv
  · exact absurd hlt (Nat.not_lt.mpr hle)
  · exact absurd hlt (Nat.not_lt.mpr (Nat.le_trans h.stage.le hle))

variable {b : BlockId}

theorem carried_not_version {o : ValueId} (ho : o ∈ R) (hv : carried.parameter o b = some v) : ¬ IsVersion O s v := by
  intro hversion
  rcases h.version_cases hversion with rfl | ⟨c, hc, -, -⟩ | ⟨hle, -⟩
  · exact absurd (h.lt _ mem_cons_self) (Nat.not_lt.mpr (h.setting.le_special hv))
  · obtain ⟨rfl, -⟩ := h.setting.special_inj hv hc
    exact h.nodup ho
  · exact absurd (h.stage.structured.lt_of_parametersOf (h.stage.carriedIn hv)) (Nat.not_lt.mpr hle)

theorem shape : f.SameShape g' := h.stage.shape.trans h.threads.shape

theorem readsAt {p : Point} (hv : v ∈ g'.readsAt p) :
    v ∈ g.readsAt p ∨ IsVersion O s v :=
  h.threads.mem_readsAt_isVersion h.stage.shape h.versioned.inv hv

theorem count : G.count = g.blocks.length :=
  h.versioned.count.trans h.stage.shape.length.symm

theorem structured : g'.Structured := by
  refine structured_of_perm (h.threads.shape.indexed h.stage.structured.toIndexed h.threads.frame.locals) ?_
    (h.threads.perm h.stage.structured h.count h.versioned.inv h.versioned.graph.lt)
  · intro block hblock v hv
    obtain ⟨b, hb⟩ := mem_iff_getElem?.mp hblock
    obtain ⟨j, hread⟩ := exists_readsAt hb hv
    rw [h.threads.values]
    rcases h.readsAt hread with hread | hversion
    · exact Nat.lt_of_lt_of_le (h.stage.structured.lt_of_readsAt hread) h.versioned.inv.le_fresh
    · rcases h.version_cases hversion with rfl | ⟨c, -, -, hlt⟩ | ⟨-, hlt⟩
      · exact Nat.lt_of_lt_of_le (h.lt _ mem_cons_self) (Nat.le_trans h.stage.le h.versioned.inv.le_fresh)
      · exact Nat.lt_of_lt_of_le hlt h.versioned.inv.le_fresh
      · exact hlt

theorem parametersOf (b : BlockId) :
    g'.parametersOf b = g.parametersOf b ++ (s.merges.of b).toList := by
  by_cases hb : b < g.blocks.length
  · exact h.threads.parametersOf hb
  · have hnone : g.blocks[b]? = none := getElem?_eq_none (Nat.le_of_not_lt hb)
    have hnone' := h.threads.shape.block_none hnone
    have hmerge : s.merges.of b = none := by
      cases hm : s.merges.of b with
      | none => rfl
      | some m => exact absurd (h.count ▸ h.versioned.graph.lt (h.versioned.inv.merge hm).2.2.1) hb
    simp [Function.parametersOf, hnone, hnone', hmerge]

theorem defines_subset {e : Event} (hv : v ∈ g.defines e) :
    v ∈ g'.defines e := by
  refine h.threads.shape.defines_subset h.threads.frame.parameters (fun b => ?_) hv
  rw [h.parametersOf]
  exact subset_append_left _ _

/-- an event that gives a version defines it in the rewritten function -/
theorem defines_of_gives {e : Event}
    (hv : Versioned.Gives f O s v e) : v ∈ g'.defines e := by
  rcases hv with ⟨rfl, hdef⟩ | ⟨c, rfl, hsp | hm⟩
  · exact h.defines_subset (h.stage.defines_subset hdef)
  · rw [h.special] at hsp
    exact h.defines_subset (e := .enter c) (h.stage.carriedIn hsp)
  · rw [defines_enter, h.parametersOf, hm]
    exact mem_append_right _ (mem_singleton.mpr rfl)

theorem since {τ : List Event} {q : Point} (hrun : Run f τ q)
    (hv : v ∈ g'.readsAt q) (hR : v ∉ R) : ∃ e ∈ sinceSuspend τ, v ∈ g'.defines e := by
  -- where the origin is live, its version was given since the suspension
  have hgiven : Live f q O.origin → ∃ w, versionAt f O s q = some w ∧ ∃ e ∈ sinceSuspend τ, w ∈ g'.defines e := by
    intro hlive
    obtain ⟨w, hw, e, he, hgives⟩ := h.versioned.given hrun hlive
    exact ⟨w, hw, e, he, h.defines_of_gives hgives⟩
  rcases h.threads.mem_readsAt h.stage.shape hv with ⟨u, hu, rfl⟩ | ⟨t, c, ht, hc, hpassed⟩
  · by_cases huo : u = O.origin
    · subst huo
      obtain ⟨w, hw, hdef⟩ := hgiven (.of_read (h.stage.reads q _ mem_cons_self hu))
      have hlt : q.block < f.blocks.length := by
        obtain ⟨block, hb, -⟩ := readsAt_cases (h.stage.reads q _ mem_cons_self hu)
        exact (List.getElem?_eq_some_iff.mp hb).1
      rwa [renameAt_origin (h.versioned.reachable hrun hlt) hw]
    · rw [renameAt_of_ne huo] at hR ⊢
      obtain ⟨e, he, hdef⟩ := h.stage.since τ q hrun u hu (by simp [huo, hR])
      exact ⟨e, he, h.defines_subset hdef⟩
  · obtain ⟨hout, hcase⟩ := mem_passedArgs hpassed
    obtain ⟨t₀, ht₀, hsucc, -⟩ := h.stage.shape.symm.terminator ht
    have hin : LiveIn f f.values.length O.origin c := by
      rcases hcase with ⟨-, hsp⟩ | ⟨-, hm, -⟩
      · exact h.versioned.liveIn_of_special hsp
      · exact h.versioned.liveIn_of_merges hm
    obtain ⟨w, hw, hdef⟩ := hgiven (h.versioned.passed_live ht₀ (hsucc ▸ hc) hin)
    obtain ⟨block, hb, hlen, -⟩ := terminatorAt_eq_some.mp ht₀
    have hlt : q.block < f.blocks.length := (List.getElem?_eq_some_iff.mp hb).1
    have heq : s.outgoing.of q.block = some w := by
      rw [h.versioned.outgoing_eq hb (h.versioned.reachable hrun hlt), hlen, hw]
    rw [hout] at heq
    rwa [Option.some.inj heq]

variable {block : BasicBlock} {d : BlockId}

theorem normal (hb : g.blocks[b]? = some block) (hres : block.terminator.resume? = none) {n : Nat}
    (hmem : (d, n) ∈ (threadedBlock G O s b block).terminator.passes) : n = (g'.parametersOf d).length := by
  obtain ⟨m, hm, rfl⟩ := mem_passes hmem
  rw [h.stage.normal hb hres d m hm, h.parametersOf, length_append]
  congr 1
  simp only [passedArgs, hres, mergeArgs]
  cases hmerge : s.merges.of d with
  | none => simp
  | some w =>
    obtain ⟨block₀, hb₀, heq⟩ := h.stage.shape.symm.block hb
    have hsucc : block₀.terminator.successors = block.terminator.successors := congrArg BlockShape.successors heq
    have hd : d ∈ block₀.terminator.successors := hsucc ▸ mem_successors_of_passes hm
    have hlt : b < G.count := by
      rw [h.versioned.count]
      exact (List.getElem?_eq_some_iff.mp hb₀).1
    have hrb := h.versioned.threadable.preds (h.versioned.joins hmerge) ⟨block₀, hb₀, mem_append_right _ hd⟩
    have hout := h.versioned.outgoing_isSome hb₀ hrb hd (h.versioned.liveIn_of_merges (by rw [hmerge]; rfl))
    obtain ⟨version, hversion⟩ := Option.isSome_iff_exists.mp hout
    simp [(h.versioned.graph.reachable hlt).mpr hrb, hversion]

theorem suspended {c : BlockId}
    (hb : g.blocks[b]? = some block) (hres : block.terminator.resume? = some c) {n : Nat}
    (hmem : (d, n) ∈ (threadedBlock G O s b block).terminator.passes) :
    ∃ pre, g'.parametersOf d = pre ++ R.filterMap (carried.parameter · d) ∧ n = pre.length := by
  obtain ⟨m, hm, rfl⟩ := mem_passes hmem
  obtain ⟨pre, hparams, rfl⟩ := h.stage.suspended hb (by rw [hres]; rfl) d m hm
  obtain ⟨block₀, hb₀, heq⟩ := h.stage.shape.symm.block hb
  have hres₀ : block₀.terminator.resume? = some c := (congrArg BlockShape.resume heq).trans hres
  have hsucc : block₀.terminator.successors = block.terminator.successors := congrArg BlockShape.successors heq
  have hd : d ∈ block₀.terminator.successors := hsucc ▸ mem_successors_of_passes hm
  obtain rfl := eq_of_resume hres₀ hd
  rw [h.parametersOf, h.versioned.merges_of_resume ⟨b, block₀, hb₀, hres₀⟩, hparams]
  simp only [passedArgs, hres, Option.toList_none, append_nil, filterMap_cons, h.special]
  cases hsp : carried.parameter O.origin d with
  | none => exact ⟨pre, rfl, by simp⟩
  | some w =>
    have hin := h.versioned.liveIn_of_special (c := d) (by rw [h.special, hsp]; rfl)
    have hrb := h.versioned.threadable.suspends hb₀ hres₀ (hin.live h.versioned.ssa.toStructured)
    obtain ⟨version, hversion⟩ := Option.isSome_iff_exists.mp (h.versioned.outgoing_isSome hb₀ hrb hd hin)
    exact ⟨pre ++ [w], by simp, by simp [hversion]⟩

/-- one origin less is left -/
theorem next : Stage f carried R g' where
  frame := h.stage.frame.trans h.threads.frame
  shape := h.shape
  structured := h.structured
  le := h.threads.values ▸ Nat.le_trans h.stage.le h.versioned.inv.le_fresh
  parameters b := by
    obtain ⟨extra, hparams, hextra⟩ := h.stage.parameters b
    refine ⟨extra ++ (s.merges.of b).toList, by rw [h.parametersOf, hparams, append_assoc], ?_⟩
    intro v hv
    rcases mem_append.mp hv with hv | hv
    · exact hextra v hv
    · exact Nat.le_trans h.stage.le (h.versioned.inv.merge (by simpa using hv)).1
  carriedIn hw := by
    rw [h.parametersOf]
    exact mem_append_left _ (h.stage.carriedIn hw)
  reads p o ho hv := by
    rcases h.readsAt hv with hv | hversion
    · exact h.stage.reads p o (mem_cons_of_mem _ ho) hv
    · exact absurd hversion (h.not_version ho)
  unread p o ho b w hw hv := by
    rcases h.readsAt hv with hv | hversion
    · exact h.stage.unread p o (mem_cons_of_mem _ ho) b w hw hv
    · exact h.carried_not_version ho hw hversion
  normal := by
    intro b block' hb' hres d n hmem
    obtain ⟨block, hb, heq⟩ := h.threads.shape.symm.block hb'
    obtain rfl := Option.mem_unique (h.threads.block hb) hb'
    exact h.normal hb ((congrArg BlockShape.resume heq).trans hres) hmem
  suspended := by
    intro b block' hb' hres d n hmem
    obtain ⟨block, hb, heq⟩ := h.threads.shape.symm.block hb'
    obtain rfl := Option.mem_unique (h.threads.block hb) hb'
    obtain ⟨c, hc⟩ := Option.isSome_iff_exists.mp hres
    exact h.suspended hb ((congrArg BlockShape.resume heq).trans hc) hmem
  handlers := by
    intro b c block' hb' hc
    obtain ⟨block, hb, heq⟩ := h.threads.shape.symm.block hb'
    obtain ⟨block₀, hb₀, heq₀⟩ := h.stage.shape.symm.block hb
    rw [← Function.SameShape.handlers heq] at hc
    rw [h.parametersOf, h.stage.handlers hb hc, h.versioned.merges_of_handler hb₀ (by rwa [Function.SameShape.handlers heq₀])]
    rfl
  since τ q hrun v hv hR := h.since hrun hv hR

end NextOrigin

end Next

end Subscript.Lir
