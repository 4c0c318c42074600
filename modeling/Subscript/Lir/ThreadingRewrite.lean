import Subscript.Lir.Threading
import Subscript.Lir.VersionsSound

/-! What the rewriting of one origin does to each block (`thread_suspension_live_ins`, after the loop): the
operands get the version of their point, merging blocks a parameter, and each terminator passes the version
on to the targets that take it. -/

namespace Subscript.Lir

open List

section Passing

def BlockTarget.passing (args : BlockId → List Operand) (target : BlockTarget) : BlockTarget :=
  { target with
    arguments := target.arguments ++ args target.block
    ownership := target.ownership ++ (args target.block).map fun _ => false }

/-- further arguments for each target -/
def Terminator.passing (args : BlockId → List Operand) : Terminator → Terminator
  | branch target => branch (target.passing args)
  | conditionalBranch condition thenTarget elseTarget =>
    conditionalBranch condition (thenTarget.passing args) (elseTarget.passing args)
  | switch value arms default =>
    switch value (arms.map fun arm => { arm with target := arm.target.passing args }) (default.passing args)
  | «return» value => «return» value
  | unreachable => unreachable
  | trap t => trap t
  | suspend s =>
    suspend { s with
      arguments := s.arguments ++ args s.successor
      ownership := s.ownership ++ (args s.successor).map fun _ => false }

variable {args : BlockId → List Operand} {map : ValueId → ValueId} {t : Terminator} {v : ValueId}

namespace Terminator

theorem passing_targets : (t.passing args).targets = t.targets.map (BlockTarget.passing args) := by
  cases t <;> simp [passing, targets, BlockTarget.passing, Function.comp_def]

theorem mapValues_targets : (t.mapValues map).targets = t.targets.map (BlockTarget.mapValues map) := by
  cases t <;> simp [mapValues, targets, BlockTarget.mapValues, Function.comp_def]

theorem passing_successors : (t.passing args).successors = t.successors := by
  rw [successors, passing_targets, map_map]
  rfl

theorem mapValues_successors : (t.mapValues map).successors = t.successors := by
  rw [successors, mapValues_targets, map_map]
  rfl

theorem passing_resume : (t.passing args).resume? = t.resume? := by
  cases t <;> rfl

theorem mapValues_resume : (t.mapValues map).resume? = t.resume? := by
  cases t <;> rfl

theorem passing_passes : (t.passing args).passes = t.passes.map fun p => (p.1, p.2 + (args p.1).length) := by
  cases t <;> simp [passing, passes, targets, BlockTarget.passing, Function.comp_def, Nat.add_assoc]

theorem mapValues_passes : (t.mapValues map).passes = t.passes := by
  cases t <;> simp [mapValues, passes, targets, BlockTarget.mapValues, Function.comp_def]

theorem passing_groups (args : BlockId → List Operand) {i : Nat} {group : List Operand} (h : t.operandGroups[i]? = some group) :
    ∃ extra, (t.passing args).operandGroups[i]? = some (group ++ extra) := by
  cases t with
  | branch target =>
    obtain ⟨rfl, rfl⟩ : i = 0 ∧ target.arguments = group := by simpa [operandGroups, getElem?_singleton] using h
    exact ⟨_, rfl⟩
  | conditionalBranch condition thenTarget elseTarget =>
    match i, h with
    | 0, h =>
      obtain rfl := Option.some.inj h
      exact ⟨[], rfl⟩
    | 1, h =>
      obtain rfl := Option.some.inj h
      exact ⟨_, rfl⟩
    | 2, h =>
      obtain rfl := Option.some.inj h
      exact ⟨_, rfl⟩
  | switch value arms default =>
    match i, h with
    | 0, h =>
      obtain rfl := Option.some.inj h
      exact ⟨[], rfl⟩
    | i + 1, h =>
      simp only [operandGroups, getElem?_cons_succ, getElem?_append, length_map] at h
      simp only [operandGroups, passing, getElem?_cons_succ, getElem?_append, length_map]
      split_ifs at h ⊢ with hi
      · rw [getElem?_map, Option.map_eq_some_iff] at h
        obtain ⟨arm, harm, rfl⟩ := h
        rw [map_map, getElem?_map, harm]
        exact ⟨_, rfl⟩
      · rw [getElem?_singleton] at h ⊢
        split_ifs at h ⊢ with hz
        obtain rfl := Option.some.inj h
        exact ⟨_, rfl⟩
  | «return» value => exact ⟨[], by rw [append_nil]; exact h⟩
  | suspend s =>
    match i, h with
    | 0, h =>
      obtain rfl := Option.some.inj h
      exact ⟨_, rfl⟩
    | 1, h =>
      obtain rfl := Option.some.inj h
      exact ⟨[], by simp [operandGroups, passing]⟩
  | unreachable => exact absurd h (by simp [operandGroups])
  | trap _ => exact absurd h (by simp [operandGroups])

theorem mapValues_groups : (t.mapValues map).operandGroups = t.operandGroups.map (List.map (Operand.mapValue map)) := by
  cases t with
  | «return» value => cases value <;> rfl
  | suspend s =>
    have hkind : suspendUses (s.kind.mapValues map) = (suspendUses s.kind).map map := by
      cases s.kind with
      | yield value => cases value <;> rfl
      | _ => rfl
    simp [mapValues, operandGroups, hkind, Operand.mapValue, Function.comp_def]
  | _ => simp [mapValues, operandGroups, BlockTarget.mapValues, Function.comp_def]

/-- what a terminator reads, by its operand groups -/
theorem mem_valueUses : v ∈ t.valueUses ↔ ∃ group ∈ t.operandGroups, .value v ∈ group := by
  have hop : ∀ {operands : List Operand}, v ∈ operands.filterMap Operand.value? ↔ .value v ∈ operands := by
    intro operands
    rw [mem_filterMap]
    constructor
    · rintro ⟨operand, hmem, hv⟩
      cases operand with
      | value w => obtain rfl := Option.some.inj hv; exact hmem
      | constant c => exact absurd hv (by simp [Operand.value?])
    · exact fun hmem => ⟨_, hmem, rfl⟩
  cases t with
  | suspend s => simp [valueUses, operandGroups, hop]
  | switch value arms default =>
    simp only [valueUses, operandGroups, hop, mem_cons, mem_append, mem_flatMap, mem_map]
    aesop
  | _ => simp [valueUses, operandGroups, hop]

/-- a terminator that passes more reads what it did and what it passes -/
theorem mem_passing_valueUses (h : v ∈ (t.passing args).valueUses) :
    v ∈ t.valueUses ∨ ∃ c ∈ t.successors, .value v ∈ args c := by
  rw [mem_valueUses] at h
  rw [mem_valueUses]
  cases t with
  | branch target => simpa [passing, operandGroups, BlockTarget.passing, successors, targets] using h
  | conditionalBranch condition thenTarget elseTarget =>
    simp only [passing, operandGroups, BlockTarget.passing, mem_cons, not_mem_nil, or_false,
      exists_eq_or_imp, exists_eq_left, mem_append, successors, targets, map_cons, map_nil] at h ⊢
    tauto
  | switch value arms default =>
    simp only [passing, operandGroups, BlockTarget.passing, mem_cons, not_mem_nil, or_false,
      exists_eq_or_imp, mem_append, successors, targets, map_append, map_map,
      map_cons, map_nil, mem_map, Function.comp_apply] at h ⊢
    aesop
  | suspend s =>
    simp only [passing, operandGroups, mem_cons, not_mem_nil, or_false, exists_eq_or_imp, exists_eq_left,
      mem_append, successors, targets, map_cons, map_nil] at h ⊢
    tauto
  | _ => exact .inl h

theorem valueUses_mapValues (h : v ∈ (t.mapValues map).valueUses) : ∃ w ∈ t.valueUses, map w = v := by
  rw [mem_valueUses, mapValues_groups] at h
  obtain ⟨_, hgroup, hv⟩ := h
  obtain ⟨group, hmem, rfl⟩ := mem_map.mp hgroup
  obtain ⟨operand, hop, heq⟩ := mem_map.mp hv
  cases operand with
  | value w => exact ⟨w, mem_valueUses.mpr ⟨group, hmem, hop⟩, by simpa [Operand.mapValue] using heq⟩
  | constant c => exact absurd heq (by simp [Operand.mapValue])

end Terminator

end Passing

section Instructions

variable {origin : ValueId} {current : Option ValueId}

/-- an instruction that reads the version in the place of the origin -/
def Instruction.rewrite (origin : ValueId) (current : Option ValueId) (i : Instruction) : Instruction :=
  { i with
    operands := replaceOperands origin current i.operands
    invalidates := replaceIds origin current i.invalidates }

/-- the version after the instructions `is`, from the version `current` before them -/
def versionAfter (origin : ValueId) (current : Option ValueId) (is : List Instruction) : Option ValueId :=
  if origin ∈ is.filterMap Instruction.result then some origin else current

theorem versionAfter_cons (i : Instruction) (is : List Instruction) :
    versionAfter origin (if i.result = some origin then some origin else current) is =
      versionAfter origin current (i :: is) := by
  unfold versionAfter
  by_cases hi : i.result = some origin
  · simp [hi]
  · cases hr : i.result with
    | none => simp [hr]
    | some r =>
      have hne : origin ≠ r := fun h => hi (by rw [hr, h])
      simp [hr, hne, hne.symm]

theorem length_replaceAddressBase (values : List Value) (v : ValueId) :
    (replaceAddressBase values v origin current).length = values.length := by
  simp [replaceAddressBase]

theorem rewrite_instructions (origin : ValueId) (is : List Instruction) (r : BlockRewrite) :
    (is.foldl (BlockRewrite.instruction origin) r).instructions =
      r.instructions ++ is.mapIdx (fun j i => i.rewrite origin (versionAfter origin r.current (is.take j))) ∧
    (is.foldl (BlockRewrite.instruction origin) r).current = versionAfter origin r.current is ∧
    (is.foldl (BlockRewrite.instruction origin) r).values.length = r.values.length := by
  induction is generalizing r with
  | nil => simp [versionAfter]
  | cons i is ih =>
    obtain ⟨h₁, h₂, h₃⟩ := ih (r.instruction origin i)
    rw [foldl_cons]
    refine ⟨?_, h₂.trans (versionAfter_cons i is), h₃.trans ?_⟩
    · rw [h₁, mapIdx_cons]
      simp only [BlockRewrite.instruction, versionAfter_cons, take_succ_cons, append_assoc,
        singleton_append, take_zero]
      rfl
    · simp only [BlockRewrite.instruction]
      cases i.result with
      | none => rfl
      | some v => exact length_replaceAddressBase _ _

theorem rewriteBlock_spec (origin : ValueId) (current : Option ValueId) (block : BasicBlock) (values : List Value) :
    (rewriteBlock origin current block values).instructions =
      block.instructions.mapIdx (fun j i => i.rewrite origin (versionAfter origin current (block.instructions.take j))) ∧
    (rewriteBlock origin current block values).current = versionAfter origin current block.instructions ∧
    (rewriteBlock origin current block values).values.length = values.length := by
  have hlength : ∀ (parameters : List ValueId) (values : List Value), (parameters.foldl (fun values p =>
      if p = origin then values else replaceAddressBase values p origin current) values).length = values.length := by
    intro parameters
    induction parameters with
    | nil => exact fun _ => rfl
    | cons p parameters ih =>
      intro values
      rw [foldl_cons, ih]
      split_ifs
      · rfl
      · exact length_replaceAddressBase _ _
  obtain ⟨h₁, h₂, h₃⟩ := rewrite_instructions origin block.instructions
    ⟨block.parameters.foldl (fun values p =>
      if p = origin then values else replaceAddressBase values p origin current) values, current, []⟩
  exact ⟨by simpa [rewriteBlock] using h₁, h₂, h₃.trans (hlength _ _)⟩

end Instructions

section Blocks

variable {G : VersionGraph} {O : OriginFacts} {s : Versions}

/-- the operands of the block with the versions of their points -/
def rewrittenBlock (O : OriginFacts) (s : Versions) (b : BlockId) (block : BasicBlock) : BasicBlock :=
  let current := if O.entryDefinition b then some O.origin else s.incoming.of b
  { block with
    instructions := block.instructions.mapIdx fun j i =>
      i.rewrite O.origin (versionAfter O.origin current (block.instructions.take j))
    terminator := replaceTerminatorUses O.origin (versionAfter O.origin current block.instructions) block.terminator }

/-- the parts of a function that the pass leaves alone -/
structure Function.SameFrame (f g : Function) : Prop where
  entry : g.entry = f.entry
  parameters : g.parameters = f.parameters
  locals : g.locals = f.locals

theorem Function.SameFrame.trans {f g h : Function} (h₁ : f.SameFrame g) (h₂ : g.SameFrame h) : f.SameFrame h :=
  ⟨h₂.entry.trans h₁.entry, h₂.parameters.trans h₁.parameters, h₂.locals.trans h₁.locals⟩

/-- one position after the other is changed -/
theorem mapIdx_lt_succ {α : Type*} (h : Nat → α → α) (l : List α) (n : Nat) :
    (l.mapIdx fun b x => if b < n then h b x else x).modify n (h n) =
      l.mapIdx fun b x => if b < n + 1 then h b x else x := by
  refine ext_getElem? fun b => ?_
  rw [getElem?_modify, getElem?_mapIdx, getElem?_mapIdx]
  cases l[b]? with
  | none => rfl
  | some x =>
    by_cases hb : n = b
    · subst hb
      simp
    · have hlt : b < n + 1 ↔ b < n := by omega
      simp [hb, hlt]

theorem rewriteVisit_spec (t : Threading) (b : BlockId) :
    t.function.SameFrame (rewriteVisit G O s t b).function ∧
    (rewriteVisit G O s t b).function.blocks =
      t.function.blocks.modify b (fun block => if G.reachable b then rewrittenBlock O s b block else block) ∧
    (rewriteVisit G O s t b).function.values.length = t.function.values.length ∧
    (rewriteVisit G O s t b).valueOrigins = t.valueOrigins := by
  unfold rewriteVisit
  split
  · rename_i block hr hb
    obtain ⟨hi, hc, hl⟩ := rewriteBlock_spec O.origin (if O.entryDefinition b then some O.origin else s.incoming.of b)
      block t.function.values
    refine ⟨⟨rfl, rfl, rfl⟩, ?_, hl, rfl⟩
    refine ext_getElem? fun c => ?_
    simp only [hi, hc, hr, if_true]
    by_cases hbc : b = c
    · subst hbc
      obtain ⟨hlt, rfl⟩ := List.getElem?_eq_some_iff.mp hb
      simp [hlt, rewrittenBlock]
    · simp [hbc]
  · rename_i hnot
    refine ⟨⟨rfl, rfl, rfl⟩, ?_, rfl, rfl⟩
    refine ext_getElem? fun c => ?_
    rw [getElem?_modify]
    by_cases hbc : b = c
    · subst hbc
      cases hb : t.function.blocks[b]? with
      | none => rfl
      | some block =>
        have hr : ¬ G.reachable b = true := fun hr => hnot block hr hb
        simp [hr]
    · simp [hbc]

theorem rewrite_fold (t : Threading) (n : Nat) :
    t.function.SameFrame ((List.range n).foldl (rewriteVisit G O s) t).function ∧
    ((List.range n).foldl (rewriteVisit G O s) t).function.blocks = t.function.blocks.mapIdx (fun b block =>
      if b < n then (if G.reachable b then rewrittenBlock O s b block else block) else block) ∧
    ((List.range n).foldl (rewriteVisit G O s) t).function.values.length = t.function.values.length ∧
    ((List.range n).foldl (rewriteVisit G O s) t).valueOrigins = t.valueOrigins := by
  induction n with
  | zero => exact ⟨⟨rfl, rfl, rfl⟩, ext_getElem? fun b => by simp, rfl, rfl⟩
  | succ n ih =>
    obtain ⟨hf, hb, hv, ho⟩ := ih
    rw [range_succ, foldl_append, foldl_cons, foldl_nil]
    obtain ⟨hf', hb', hv', ho'⟩ := rewriteVisit_spec
      ((List.range n).foldl (rewriteVisit G O s) t) n
    refine ⟨hf.trans hf', ?_, hv'.trans hv, ho'.trans ho⟩
    rw [hb', hb]
    exact mapIdx_lt_succ (fun b block => if G.reachable b then rewrittenBlock O s b block else block) _ n

end Blocks

section Edges

variable {G : VersionGraph} {O : OriginFacts} {s : Versions}

/-- further arguments for each target of a terminator that does not suspend -/
def Terminator.passNormal (args : BlockId → List Operand) (t : Terminator) : Terminator :=
  if t.resume?.isSome then t else t.passing args

theorem BlockTarget.passing_nil (target : BlockTarget) : target.passing (fun _ => []) = target := by
  simp [passing]

theorem Terminator.passing_nil (t : Terminator) : t.passing (fun _ => []) = t := by
  cases t <;> simp [passing, BlockTarget.passing_nil]

theorem Terminator.passing_passing (args args' : BlockId → List Operand) (t : Terminator) :
    (t.passing args).passing args' = t.passing fun c => args c ++ args' c := by
  cases t <;> simp [passing, BlockTarget.passing]

theorem Terminator.passNormal_passNormal (args args' : BlockId → List Operand) (t : Terminator) :
    (t.passNormal args).passNormal args' = t.passNormal fun c => args c ++ args' c := by
  unfold passNormal
  by_cases h : t.resume?.isSome
  · simp [h]
  · simp [h, passing_resume, passing_passing]

theorem appendNormalEdgeArgument_eq (d : BlockId) (a : Operand) (t : Terminator) :
    appendNormalEdgeArgument d a t = t.passNormal fun c => if c = d then [a] else [] := by
  have happend : ∀ target : BlockTarget, target.append d a = target.passing fun c => if c = d then [a] else [] := by
    intro target
    by_cases h : target.block = d <;> simp [BlockTarget.append, BlockTarget.passing, h]
  cases t <;> simp [appendNormalEdgeArgument, Terminator.passNormal, Terminator.resume?, Terminator.passing, happend]

/-- what a block passes to a block that merges versions -/
def mergeArgs (G : VersionGraph) (s : Versions) (b c : BlockId) : List Operand :=
  if (s.merges.of c).isSome ∧ G.reachable b = true then (s.outgoing.of b).toList.map .value else []

theorem passMerge_eq {blocks : List BasicBlock} {d : BlockId} (hd : blocks[d]?.map BasicBlock.id = some d) :
    passMerge G s blocks d = blocks.mapIdx fun b block =>
      { block with terminator := block.terminator.passNormal fun c => if c = d then mergeArgs G s b d else [] } := by
  have hnil : ∀ block : BasicBlock,
      { block with terminator := block.terminator.passNormal fun _ => [] } = block := by
    intro block
    simp [Terminator.passNormal, Terminator.passing_nil]
  obtain ⟨target, hd, hid⟩ := Option.map_eq_some_iff.mp hd
  unfold passMerge
  cases hm : s.merges.of d with
  | none =>
    refine ext_getElem? fun b => ?_
    simp only [mergeArgs, hm, Option.isSome_none, Bool.false_eq_true, false_and, if_false, ite_self, hnil]
    simp
  | some m =>
    simp only [hd]
    congr 1
    funext b block
    cases hr : G.reachable b with
    | false => simp only [mergeArgs, hm, hr, Bool.false_eq_true, and_false, if_false, ite_self, hnil]
    | true =>
      cases ho : s.outgoing.of b with
      | none => simp only [mergeArgs, hm, hr, ho, Option.toList_none, map_nil, ite_self, hnil]
      | some version => simp [mergeArgs, hm, hr, ho, appendNormalEdgeArgument_eq, hid]

theorem passMerge_fold {blocks : List BasicBlock}
    (hid : ∀ {b : BlockId} {block : BasicBlock}, blocks[b]? = some block → block.id = b)
    (n : Nat) (hn : n ≤ blocks.length) : (List.range n).foldl (passMerge G s) blocks = blocks.mapIdx fun b block =>
      { block with terminator := block.terminator.passNormal fun c => if c < n then mergeArgs G s b c else [] } := by
  induction n with
  | zero =>
    refine ext_getElem? fun b => ?_
    simp [Terminator.passNormal, Terminator.passing_nil]
  | succ n ih =>
    rw [range_succ, foldl_append, foldl_cons, foldl_nil, ih (Nat.le_of_succ_le hn)]
    have hget : blocks[n]? = some blocks[n] := getElem?_eq_getElem hn
    rw [passMerge_eq (by simp [hget, hid hget]), mapIdx_mapIdx]
    congr 1
    funext b block
    simp only [Function.comp_apply, Terminator.passNormal_passNormal]
    congr 2
    funext c
    by_cases hc : c = n
    · subst hc
      simp
    · have hlt : c < n + 1 ↔ c < n := ⟨fun h => Nat.lt_of_le_of_ne (Nat.lt_succ_iff.mp h) hc, Nat.lt_succ_of_lt⟩
      simp [hc, hlt]

/-- what a terminator of block `b` passes to its target `c` for the origin -/
def passedArgs (G : VersionGraph) (O : OriginFacts) (s : Versions) (b : BlockId) (t : Terminator) (c : BlockId) :
    List Operand :=
  match t.resume? with
  | some _ => if (O.special c).isSome then (s.outgoing.of b).toList.map .value else []
  | none => mergeArgs G s b c

/-- a block once the origin is threaded through it -/
def threadedBlock (G : VersionGraph) (O : OriginFacts) (s : Versions) (b : BlockId) (block : BasicBlock) : BasicBlock :=
  let rewritten := if G.reachable b then rewrittenBlock O s b block else block
  { id := block.id
    parameters := block.parameters ++ (s.merges.of b).toList
    instructions := rewritten.instructions
    terminator := rewritten.terminator.passing (passedArgs G O s b block.terminator) }

theorem mapM_ok {α β ε : Type} {g : α → Except ε β} {h : α → β} {l : List α} (hg : ∀ x ∈ l, g x = .ok (h x)) :
    l.mapM g = .ok (l.map h) := by
  induction l with
  | nil => rfl
  | cons x l ih =>
    rw [mapM_cons, hg x mem_cons_self, ih fun y hy => hg y (mem_cons_of_mem _ hy)]
    rfl

theorem passSuspend_eq {b : BlockId} {block : BasicBlock}
    (h : ∀ c, block.terminator.resume? = some c → (O.special c).isSome → (s.outgoing.of b).isSome) :
    passSuspend O s b block = .ok { block with terminator :=
      if block.terminator.resume?.isSome then block.terminator.passing (passedArgs G O s b block.terminator)
      else block.terminator } := by
  unfold passSuspend
  split
  · rename_i sus hsus
    by_cases hsp : (O.special sus.successor).isSome
    · obtain ⟨version, hv⟩ := Option.isSome_iff_exists.mp (h sus.successor (by rw [hsus]; rfl) hsp)
      simp [hsp, hv, hsus, Terminator.resume?, Terminator.passing, passedArgs]
    · simp [hsp, hsus, Terminator.resume?, Terminator.passing, passedArgs]
      cases block
      simp_all
  · rename_i hnot
    have hnone : block.terminator.resume?.isSome = false := by
      cases hterm : block.terminator with
      | suspend sus => exact absurd hterm (hnot sus)
      | _ => rfl
    simp [hnone]

theorem passedArgs_congr {t t' : Terminator} (h : t'.resume? = t.resume?) (b : BlockId) :
    passedArgs G O s b t' = passedArgs G O s b t := by
  unfold passedArgs
  rw [h]

/-- both ways of passing versions together -/
theorem passing_eq {t : Terminator} (b : BlockId) :
    (if (t.passNormal (mergeArgs G s b)).resume?.isSome then
      (t.passNormal (mergeArgs G s b)).passing (passedArgs G O s b (t.passNormal (mergeArgs G s b)))
    else t.passNormal (mergeArgs G s b)) = t.passing (passedArgs G O s b t) := by
  cases hr : t.resume? with
  | some c => simp [Terminator.passNormal, hr]
  | none =>
    have hargs : passedArgs G O s b t = mergeArgs G s b := by
      unfold passedArgs
      rw [hr]
    simp [Terminator.passNormal, hr, Terminator.passing_resume, hargs]

theorem applyVersions_spec {t : Threading} (hcount : G.count = t.function.blocks.length)
    (hid : ∀ {b : BlockId} {block : BasicBlock}, t.function.blocks[b]? = some block → block.id = b)
    (hsus : ∀ {b c : BlockId} {block : BasicBlock}, t.function.blocks[b]? = some block →
      block.terminator.resume? = some c → (O.special c).isSome → (s.outgoing.of b).isSome)
    (hmerge : ∀ c, (s.merges.of c).isSome → c < G.count)
    (horigin : O.origin < t.function.values.length) (hfresh : t.function.values.length ≤ s.fresh) :
    ∃ t', applyVersions G O s t = .ok t' ∧ t.function.SameFrame t'.function ∧
      t'.function.blocks = t.function.blocks.mapIdx (threadedBlock G O s) ∧ t'.function.values.length = s.fresh ∧
      t'.valueOrigins = t.valueOrigins ++ List.replicate (s.fresh - t.function.values.length) O.origin := by
  obtain ⟨hframe, hblocks, hvalues, horigins⟩ := rewrite_fold (pushMerges O s t) G.count
  have hpushed : (pushMerges O s t).function.blocks = t.function.blocks.mapIdx fun b block =>
      { block with parameters := block.parameters ++ (s.merges.of b).toList } := rfl
  have hlength : (pushMerges O s t).function.values.length = s.fresh := by
    simp [pushMerges, getElem?_eq_getElem horigin, Nat.add_sub_cancel' hfresh]
  rw [hpushed, mapIdx_mapIdx] at hblocks
  generalize hu : (List.range G.count).foldl (rewriteVisit G O s) (pushMerges O s t) = u
    at hframe hblocks hvalues horigins
  -- the block at each position, after the rewriting
  have hget : ∀ {b : BlockId} {block' : BasicBlock}, u.function.blocks[b]? = some block' →
      ∃ block, t.function.blocks[b]? = some block ∧ block'.id = block.id ∧
        block'.terminator.resume? = block.terminator.resume? := by
    intro b block' hb
    rw [hblocks, getElem?_mapIdx, Option.map_eq_some_iff] at hb
    obtain ⟨block, hb, rfl⟩ := hb
    refine ⟨block, hb, ?_⟩
    split_ifs
    · exact ⟨rfl, Terminator.mapValues_resume⟩
    · exact ⟨rfl, rfl⟩
    · exact ⟨rfl, rfl⟩
  have hlen : G.count ≤ u.function.blocks.length := by
    rw [hblocks, length_mapIdx, hcount]
  have hfold := passMerge_fold (G := G) (s := s) (fun hb => by
    obtain ⟨block, hb', hid', -⟩ := hget hb
    exact hid'.trans (hid hb')) G.count hlen
  have hargs : ∀ b, (fun c => if c < G.count then mergeArgs G s b c else []) = mergeArgs G s b := by
    intro b
    funext c
    by_cases hc : c < G.count
    · rw [if_pos hc]
    · rw [if_neg hc, mergeArgs, if_neg fun h => hc (hmerge c h.1)]
  simp only [hargs] at hfold
  have hmap : (((List.range G.count).foldl (passMerge G s) u.function.blocks).zipIdx.mapM fun x =>
      passSuspend O s x.2 x.1) = .ok (t.function.blocks.mapIdx (threadedBlock G O s)) := by
    rw [mapM_ok (h := fun x => { x.1 with terminator :=
      if x.1.terminator.resume?.isSome then x.1.terminator.passing (passedArgs G O s x.2 x.1.terminator)
      else x.1.terminator })]
    · congr 1
      rw [hfold, hblocks]
      refine ext_getElem? fun b => ?_
      simp only [getElem?_map, getElem?_zipIdx, getElem?_mapIdx, Option.map_map]
      cases hb : t.function.blocks[b]? with
      | none => rfl
      | some block =>
        have hlt : b < G.count := hcount ▸ (List.getElem?_eq_some_iff.mp hb).1
        simp only [Option.map_some, Function.comp_apply, hlt, if_true, Nat.zero_add, passing_eq]
        cases hr : G.reachable b with
        | false => simp [threadedBlock, hr]
        | true => simp [threadedBlock, hr, rewrittenBlock, passedArgs_congr Terminator.mapValues_resume, replaceTerminatorUses]
    · rintro ⟨block', b⟩ hmem
      refine passSuspend_eq fun c hc hsp => ?_
      rw [hfold, mem_zipIdx_iff_getElem?, getElem?_mapIdx, Option.map_eq_some_iff] at hmem
      obtain ⟨block₁, hb₁, heq⟩ := hmem
      obtain ⟨block, hb, -, hr⟩ := hget hb₁
      refine hsus hb ?_ hsp
      rw [← hr, ← hc, ← heq]
      simp only [Terminator.passNormal]
      split_ifs
      · rfl
      · exact Terminator.passing_resume.symm
  refine ⟨{ u with function := { u.function with blocks := t.function.blocks.mapIdx (threadedBlock G O s) } }, ?_,
    ⟨hframe.entry, hframe.parameters, hframe.locals⟩, rfl, hvalues.trans hlength, horigins⟩
  simp only [applyVersions, hu, hmap]

end Edges

end Subscript.Lir
