import Subscript.Lir.SuspendBoundary
import Subscript.Lir.Exec

/-! Functions in SSA form: one definition for each value, every read defined on every path, and one argument
for each parameter on every edge. Two functions of one shape have the same paths. -/

namespace Subscript.Lir

open List

section Shape

/-- what the paths of a function depend on -/
structure BlockShape where
  id : BlockId
  instructions : List (Option ValueId × List Trap)
  successors : List BlockId
  resume : Option BlockId

def BasicBlock.shape (block : BasicBlock) : BlockShape where
  id := block.id
  instructions := block.instructions.map fun i => (i.result, i.traps)
  successors := block.terminator.successors
  resume := block.terminator.resume?

structure Function.SameShape (f g : Function) : Prop where
  entry : g.entry = f.entry
  parameters : g.parameters = f.parameters
  blocks : g.blocks.map BasicBlock.shape = f.blocks.map BasicBlock.shape

variable {f g : Function} {p q : Point} {ε τ : List Event} {b c : BlockId}

namespace Function.SameShape

theorem symm (h : f.SameShape g) : g.SameShape f := ⟨h.entry.symm, h.parameters.symm, h.blocks.symm⟩

theorem trans {k : Function} (h : f.SameShape g) (h' : g.SameShape k) : f.SameShape k :=
  ⟨h'.entry.trans h.entry, h'.parameters.trans h.parameters, h'.blocks.trans h.blocks⟩

theorem length (h : f.SameShape g) : g.blocks.length = f.blocks.length := by
  simpa using congrArg List.length h.blocks

theorem block_none (h : f.SameShape g) (hb : f.blocks[b]? = none) : g.blocks[b]? = none :=
  getElem?_eq_none (by rw [h.length]; exact getElem?_eq_none_iff.mp hb)

theorem block (h : f.SameShape g) {block : BasicBlock} (hb : f.blocks[b]? = some block) :
    ∃ block', g.blocks[b]? = some block' ∧ block'.shape = block.shape := by
  have hmap := congrArg (·[b]?) h.blocks
  simp only [getElem?_map, hb, Option.map_some] at hmap
  obtain ⟨block', hb', heq⟩ := Option.map_eq_some_iff.mp hmap
  exact ⟨block', hb', heq⟩

variable {i : Instruction}

theorem instruction (h : f.SameShape g) (hi : f.instructionAt p = some i) :
    ∃ i', g.instructionAt p = some i' ∧ i'.result = i.result ∧ i'.traps = i.traps := by
  obtain ⟨block, hb, hi⟩ := instructionAt_eq_some.mp hi
  obtain ⟨block', hb', heq⟩ := h.block hb
  have hmap := congrArg (fun s => s.instructions[p.index]?) heq
  simp only [BasicBlock.shape, getElem?_map, hi, Option.map_some] at hmap
  obtain ⟨i', hi', heq⟩ := Option.map_eq_some_iff.mp hmap
  exact ⟨i', instructionAt_eq_some.mpr ⟨block', hb', hi'⟩, congrArg Prod.fst heq, congrArg Prod.snd heq⟩

theorem instruction_none (h : f.SameShape g) (hi : f.instructionAt p = none) : g.instructionAt p = none := by
  cases hi' : g.instructionAt p with
  | none => rfl
  | some i' =>
    obtain ⟨i, hi₂, -, -⟩ := h.symm.instruction hi'
    exact absurd (hi.symm.trans hi₂) (by simp)

variable {block block' : BasicBlock}

theorem instructions_length (h : block'.shape = block.shape) :
    block'.instructions.length = block.instructions.length := by
  simpa [BasicBlock.shape] using congrArg (fun s => s.instructions.length) h

theorem terminator (h : f.SameShape g) {t : Terminator} (ht : f.terminatorAt p = some t) :
    ∃ t', g.terminatorAt p = some t' ∧ t'.successors = t.successors ∧ t'.resume? = t.resume? := by
  obtain ⟨block, hb, hlen, rfl⟩ := terminatorAt_eq_some.mp ht
  obtain ⟨block', hb', heq⟩ := h.block hb
  refine ⟨block'.terminator, terminatorAt_eq_some.mpr ⟨block', hb', ?_, rfl⟩, congrArg BlockShape.successors heq,
    congrArg BlockShape.resume heq⟩
  rw [instructions_length heq, hlen]

theorem terminator_none (h : f.SameShape g) (ht : f.terminatorAt p = none) : g.terminatorAt p = none := by
  cases ht' : g.terminatorAt p with
  | none => rfl
  | some t' =>
    obtain ⟨t, ht₂, -, -⟩ := h.symm.terminator ht'
    exact absurd (ht.symm.trans ht₂) (by simp)

theorem handler {i' : Instruction} (h : i'.traps = i.traps) : i'.handler = i.handler := by
  simp [Instruction.handler, Instruction.raiseEdge, h]

theorem step (h : f.SameShape g) (hs : Step f p ε q) : Step g p ε q := by
  cases hs with
  | @next i hi =>
    obtain ⟨i', hi', -, -⟩ := h.instruction hi
    exact .next hi'
  | @raise i b hi hb =>
    obtain ⟨i', hi', -, ht⟩ := h.instruction hi
    exact .raise hi' ((handler ht).trans hb)
  | @jump t c ht hr hc =>
    obtain ⟨t', ht', hsucc, hres⟩ := h.terminator ht
    exact .jump ht' (hres.trans hr) (hsucc ▸ hc)
  | @suspend t c ht hr =>
    obtain ⟨t', ht', -, hres⟩ := h.terminator ht
    exact .suspend ht' (hres.trans hr)

theorem walk (h : f.SameShape g) (hw : Walk f p τ q) : Walk g p τ q := by
  induction hw with
  | refl => exact .refl
  | step _ hs ih => exact ih.step (h.step hs)

theorem run (h : f.SameShape g) (hrun : Run f τ q) : Run g τ q := by
  obtain ⟨σ, hw, rfl⟩ := hrun
  refine ⟨σ, ?_, by rw [h.entry]⟩
  rw [h.entry]
  exact h.walk hw

theorem handlers (h : block'.shape = block.shape) :
    block'.instructions.filterMap Instruction.handler = block.instructions.filterMap Instruction.handler := by
  have hinstr := congrArg (fun s => s.instructions.filterMap fun i => Instruction.handler ⟨i.1, .copy, [], [], i.2⟩) h
  simp only [BasicBlock.shape, filterMap_map] at hinstr
  have hfun : ((fun i : Option ValueId × List Trap => Instruction.handler ⟨i.1, .copy, [], [], i.2⟩) ∘
      fun i : Instruction => (i.result, i.traps)) = Instruction.handler := by
    funext i
    exact handler rfl
  rwa [hfun] at hinstr

theorem successors (h : block'.shape = block.shape) : block'.successors = block.successors := by
  rw [BasicBlock.successors, BasicBlock.successors, handlers h]
  exact congrArg (_ ++ ·) (congrArg BlockShape.successors h)

theorem edge (h : f.SameShape g) : g.Edge b c ↔ f.Edge b c := by
  have one : ∀ {f g : Function}, f.SameShape g → f.Edge b c → g.Edge b c := by
    rintro f g h ⟨block, hb, hc⟩
    obtain ⟨block', hb', heq⟩ := h.block hb
    exact ⟨block', hb', successors heq ▸ hc⟩
  exact ⟨one h.symm, one h⟩

theorem edge_eq (h : f.SameShape g) : g.Edge = f.Edge := by
  funext b c
  exact propext h.edge

theorem results (h : block'.shape = block.shape) :
    block'.instructions.map Instruction.result = block.instructions.map Instruction.result := by
  have := congrArg (fun s => s.instructions.map Prod.fst) h
  simpa [BasicBlock.shape, Function.comp_def] using this

theorem defines_done (h : f.SameShape g) (b : BlockId) (k : Nat) : g.defines (.done b k) = f.defines (.done b k) := by
  simp only [Function.defines]
  cases hi : f.instructionAt ⟨b, k⟩ with
  | some i =>
    obtain ⟨i', hi', hres, -⟩ := h.instruction hi
    simp [hi', hres]
  | none => rw [h.instruction_none hi]

theorem indexed (h : f.SameShape g) (hf : f.Indexed) (hlocals : g.locals = f.locals) : g.Indexed where
  block hb := by
    obtain ⟨block, hb₀, heq⟩ := h.symm.block hb
    exact (congrArg BlockShape.id heq).symm.trans (hf.block hb₀)
  localId hl := hf.localId (hlocals ▸ hl)
  entry := by
    rw [h.entry, h.length]
    exact hf.entry

end Function.SameShape

end Shape

section Definitions

/-- all values that the function defines, with repetitions -/
def definedValues (f : Function) : List ValueId :=
  f.parameters.map Parameter.value ++
    f.blocks.flatMap fun block => block.parameters ++ block.instructions.filterMap Instruction.result

variable {f : Function} {v : ValueId}

theorem definitionSites_fst : (definitionSites f).map Prod.fst = definedValues f := by
  have hblock : ∀ block : BasicBlock, block.definitionSites.map Prod.fst =
      block.parameters ++ block.instructions.filterMap Instruction.result := by
    intro block
    have hzip : ∀ (is : List Instruction) (k : Nat),
        ((is.zipIdx k).filterMap fun x => x.1.result.map (·, DefinitionSite.instruction block.id x.2)).map Prod.fst =
          is.filterMap Instruction.result := by
      intro is
      induction is with
      | nil => simp
      | cons i is ih =>
        intro k
        cases hr : i.result <;> simp [hr, ih]
    rw [BasicBlock.definitionSites, map_append, map_map]
    congr 1
    · simp [Function.comp_def]
    · exact hzip block.instructions 0
  rw [definitionSites, definedValues, map_append, map_map, map_flatMap]
  simp only [hblock]
  rfl

theorem definitionCount_eq : definitionCount f v = (definedValues f).count v := by
  rw [definitionCount, ← definitionSites_fst, List.count, countP_map, countP_eq_length_filter]
  congr 1

/-- one definition for each declared value, as one list -/
theorem perm_range_iff : (definedValues f).Perm (List.range f.values.length) ↔
    (∀ v ∈ definedValues f, v < f.values.length) ∧ ∀ v < f.values.length, definitionCount f v = 1 := by
  simp only [definitionCount_eq]
  constructor
  · intro h
    refine ⟨fun v hv => mem_range.mp (h.mem_iff.mp hv), fun v hv => ?_⟩
    rw [h.count_eq]
    exact count_eq_one_of_mem nodup_range (mem_range.mpr hv)
  · rintro ⟨hlt, hone⟩
    refine (perm_iff_count).mpr fun v => ?_
    by_cases hv : v < f.values.length
    · rw [hone v hv, count_eq_one_of_mem nodup_range (mem_range.mpr hv)]
    · rw [count_eq_zero_of_not_mem fun h => hv (hlt v h),
        count_eq_zero_of_not_mem fun h => hv (mem_range.mp h)]

theorem mem_definedValues : v ∈ definedValues f ↔ ∃ s, (v, s) ∈ definitionSites f := by
  rw [← definitionSites_fst, mem_map]
  constructor
  · rintro ⟨⟨w, s⟩, h, rfl⟩
    exact ⟨s, h⟩
  · rintro ⟨s, h⟩
    exact ⟨(v, s), h, rfl⟩

theorem Function.Structured.perm (hf : f.Structured) : (definedValues f).Perm (List.range f.values.length) :=
  perm_range_iff.mpr ⟨fun v hv => by
    obtain ⟨s, hs⟩ := mem_definedValues.mp hv
    exact hf.declared hs, hf.definedOnce⟩

theorem structured_of_perm (hf : f.Indexed)
    (hreads : ∀ {block : BasicBlock}, block ∈ f.blocks → ∀ v ∈ block.valueUses, v < f.values.length)
    (h : (definedValues f).Perm (List.range f.values.length)) : f.Structured := by
  obtain ⟨hlt, hone⟩ := perm_range_iff.mp h
  exact ⟨hf, hreads, fun hs => hlt _ (mem_definedValues.mpr ⟨_, hs⟩), hone⟩

end Definitions

section Edges

/-- the blocks that a terminator enters, with how many values it passes to each -/
def Terminator.passes : Terminator → List (BlockId × Nat)
  | suspend s => [(s.successor, s.resumeValue.toList.length + s.arguments.length)]
  | t => t.targets.map fun target => (target.block, target.arguments.length)

/-- every edge passes one value for each parameter of its target; a handler edge passes none -/
structure EdgesMatch (f : Function) : Prop where
  passes : ∀ {b : BlockId} {block : BasicBlock}, f.blocks[b]? = some block →
    ∀ c n, (c, n) ∈ block.terminator.passes → c < f.blocks.length ∧ n = (f.parametersOf c).length
  handlers : ∀ {b : BlockId} {block : BasicBlock}, f.blocks[b]? = some block →
    ∀ i ∈ block.instructions, ∀ h, i.handler = some h → h < f.blocks.length ∧ f.parametersOf h = []

structure Ssa (f : Function) : Prop extends f.Structured where
  reads_defined : ReadsDefined f
  edges : EdgesMatch f

end Edges

end Subscript.Lir
