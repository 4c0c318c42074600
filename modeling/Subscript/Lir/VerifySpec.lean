import Subscript.Lir.VerifyDominance
import Subscript.Lir.Walk

/-! What acceptance by the verifier says: one definition for each value, every operand known, and each
use after its definition in the order of dominance. -/

namespace Subscript.Lir

open List

variable {m : Module} {f : Function} {block : BasicBlock} {v : ValueId} {s s' : DefinitionSite}

@[simp] theorem require_eq_nil {ok : Bool} {message : String} :
    require f ok message = [] ↔ ok = true := by
  cases ok <;> simp [require]

/-- The facts of the structural check that the flow arguments use. -/
structure Function.Structured (f : Function) : Prop extends f.Indexed where
  reads : ∀ {block : BasicBlock}, block ∈ f.blocks → ∀ v ∈ block.valueUses, v < f.values.length
  declared : ∀ {v : ValueId} {s : DefinitionSite}, (v, s) ∈ definitionSites f → v < f.values.length
  definedOnce : ∀ v < f.values.length, definitionCount f v = 1

theorem lt_of_valueType (h : (valueType f v).isSome) : v < f.values.length := by
  by_contra hge
  simp [valueType, getElem?_eq_none (Nat.le_of_not_lt hge)] at h

variable {operand : Operand}

theorem lt_of_operandType (h : (operandType f operand).isSome)
    (hv : operand.value? = some v) : v < f.values.length := by
  cases operand with
  | value u =>
    obtain rfl := Option.some.inj hv
    exact lt_of_valueType h
  | constant c => exact absurd hv (by simp [Operand.value?])

variable {context : String}

theorem operandType_of_verifyOperandType {expected : ValueType}
    (h : verifyOperandType f operand expected context = []) :
    (operandType f operand).isSome := by
  unfold verifyOperandType at h
  cases ho : operandType f operand with
  | some _ => rfl
  | none => simp [ho] at h

theorem exists_mem_zip {α β : Type*} {l : List α} {l' : List β} (hlen : l.length = l'.length) {a : α}
    (ha : a ∈ l) : ∃ b ∈ l', (a, b) ∈ l.zip l' := by
  obtain ⟨k, hk⟩ := mem_iff_getElem?.mp ha
  have hlt : k < l'.length := hlen ▸ (List.getElem?_eq_some_iff.mp hk).1
  refine ⟨l'[k], getElem_mem hlt, mem_iff_getElem?.mpr ⟨k, ?_⟩⟩
  simp [getElem?_zip_eq_some, hk, hlt]

theorem operandType_of_verifyArguments {arguments : List Operand} {parameters : List ValueId}
    (h : verifyArguments f arguments parameters context = [])
    (hlen : arguments.length = parameters.length)
    (hparams : ∀ v ∈ parameters, (valueType f v).isSome) :
    ∀ a ∈ arguments, (operandType f a).isSome := by
  intro a ha
  obtain ⟨v, hv, hmem⟩ := exists_mem_zip hlen ha
  have hcheck := flatMap_eq_nil_iff.mp h _ hmem
  obtain ⟨expected, he⟩ := Option.isSome_iff_exists.mp (hparams v hv)
  simp only [he] at hcheck
  exact operandType_of_verifyOperandType hcheck

section Structure

variable (h : verifyStructureAndTypes m f = [])
include h

theorem entry_of_verify : f.blocks[f.entry]?.any (·.id = f.entry) := by
  simp only [verifyStructureAndTypes, append_eq_nil_iff, require_eq_nil] at h
  tauto

variable {b : BlockId}

theorem verifyBlock_of_verify (hb : f.blocks[b]? = some block) :
    verifyBlock m f block b = [] := by
  simp only [verifyStructureAndTypes, append_eq_nil_iff, flatMap_eq_nil_iff] at h
  exact h.1.2 (block, b) (mem_zipIdx_iff_getElem?.mpr hb)

theorem indexed_of_verify : f.Indexed := by
  refine ⟨fun {b block} hb => ?_, fun {l d} hl => ?_, ?_⟩
  · have := verifyBlock_of_verify h hb
    simp only [verifyBlock, append_eq_nil_iff, require_eq_nil, decide_eq_true_eq] at this
    exact this.1.1.1
  · simp only [verifyStructureAndTypes, append_eq_nil_iff, flatMap_eq_nil_iff] at h
    have hid := h.1.1.1.1.2 (d, l) (mem_zipIdx_iff_getElem?.mpr hl)
    rwa [require_eq_nil, decide_eq_true_eq] at hid
  · have := entry_of_verify h
    by_contra hge
    rw [getElem?_eq_none (Nat.le_of_not_lt hge)] at this
    exact absurd this (by simp)

theorem valueType_isSome (hv : v < f.values.length) : (valueType f v).isSome := by
  simp only [verifyStructureAndTypes, append_eq_nil_iff, flatMap_eq_nil_iff] at h
  have hid := h.1.1.1.2 (f.values[v], v) (mem_zipIdx_iff_getElem?.mpr (by simp [hv]))
  simpa [valueType, hv] using hid

theorem parameters_known (hb : f.blocks[b]? = some block) :
    ∀ v ∈ block.parameters, (valueType f v).isSome := by
  intro v hv
  have hblock := verifyBlock_of_verify h hb
  simp only [verifyBlock, append_eq_nil_iff, flatMap_eq_nil_iff] at hblock
  have := hblock.1.1.2 v hv
  rw [countDefinition, require_eq_nil, decide_eq_true_eq] at this
  exact valueType_isSome h this

theorem verifyEdge_known {edge : BlockTarget} (he : verifyEdge f block edge = []) :
    ∀ a ∈ edge.arguments, (operandType f a).isSome := by
  unfold verifyEdge at he
  cases hd : f.blocks[edge.block]? with
  | none => simp [hd] at he
  | some destination =>
    simp only [hd, append_eq_nil_iff, require_eq_nil, decide_eq_true_eq] at he
    exact operandType_of_verifyArguments he.2 he.1 (parameters_known h hd)

theorem verifySuspend_known {s : Suspend} (hs : verifySuspend m f b s = []) :
    (∀ a ∈ s.arguments, (operandType f a).isSome) ∧
      ∀ v ∈ Terminator.suspendUses s.kind, (valueType f v).isSome := by
  unfold verifySuspend at hs
  cases hd : f.blocks[s.successor]? with
  | none => simp [hd] at hs
  | some destination =>
    simp only [hd, append_eq_nil_iff, require_eq_nil, decide_eq_true_eq] at hs
    obtain ⟨⟨⟨⟨-, hlen⟩, hargs⟩, hkind⟩, -⟩ := hs
    refine ⟨operandType_of_verifyArguments hargs hlen fun v hv =>
      parameters_known h hd v (mem_of_mem_drop hv), fun v hv => ?_⟩
    cases hk : s.kind with
    | yield value =>
      rw [hk] at hv
      obtain rfl := Option.mem_toList.mp hv
      simpa [verifySuspendKind, hk] using hkind
    | async => rw [hk] at hv; exact absurd hv not_mem_nil
    | asyncCall target operands =>
      rw [hk] at hv
      simp only [verifySuspendKind, hk, append_eq_nil_iff, require_eq_nil,
        decide_eq_true_eq, flatMap_eq_nil_iff] at hkind
      obtain ⟨_, _, hmem⟩ := exists_mem_zip hkind.1.1.2 hv
      have hany := hkind.1.2 _ hmem
      rw [Option.any_eq_true] at hany
      obtain ⟨ty, hty, -⟩ := hany
      rw [hty]
      rfl
    | asyncHandle handle owned =>
      rw [hk] at hv
      obtain rfl := mem_singleton.mp hv
      simp only [verifySuspendKind, hk, append_eq_nil_iff] at hkind
      cases hty : valueType f v with
      | some _ => rfl
      | none => simp [hty] at hkind

theorem terminator_known (ht : verifyTerminatorTypes m f block = []) :
    ∀ v ∈ block.terminator.valueUses, v < f.values.length := by
  intro v hv
  rw [verifyTerminatorTypes, append_eq_nil_iff] at ht
  replace ht := ht.2
  -- each terminator checks the operands that it reads
  have known : ∀ {l : List Operand}, (∀ a ∈ l, (operandType f a).isSome) →
      v ∈ l.filterMap Operand.value? → v < f.values.length := by
    intro l hl hv
    obtain ⟨a, ha, hav⟩ := mem_filterMap.mp hv
    exact lt_of_operandType (hl a ha) hav
  cases hterm : block.terminator with
  | branch target =>
    simp only [hterm] at ht hv
    exact known (verifyEdge_known h ht) hv
  | conditionalBranch condition thenTarget elseTarget =>
    simp only [hterm, append_eq_nil_iff] at ht hv
    refine known (fun a ha => ?_) hv
    simp only [mem_cons, mem_append] at ha
    rcases ha with rfl | ha | ha
    · exact operandType_of_verifyOperandType ht.2
    · exact verifyEdge_known h ht.1.1 a ha
    · exact verifyEdge_known h ht.1.2 a ha
  | switch value arms default =>
    simp only [hterm, append_eq_nil_iff, flatMap_eq_nil_iff, require_eq_nil] at ht hv
    obtain ⟨⟨hedges, hne⟩, harms⟩ := ht
    refine known (fun a ha => ?_) hv
    simp only [mem_cons, mem_append, mem_flatMap] at ha
    rcases ha with rfl | ⟨arm, harm, ha⟩ | ha
    · cases arms with
      | nil => simp at hne
      | cons arm arms =>
        have := harms arm mem_cons_self
        rw [decide_eq_true_eq] at this
        rw [this]
        rfl
    · exact verifyEdge_known h
        (hedges _ (mem_append_left _ (mem_map_of_mem harm))) a ha
    · exact verifyEdge_known h (hedges _ (mem_append_right _ mem_cons_self)) a ha
  | «return» value =>
    simp only [hterm] at ht hv
    cases value with
    | none => exact absurd hv not_mem_nil
    | some a =>
      split_ifs at ht with hvoid
      · refine known (fun b hb => ?_) hv
        rw [Option.toList_some, mem_singleton] at hb
        rw [hb]
        exact operandType_of_verifyOperandType ht
  | unreachable => rw [hterm] at hv; exact absurd hv not_mem_nil
  | trap t => rw [hterm] at hv; exact absurd hv not_mem_nil
  | suspend s =>
    simp only [hterm] at ht hv
    obtain ⟨hargs, huses⟩ := verifySuspend_known h ht
    rcases mem_append.mp hv with hv | hv
    · exact known hargs hv
    · exact lt_of_valueType (huses v hv)

theorem declared_of_verify (hs : (v, s) ∈ definitionSites f) :
    v < f.values.length := by
  have declared : countDefinition f v = [] → v < f.values.length := by
    simp [countDefinition]
  rcases mem_append.mp hs with hs | hs
  · obtain ⟨p, hp, heq⟩ := mem_map.mp hs
    obtain ⟨rfl, -⟩ := Prod.mk.inj heq
    simp only [verifyStructureAndTypes, append_eq_nil_iff, flatMap_eq_nil_iff] at h
    have := h.1.1.2 p hp
    simp only [verifyParameter, append_eq_nil_iff] at this
    exact declared this.1.1
  · obtain ⟨block, hmem, hs⟩ := mem_flatMap.mp hs
    obtain ⟨b, hb⟩ := mem_iff_getElem?.mp hmem
    have hblock := verifyBlock_of_verify h hb
    simp only [verifyBlock, append_eq_nil_iff, flatMap_eq_nil_iff] at hblock
    rcases mem_append.mp hs with hs | hs
    · obtain ⟨u, hu, heq⟩ := mem_map.mp hs
      obtain ⟨rfl, -⟩ := Prod.mk.inj heq
      exact declared (hblock.1.1.2 u hu)
    · obtain ⟨⟨i, k⟩, hi, heq⟩ := mem_filterMap.mp hs
      obtain ⟨u, hu, heq⟩ := Option.map_eq_some_iff.mp heq
      obtain ⟨rfl, -⟩ := Prod.mk.inj heq
      have := hblock.1.2 (i, k) hi
      simp only [verifyInstruction, append_eq_nil_iff, flatMap_eq_nil_iff] at this
      exact declared (this.1.1 u (Option.mem_toList.mpr hu))

theorem structured_of_verify : f.Structured := by
  refine ⟨indexed_of_verify h, fun {block} hmem v hv => ?_, declared_of_verify h, fun v hv => ?_⟩
  · obtain ⟨b, hb⟩ := mem_iff_getElem?.mp hmem
    have hblock := verifyBlock_of_verify h hb
    simp only [verifyBlock, append_eq_nil_iff, flatMap_eq_nil_iff] at hblock
    obtain ⟨⟨-, hinstrs⟩, hterm⟩ := hblock
    rcases mem_append.mp hv with hv | hv
    · obtain ⟨i, hi, hv⟩ := mem_flatMap.mp hv
      obtain ⟨k, hk⟩ := mem_iff_getElem?.mp hi
      have hcheck := hinstrs (i, k) (mem_zipIdx_iff_getElem?.mpr hk)
      simp only [verifyInstruction, append_eq_nil_iff, flatMap_eq_nil_iff] at hcheck
      obtain ⟨a, ha, hav⟩ := mem_filterMap.mp hv
      obtain ⟨n, hn⟩ := mem_iff_getElem?.mp ha
      have := (hcheck.1.2 (a, n) (mem_zipIdx_iff_getElem?.mpr hn)).1
      rw [require_eq_nil] at this
      exact lt_of_operandType this hav
    · exact terminator_known h hterm v hv
  · simp only [verifyStructureAndTypes, append_eq_nil_iff, flatMap_eq_nil_iff] at h
    have := h.2 v (mem_range.mpr hv)
    rwa [require_eq_nil, decide_eq_true_eq] at this

end Structure

section Definitions

/-- the event that carries out a definition -/
def DefinitionSite.event : DefinitionSite → Event
  | entry => .start
  | blockEntry b => .enter b
  | instruction b k => .done b k

theorem mem_blockDefinitionSites :
    (v, s) ∈ block.definitionSites ↔
      (v ∈ block.parameters ∧ s = .blockEntry block.id) ∨
      ∃ k i, block.instructions[k]? = some i ∧ i.result = some v ∧ s = .instruction block.id k := by
  simp only [BasicBlock.definitionSites, mem_append, mem_map, mem_filterMap,
    mem_zipIdx_iff_getElem?, Option.map_eq_some_iff, Prod.exists, Prod.mk.injEq]
  refine or_congr ⟨?_, ?_⟩ ⟨?_, ?_⟩
  · rintro ⟨u, hu, rfl, rfl⟩
    exact ⟨hu, rfl⟩
  · rintro ⟨hv, rfl⟩
    exact ⟨v, hv, rfl, rfl⟩
  · rintro ⟨i, k, hi, u, hu, rfl, rfl⟩
    exact ⟨k, i, hi, hu, rfl⟩
  · rintro ⟨k, i, hi, hu, rfl⟩
    exact ⟨i, k, hi, v, hu, rfl, rfl⟩

theorem mem_definitionSites (hf : f.Indexed) :
    (v, s) ∈ definitionSites f ↔
      (v ∈ f.parameters.map Parameter.value ∧ s = .entry) ∨
      ∃ (b : BlockId) (block : BasicBlock), f.blocks[b]? = some block ∧
        ((v ∈ block.parameters ∧ s = .blockEntry b) ∨
          ∃ k i, block.instructions[k]? = some i ∧ i.result = some v ∧ s = .instruction b k) := by
  rw [definitionSites, mem_append, mem_flatMap]
  refine or_congr ?_ ⟨?_, ?_⟩
  · simp only [mem_map, Prod.mk.injEq]
    constructor
    · rintro ⟨p, hp, rfl, rfl⟩
      exact ⟨⟨p, hp, rfl⟩, rfl⟩
    · rintro ⟨⟨p, hp, rfl⟩, rfl⟩
      exact ⟨p, hp, rfl, rfl⟩
  · rintro ⟨block, hmem, hsite⟩
    obtain ⟨b, hb⟩ := mem_iff_getElem?.mp hmem
    rw [mem_blockDefinitionSites, hf.block hb] at hsite
    exact ⟨b, block, hb, hsite⟩
  · rintro ⟨b, block, hb, hsite⟩
    refine ⟨block, mem_of_getElem? hb, ?_⟩
    rwa [mem_blockDefinitionSites, hf.block hb]

theorem mem_defines (hf : f.Indexed) : v ∈ f.defines s.event ↔ (v, s) ∈ definitionSites f := by
  rw [mem_definitionSites hf]
  cases s with
  | entry => simp [DefinitionSite.event, Function.defines]
  | blockEntry c => cases hc : f.blocks[c]? <;> simp [DefinitionSite.event, Function.defines, hc]
  | instruction c k =>
    cases hc : f.blocks[c]? <;>
      simp [DefinitionSite.event, Function.defines, Function.instructionAt, hc,
        Option.bind_eq_some_iff]

theorem exists_site (hf : f.Indexed) {e : Event} (he : v ∈ f.defines e) : ∃ s, s.event = e ∧ (v, s) ∈ definitionSites f := by
  have site (s : DefinitionSite) (hs : v ∈ f.defines s.event) : ∃ s', s'.event = s.event ∧ (v, s') ∈ definitionSites f :=
    ⟨s, rfl, (mem_defines hf).mp hs⟩
  cases e with
  | start => exact site .entry he
  | enter b => exact site (.blockEntry b) he
  | done b k => exact site (.instruction b k) he
  | suspend => exact absurd he not_mem_nil

theorem Function.Structured.unique (hf : f.Structured) (hv : v < f.values.length)
    (h : (v, s) ∈ definitionSites f) (h' : (v, s') ∈ definitionSites f) : s = s' := by
  obtain ⟨x, hx⟩ := length_eq_one_iff.mp (hf.definedOnce v hv)
  have mem : ∀ t, (v, t) ∈ definitionSites f → (v, t) = x := by
    intro t ht
    have : (v, t) ∈ (definitionSites f).filter (·.1 = v) := mem_filter.mpr ⟨ht, by simp⟩
    rwa [hx, mem_singleton] at this
  exact (Prod.mk.inj ((mem s h).trans (mem s' h').symm)).2

theorem site_foldl (sites : List (ValueId × DefinitionSite)) (table : Definitions)
    (h : Definitions.site (sites.foldl (fun table (v, site) => table.set v (some site)) table) v = some s) :
    (v, s) ∈ sites ∨ table.site v = some s := by
  induction sites generalizing table with
  | nil => exact .inr h
  | cons x sites ih =>
    rcases ih _ h with h | h
    · exact .inl (mem_cons_of_mem _ h)
    · rw [Definitions.site, getElem?_set] at h
      split_ifs at h with hx hlt
      · left
        rw [← hx, ← Option.some.inj h]
        exact mem_cons_self
      · exact absurd h (by simp)
      · exact .inr h

theorem site_foldl_isSome (sites : List (ValueId × DefinitionSite)) (table : Definitions)
    (hv : v < table.length) (h : (table.site v).isSome ∨ ∃ s, (v, s) ∈ sites) :
    (Definitions.site (sites.foldl (fun table (v, site) => table.set v (some site)) table) v).isSome := by
  induction sites generalizing table with
  | nil => simpa using h
  | cons x sites ih =>
    refine ih _ (by rwa [length_set]) ?_
    by_cases hx : x.1 = v
    · exact .inl (by simp [Definitions.site, hx, hv])
    · rcases h with h | ⟨s, hs⟩
      · exact .inl (by simpa [Definitions.site, getElem?_set, hx] using h)
      · refine .inr ⟨s, (mem_cons.mp hs).resolve_left fun heq => hx ?_⟩
        rw [← heq]

/-- the table of definitions names the one definition of each value -/
theorem Function.Structured.site (hf : f.Structured) (hv : v < f.values.length) :
    ∃ s, (definitions f).site v = some s ∧ (v, s) ∈ definitionSites f := by
  obtain ⟨⟨u, t⟩, hx⟩ := length_eq_one_iff.mp (hf.definedOnce v hv)
  have hmem : (u, t) ∈ (definitionSites f).filter (·.1 = v) := hx ▸ mem_singleton.mpr rfl
  obtain ⟨hsite, hu⟩ := mem_filter.mp hmem
  obtain rfl : u = v := by simpa using hu
  have hsome : ((definitions f).site u).isSome :=
    site_foldl_isSome _ _ (by simpa using hv) (.inr ⟨t, hsite⟩)
  obtain ⟨s, hs⟩ := Option.isSome_iff_exists.mp hsome
  refine ⟨s, hs, (site_foldl _ _ hs).resolve_right ?_⟩
  simp [Definitions.site, hv]

end Definitions

section Dominance

variable {p : Point}

theorem readsAt_cases (hv : v ∈ f.readsAt p) :
    ∃ block, f.blocks[p.block]? = some block ∧
      ((∃ i, block.instructions[p.index]? = some i ∧ v ∈ i.valueUses) ∨
        (block.instructions.length = p.index ∧ v ∈ block.terminator.valueUses)) := by
  unfold Function.readsAt at hv
  cases hi : f.instructionAt p with
  | some i =>
    obtain ⟨block, hb, hk⟩ := instructionAt_eq_some.mp hi
    rw [hi] at hv
    exact ⟨block, hb, .inl ⟨i, hk, hv⟩⟩
  | none =>
    rw [hi] at hv
    cases ht : f.terminatorAt p with
    | none => simp [ht] at hv
    | some t =>
      obtain ⟨block, hb, hlen, rfl⟩ := terminatorAt_eq_some.mp ht
      exact ⟨block, hb, .inr ⟨hlen, by simpa [ht] using hv⟩⟩

theorem mem_valueUses_of_readsAt (hv : v ∈ f.readsAt p) :
    ∃ block, f.blocks[p.block]? = some block ∧ v ∈ block.valueUses := by
  obtain ⟨block, hb, ⟨i, hi, hv⟩ | ⟨-, hv⟩⟩ := readsAt_cases hv
  · exact ⟨block, hb, mem_append_left _
      (mem_flatMap.mpr ⟨i, mem_of_getElem? hi, hv⟩)⟩
  · exact ⟨block, hb, mem_append_right _ hv⟩

/-- What the flow arguments use of an accepted function. -/
structure Function.Accepted (f : Function) : Prop extends f.Structured where
  dominated : ∀ {p : Point} {v : ValueId} {s : DefinitionSite}, v ∈ f.readsAt p →
    (v, s) ∈ definitionSites f →
    definitionDominatesDefinition (dominators f) s (.instruction p.block p.index) = true
  boundary : ∀ {p r : Point} {t : Terminator} {c : BlockId} {v : ValueId} {s : DefinitionSite},
    f.terminatorAt r = some t → t.resume? = some c → c ∈ (dominators f).of p.block →
    v ∈ f.readsAt p → (v, s) ∈ definitionSites f →
    insideResumeRegion (dominators f) c s = true

theorem Function.Structured.lt_of_readsAt (hf : f.Structured) (hv : v ∈ f.readsAt p) :
    v < f.values.length := by
  obtain ⟨block, hb, hv⟩ := mem_valueUses_of_readsAt hv
  exact hf.reads (mem_of_getElem? hb) v hv

theorem Function.Structured.site_eq (hf : f.Structured) (hv : v < f.values.length)
    (hs : (v, s) ∈ definitionSites f) : (definitions f).site v = some s := by
  obtain ⟨t, ht, hmem⟩ := hf.site hv
  rw [ht, hf.unique hv hmem hs]

theorem accepted_of_verify (h : verifyFunction m f = []) : f.Accepted := by
  simp only [verifyFunction, append_eq_nil_iff] at h
  obtain ⟨⟨hstruct, -⟩, hdom⟩ := h
  have hf := structured_of_verify hstruct
  simp only [verifyDominance, append_eq_nil_iff, flatMap_eq_nil_iff] at hdom
  obtain ⟨⟨huses, -⟩, hbound⟩ := hdom
  refine ⟨hf, fun {p v s} hv hs => ?_, fun {p r t c v s} ht hc hdom hv hs => ?_⟩
  · have hsite := hf.site_eq (hf.lt_of_readsAt hv) hs
    obtain ⟨block, hb, ⟨i, hi, hv⟩ | ⟨hlen, hv⟩⟩ := readsAt_cases hv
    · have hcheck := (huses block (mem_of_getElem? hb)).1 (i, p.index)
        (mem_zipIdx_iff_getElem?.mpr hi) v hv
      simpa only [checkDominates, hsite, require_eq_nil, hf.block hb] using hcheck
    · have hcheck := (huses block (mem_of_getElem? hb)).2 v hv
      simpa only [checkDominates, hsite, require_eq_nil, hf.block hb, hlen] using hcheck
  · have hsite := hf.site_eq (hf.lt_of_readsAt hv) hs
    obtain ⟨block, hb, hv⟩ := mem_valueUses_of_readsAt hv
    obtain ⟨suspendBlock, hsb, -, rfl⟩ := terminatorAt_eq_some.mp ht
    simp only [verifySuspendDefinitionBoundaries, flatMap_eq_nil_iff] at hbound
    have hcheck := hbound suspendBlock (mem_of_getElem? hsb)
    simp only [hc, flatMap_eq_nil_iff] at hcheck
    have hcheck := hcheck block (mem_of_getElem? hb)
    rw [hf.block hb, if_pos hdom, flatMap_eq_nil_iff] at hcheck
    simpa only [hsite, require_eq_nil] using hcheck v hv

end Dominance

end Subscript.Lir
