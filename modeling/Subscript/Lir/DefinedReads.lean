import Subscript.Lir.VerifySpec

/-! Are the values that a path reads defined on it? Block-level dominance answers this up to handler
edges, which leave the middle of a block. -/

namespace Subscript.Lir

/-- on every path each value operand that is read was defined earlier on that path -/
def ReadsDefined (f : Function) : Prop :=
  ∀ τ q, Run f τ q → ∀ v ∈ f.readsAt q, ∃ e ∈ τ, v ∈ f.defines e

/-- Past a handler edge, no path reads a value that the raising block defines at or after the raise
site without running that definition first. -/
def NoLateReads (f : Function) : Prop :=
  ∀ ρ b site i h j v τ q, Run f ρ ⟨b, site⟩ → f.instructionAt ⟨b, site⟩ = some i →
    i.handler = some h → site ≤ j → v ∈ f.defines (.done b j) →
    Walk f ⟨h, 0⟩ τ q → v ∈ f.readsAt q → Event.done b j ∈ τ

variable {f : Function} {p q : Point} {τ : List Event} {a b : BlockId} {j k : Nat} {v : ValueId}

/-- the moment before an instruction completed -/
theorem Walk.before_done (h : Walk f p τ q) (hd : Event.done b j ∈ τ) :
    ∃ τ₁, τ₁.length < τ.length ∧ Walk f p τ₁ ⟨b, j⟩ := by
  induction h with
  | refl => exact absurd hd List.not_mem_nil
  | @step τ ε q r hw hs ih =>
    rcases List.mem_append.mp hd with hd | hd
    · rcases hs.cases_events with ⟨rfl, rfl, -⟩ | ⟨c, rfl, -, rfl | rfl⟩
      · obtain ⟨rfl, rfl⟩ : b = q.block ∧ j = q.index := by simpa using hd
        exact ⟨τ, by simp, hw⟩
      · exact absurd hd (by simp)
      · exact absurd hd (by simp)
    · obtain ⟨τ₁, hlt, h₁⟩ := ih hd
      exact ⟨τ₁, by simp only [List.length_append]; omega, h₁⟩

/-- an earlier point of the current visit -/
theorem Walk.back (h : Walk f ⟨a, 0⟩ τ q) (hk : k ≤ q.index) :
    ∃ τ₁, τ₁.length ≤ τ.length ∧ Walk f ⟨a, 0⟩ τ₁ ⟨q.block, k⟩ := by
  induction h with
  | refl =>
    obtain rfl : k = 0 := Nat.le_zero.mp hk
    exact ⟨[], le_rfl, .refl⟩
  | @step τ ε q r hw hs ih =>
    rcases hs.cases_events with ⟨rfl, rfl, -⟩ | ⟨c, rfl, -, -⟩
    · rcases Nat.le_succ_iff.mp hk with hk | rfl
      · obtain ⟨τ₁, hle, h₁⟩ := ih hk
        exact ⟨τ₁, by simp only [List.length_append]; omega, h₁⟩
      · exact ⟨_, le_rfl, hw.step hs⟩
    · obtain rfl : k = 0 := Nat.le_zero.mp hk
      exact ⟨_, le_rfl, hw.step hs⟩

/-- a point before instruction `j` of its block can be reached without completing `j` -/
theorem Walk.exists_not_done (h : Walk f ⟨a, 0⟩ τ ⟨b, k⟩) (hk : k ≤ j) :
    ∃ τ₁, Walk f ⟨a, 0⟩ τ₁ ⟨b, k⟩ ∧ Event.done b j ∉ τ₁ := by
  -- on the length of the walk: one that completes `j` contains a shorter one to the same point
  induction hn : τ.length using Nat.strong_induction_on generalizing τ with
  | _ n ih =>
    by_cases hd : Event.done b j ∈ τ
    · obtain ⟨τ₁, hlt, h₁⟩ := h.before_done hd
      obtain ⟨τ₂, hle, h₂⟩ := h₁.back hk
      exact ih τ₂.length (by omega) h₂ rfl
    · exact ⟨τ, h, hd⟩

theorem Run.exists_not_done (h : Run f τ ⟨b, k⟩) (hk : k ≤ j) :
    ∃ τ₁, Run f τ₁ ⟨b, k⟩ ∧ Event.done b j ∉ τ₁ := by
  obtain ⟨σ, hw, rfl⟩ := h
  obtain ⟨σ₁, h₁, hnot⟩ := hw.exists_not_done hk
  exact ⟨_, ⟨σ₁, h₁, rfl⟩, by simpa using hnot⟩

/-- the one event that defines `v` -/
theorem Function.Structured.event_unique (hf : f.Structured) (hv : v < f.values.length)
    {s : DefinitionSite} (hs : (v, s) ∈ definitionSites f) {e : Event} (he : v ∈ f.defines e) :
    e = s.event := by
  obtain ⟨s', rfl, hs'⟩ := exists_site hf.toIndexed he
  rw [hf.unique hv hs' hs]

/-- a value is defined by one event -/
theorem Function.Structured.defines_unique (hf : f.Structured) {e e' : Event} (he : v ∈ f.defines e)
    (he' : v ∈ f.defines e') : e' = e := by
  obtain ⟨s, rfl, hs⟩ := exists_site hf.toIndexed he
  exact hf.event_unique (hf.declared hs) hs he'

theorem instructionAt_of_defines (h : v ∈ f.defines (.done b j)) :
    (f.instructionAt ⟨b, j⟩).isSome := by
  simp only [Function.defines, Option.mem_toList, Option.bind_eq_some_iff] at h
  obtain ⟨i, hi, -⟩ := h
  rw [hi]
  rfl

/-- A path reads a value before its definition only past a handler edge that left the defining block
too early. -/
theorem readsDefined_of_noLateReads (hf : f.Accepted) (h : NoLateReads f) : ReadsDefined f := by
  intro τ q hrun v hv
  obtain ⟨s, -, hs⟩ := hf.site (hf.lt_of_readsAt hv)
  have hdom := hf.dominated hv hs
  refine ⟨s.event, ?_, (mem_defines hf.toIndexed).mpr hs⟩
  cases s with
  | entry =>
    obtain ⟨σ, -, rfl⟩ := hrun
    simp [DefinitionSite.event]
  | blockEntry d =>
    simp only [definitionDominatesDefinition, Bool.or_eq_true, decide_eq_true_eq] at hdom
    rcases hdom with rfl | hd
    · exact hrun.enter_block
    · exact hrun.enter_dominator hf.toIndexed hd
  | instruction d j =>
    simp only [definitionDominatesDefinition, Bool.or_eq_true, Bool.and_eq_true,
      decide_eq_true_eq] at hdom
    rcases hdom with ⟨rfl, hlt⟩ | ⟨hne, hd⟩
    · exact hrun.done_of_lt hlt
    · by_contra hnot
      have hdef := (mem_defines hf.toIndexed).mpr hs
      have henter := hrun.enter_dominator hf.toIndexed hd
      obtain ⟨σ, hw, rfl⟩ := hrun
      rw [DefinitionSite.event, List.mem_append, not_or] at hnot
      have hvisit : d = f.entry ∨ Event.enter d ∈ σ := by simpa [or_comm] using henter
      rcases hw.left_early hvisit (instructionAt_of_defines hdef) hnot.1 with
        ⟨heq, -⟩ | ⟨site, i, c, σ₁, σ₂, hle, hi, hc, h₁, h₂, rfl⟩
      · exact hne heq.symm
      · have hdone := h _ d site i c j v σ₂ q ⟨σ₁, h₁, rfl⟩ hi hc hle hdef h₂ hv
        exact hnot.1 (List.mem_append_left _ hdone)

theorem noLateReads_of_readsDefined (hf : f.Accepted) (h : ReadsDefined f) : NoLateReads f := by
  intro ρ b site i c j v τ q hrun hi hc hle hdef hw hv
  obtain ⟨ρ₁, h₁, hnot⟩ := hrun.exists_not_done hle
  have hall : Run f (τ ++ ([.enter c] ++ ρ₁)) q := (h₁.step (.raise hi hc)).trans hw
  obtain ⟨e, he, hev⟩ := h _ q hall v hv
  have hs := (mem_defines hf.toIndexed (s := .instruction b j)).mp hdef
  rw [hf.event_unique (hf.lt_of_readsAt hv) hs hev] at he
  -- the definition ran after the handler was entered
  simp only [DefinitionSite.event, List.mem_append, List.mem_singleton] at he
  rcases he with he | he | he
  · exact he
  · exact absurd he (by simp)
  · exact absurd he hnot

/-- In an accepted function every read is defined exactly when no late value is read past a handler. -/
theorem readsDefined_iff_noLateReads {m : Module} (h : verifyFunction m f = []) :
    ReadsDefined f ↔ NoLateReads f :=
  ⟨noLateReads_of_readsDefined (accepted_of_verify h),
    readsDefined_of_noLateReads (accepted_of_verify h)⟩

def samplePos : Pos := ⟨"sample.ts", 1, 1⟩

/-- a call of function 1, which can raise, inside a `try` whose landing block is `handler` -/
def raisingCall (handler : BlockId) : Instruction where
  kind := .call ⟨.function 1, [], none⟩
  traps := [⟨.call, samplePos⟩, ⟨.raise (.handler handler), samplePos⟩]

def copyInto (result : ValueId) (operand : Operand) : Instruction where
  result := some result
  kind := .copy
  operands := [operand]

def one : Operand := .constant ⟨.i32, .integer 1⟩

/-- a function that may raise, with nothing else in it -/
def raisingFunction : Function where
  id := 1
  sourceName := "fail"
  canRaise := true
  blocks := [{ id := 0, terminator := .return none }]

/-- The block raises, or goes on to define value 0; two blocks past the handler, value 0 is read. The
handler block itself reads nothing. -/
def lateRead : Function where
  id := 0
  sourceName := "late"
  values := [⟨0, .data .i32, false⟩, ⟨1, .data .i32, false⟩]
  blocks := [
    { id := 0, instructions := [raisingCall 1, copyInto 0 one], terminator := .return none },
    { id := 1, instructions := [{ kind := .catchEntry }], terminator := .branch { block := 2 } },
    { id := 2, instructions := [copyInto 1 (.value 0)], terminator := .return none }]

/-- the same blocks with the definition before the raise site -/
def earlyRead : Function where
  id := 0
  sourceName := "early"
  values := [⟨0, .data .i32, false⟩, ⟨1, .data .i32, false⟩]
  blocks := [
    { id := 0, instructions := [copyInto 0 one, raisingCall 1], terminator := .return none },
    { id := 1, instructions := [{ kind := .catchEntry }], terminator := .branch { block := 2 } },
    { id := 2, instructions := [copyInto 1 (.value 0)], terminator := .return none }]

theorem readsDefined_iff_noLateReads_earlyRead :
    verifyFunction { functions := [earlyRead, raisingFunction] } earlyRead = [] ∧
      (ReadsDefined earlyRead ↔ NoLateReads earlyRead) :=
  have h : verifyFunction { functions := [earlyRead, raisingFunction] } earlyRead = [] := by
    decide
  ⟨h, readsDefined_iff_noLateReads h⟩

theorem lateRead_run : Run lateRead [.enter 2, .done 1 0, .enter 1, .enter 0, .start] ⟨2, 0⟩ := by
  have h₁ : Walk lateRead ⟨0, 0⟩ [.enter 1] ⟨1, 0⟩ :=
    Walk.refl.step (.raise rfl rfl)
  have h₂ : Walk lateRead ⟨0, 0⟩ [.done 1 0, .enter 1] ⟨1, 1⟩ := h₁.step (.next rfl)
  have h₃ : Walk lateRead ⟨0, 0⟩ [.enter 2, .done 1 0, .enter 1] ⟨2, 0⟩ :=
    h₂.step (.jump rfl rfl (by decide))
  exact ⟨_, h₃, rfl⟩

theorem lateRead_accepted_not_readsDefined :
    verifyFunction { functions := [lateRead, raisingFunction] } lateRead = [] ∧
      ¬ ReadsDefined lateRead := by
  refine ⟨by decide, fun h => ?_⟩
  have hread := h _ _ lateRead_run 0 (by decide)
  exact absurd hread (by decide)

end Subscript.Lir
