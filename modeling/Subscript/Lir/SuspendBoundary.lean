import Subscript.Lir.DefinedReads

/-! Values and suspensions. A resumed activation has only the values defined since the suspension. The
verifier checks this inside the region that the resume block dominates; past a join with a path that
did not suspend, nothing is checked. -/

namespace Subscript.Lir

open List

/-- what happened since the last suspension -/
def sinceSuspend (τ : List Event) : List Event := τ.takeWhile (· ≠ .suspend)

/-- on every path each value operand read after a suspension was defined since the last one -/
def ResumeReadsDefined (f : Function) : Prop :=
  ∀ τ q, Run f τ q → Event.suspend ∈ τ →
    ∀ v ∈ f.readsAt q, ∃ e ∈ sinceSuspend τ, v ∈ f.defines e

/-- `c` is the resume block of a suspension that some path reaches -/
def ResumesAt (f : Function) (c : BlockId) : Prop :=
  ∃ ρ r t, Run f ρ r ∧ f.terminatorAt r = some t ∧ t.resume? = some c

/-- a walk from the resume block on which the function does not suspend again -/
def ResumedWalk (f : Function) (c : BlockId) (τ : List Event) (q : Point) : Prop :=
  ResumesAt f c ∧ Walk f ⟨c, 0⟩ τ q ∧ Event.suspend ∉ τ

/-- A block that a resumed walk reaches, but that the resume block does not dominate, reads only
values that the walk defined. -/
def NoJoinedReads (f : Function) : Prop :=
  ∀ c τ q v, ResumedWalk f c τ q → c ∉ (dominators f).of q.block → v ∈ f.readsAt q →
    ∃ e ∈ τ ++ [.enter c], v ∈ f.defines e

/-- `NoLateReads` for the handler edges that a resumed walk takes. -/
def NoLateResumedReads (f : Function) : Prop :=
  ∀ c σ b site i h j v τ q, ResumedWalk f c σ ⟨b, site⟩ → f.instructionAt ⟨b, site⟩ = some i →
    i.handler = some h → site ≤ j → v ∈ f.defines (.done b j) →
    Walk f ⟨h, 0⟩ τ q → Event.suspend ∉ τ → v ∈ f.readsAt q →
    Event.done b j ∈ τ ∨ Event.done b j ∈ σ

variable {f : Function} {p q r : Point} {τ σ ρ : List Event} {b c d : BlockId} {j : Nat} {v : ValueId}

theorem sinceSuspend_append (hτ : Event.suspend ∉ τ) :
    sinceSuspend (τ ++ ([.enter c, .suspend] ++ ρ)) = τ ++ [.enter c] := by
  have hall : ∀ e ∈ τ ++ [.enter c], decide (e ≠ .suspend) = true := by
    intro e he
    rcases mem_append.mp he with he | he
    · exact decide_eq_true fun h => hτ (h ▸ he)
    · rw [mem_singleton.mp he]
      rfl
  have hsplit : τ ++ ([.enter c, .suspend] ++ ρ) = (τ ++ [.enter c]) ++ .suspend :: ρ := by simp
  rw [sinceSuspend, hsplit, takeWhile_append_of_pos hall]
  simp

/-- the last suspension of a walk and what follows it -/
theorem Walk.last_suspend (h : Walk f p τ q) (hs : Event.suspend ∈ τ) :
    ∃ τ₁ τ₂ r t c, Walk f p τ₁ r ∧ f.terminatorAt r = some t ∧ t.resume? = some c ∧
      Walk f ⟨c, 0⟩ τ₂ q ∧ Event.suspend ∉ τ₂ ∧ τ = τ₂ ++ ([.enter c, .suspend] ++ τ₁) := by
  induction h with
  | refl => exact absurd hs not_mem_nil
  | @step τ ε q r hw hstep ih =>
    by_cases hε : Event.suspend ∈ ε
    · cases hstep with
      | @suspend t c ht hc => exact ⟨τ, [], q, t, c, hw, ht, hc, .refl, not_mem_nil, rfl⟩
      | _ => exact absurd hε (by simp)
    · obtain ⟨τ₁, τ₂, r', t, c, h₁, ht, hc, h₂, hnot, rfl⟩ := ih ((mem_append.mp hs).resolve_left hε)
      refine ⟨τ₁, ε ++ τ₂, r', t, c, h₁, ht, hc, h₂.step hstep, ?_, by simp⟩
      simp [hε, hnot]

theorem Run.last_suspend (h : Run f τ q) (hs : Event.suspend ∈ τ) :
    ∃ c σ, ResumedWalk f c σ q ∧ sinceSuspend τ = σ ++ [.enter c] := by
  obtain ⟨σ, hw, rfl⟩ := h
  obtain ⟨τ₁, τ₂, r, t, c, h₁, ht, hc, h₂, hnot, rfl⟩ := hw.last_suspend (by simpa using hs)
  refine ⟨c, τ₂, ⟨⟨_, r, t, ⟨τ₁, h₁, rfl⟩, ht, hc⟩, h₂, hnot⟩, ?_⟩
  rw [append_assoc, append_assoc, sinceSuspend_append hnot]

/-- a resumed walk is the end of a run -/
theorem ResumedWalk.run (h : ResumedWalk f c σ q) :
    ∃ τ, Run f τ q ∧ Event.suspend ∈ τ ∧ sinceSuspend τ = σ ++ [.enter c] := by
  obtain ⟨⟨ρ, r, t, hrun, ht, hc⟩, hw, hnot⟩ := h
  exact ⟨_, (hrun.step (.suspend ht hc)).trans hw, by simp, sinceSuspend_append hnot⟩

theorem ResumedWalk.reachable (h : ResumedWalk f c σ q) : Flow.Reachable f.Edge f.entry c := by
  obtain ⟨⟨ρ, r, t, hrun, ht, hc⟩, -, -⟩ := h
  exact (hrun.step (.suspend ht hc)).reachable

/-- the block of a definition that dominates a use -/
theorem dominates_use (hf : f.Indexed) {s : DefinitionSite} {d : BlockId}
    (hs : s = .blockEntry d ∨ s = .instruction d j)
    (h : definitionDominatesDefinition (dominators f) s (.instruction q.block q.index) = true) :
    Flow.Dominates f.Edge f.entry d q.block := by
  have hd : d = q.block ∨ d ∈ (dominators f).of q.block := by
    rcases hs with rfl | rfl
    · simpa [definitionDominatesDefinition] using h
    · simp only [definitionDominatesDefinition, Bool.or_eq_true, Bool.and_eq_true,
        decide_eq_true_eq] at h
      exact h.imp And.left And.right
  rcases hd with rfl | hd
  · exact .refl
  · exact dominates_of_mem_dominators hf hd

/-- inside the region of the resume block a walk passes the block that defines what it reads -/
theorem ResumedWalk.enter_definition (hf : f.Indexed) (h : ResumedWalk f c σ q)
    (hc : c ∈ (dominators f).of d) (hd : Flow.Dominates f.Edge f.entry d q.block) :
    d = c ∨ Event.enter d ∈ σ := by
  refine or_iff_not_imp_left.mpr fun hne => Walk.mem_entered.mp ?_
  exact (dominates_of_mem_dominators hf hc).mem_of_path hd hne h.reachable h.2.1.blockPath

theorem resumeReadsDefined_of_conditions (hf : f.Accepted) (hjoin : NoJoinedReads f)
    (hlate : NoLateResumedReads f) : ResumeReadsDefined f := by
  intro τ q hrun hsus v hv
  obtain ⟨c, σ, hw, hsince⟩ := hrun.last_suspend hsus
  rw [hsince]
  by_cases hregion : c ∈ (dominators f).of q.block
  · obtain ⟨s, -, hs⟩ := hf.site (hf.lt_of_readsAt hv)
    obtain ⟨ρ, r, t, -, ht, hc⟩ := hw.1
    have hinside := hf.boundary ht hc hregion hv hs
    have hdom := hf.dominated hv hs
    refine ⟨s.event, ?_, (mem_defines hf.toIndexed).mpr hs⟩
    cases s with
    | entry => exact absurd hinside (by simp [insideResumeRegion])
    | blockEntry d =>
      have hcd : c ∈ (dominators f).of d := by simpa [insideResumeRegion] using hinside
      have hd := dominates_use (j := 0) hf.toIndexed (.inl rfl) hdom
      rcases hw.enter_definition hf.toIndexed hcd hd with rfl | he
      · exact mem_append_right _ mem_cons_self
      · exact mem_append_left _ he
    | instruction d j =>
      have hcd : c ∈ (dominators f).of d := by simpa [insideResumeRegion] using hinside
      have hvisit := hw.enter_definition hf.toIndexed hcd (dominates_use hf.toIndexed (.inr rfl) hdom)
      have hdef := (mem_defines hf.toIndexed).mpr hs
      refine mem_append_left _ (by_contra fun hnot => ?_)
      rcases hw.2.1.left_early hvisit (instructionAt_of_defines hdef) hnot with
        ⟨heq, hle⟩ | ⟨site, i, h, σ₁, σ₂, hle, hi, hh, h₁, h₂, rfl⟩
      · -- the read would stand before the definition in the same block
        simp only [definitionDominatesDefinition, Bool.or_eq_true, Bool.and_eq_true,
          decide_eq_true_eq] at hdom
        rcases hdom with ⟨-, hlt⟩ | ⟨hne, -⟩
        · omega
        · exact hne heq.symm
      · have hsus₁ : Event.suspend ∉ σ₁ := fun h => hw.2.2 (by simp [h])
        have hsus₂ : Event.suspend ∉ σ₂ := fun h => hw.2.2 (by simp [h])
        rcases hlate c σ₁ d site i h j v σ₂ q ⟨hw.1, h₁, hsus₁⟩ hi hh hle hdef h₂ hsus₂ hv with hd | hd
        · exact hnot (mem_append_left _ hd)
        · exact hnot (mem_append_right _ (mem_cons_of_mem _ hd))
  · exact hjoin c σ q v hw hregion hv

theorem noJoinedReads_of_resumeReadsDefined (h : ResumeReadsDefined f) : NoJoinedReads f := by
  intro c τ q v hw _ hv
  obtain ⟨ρ, hrun, hsus, hsince⟩ := hw.run
  obtain ⟨e, he, hev⟩ := h ρ q hrun hsus v hv
  exact ⟨e, hsince ▸ he, hev⟩

theorem noLateResumedReads_of_resumeReadsDefined (hf : f.Accepted) (h : ResumeReadsDefined f) :
    NoLateResumedReads f := by
  intro c σ b site i hd j v τ q hw hi hh hle hdef hτ hnot hv
  have hall : ResumedWalk f c (τ ++ ([.enter hd] ++ σ)) q := by
    refine ⟨hw.1, (hw.2.1.step (.raise hi hh)).trans hτ, ?_⟩
    simp [hnot, hw.2.2]
  obtain ⟨ρ, hrun, hsus, hsince⟩ := hall.run
  obtain ⟨e, he, hev⟩ := h ρ q hrun hsus v hv
  have hs := (mem_defines hf.toIndexed (s := .instruction b j)).mp hdef
  rw [hf.event_unique (hf.lt_of_readsAt hv) hs hev, hsince] at he
  simpa [DefinitionSite.event] using he

/-- In an accepted function no resume reads a value of the discarded activation exactly when both the
joins below a resume block and the handler edges of a resumed walk read only new values. -/
theorem resumeReadsDefined_iff {m : Module} (h : verifyFunction m f = []) :
    ResumeReadsDefined f ↔ NoJoinedReads f ∧ NoLateResumedReads f :=
  have hf := accepted_of_verify h
  ⟨fun hr => ⟨noJoinedReads_of_resumeReadsDefined hr, noLateResumedReads_of_resumeReadsDefined hf hr⟩,
    fun hc => resumeReadsDefined_of_conditions hf hc.1 hc.2⟩

def suspendTo (successor : BlockId) : Terminator :=
  .suspend { kind := .async, pos := samplePos, successor }

/-- One branch suspends, the other does not; below the join value 0 of the old activation is read. -/
def joinedRead : Function where
  id := 0
  sourceName := "joined"
  isAsync := true
  values := [⟨0, .data .i32, false⟩, ⟨1, .data .i32, false⟩]
  blocks := [
    { id := 0
      instructions := [copyInto 0 one]
      terminator :=
        .conditionalBranch (.constant ⟨.bool, .boolean true⟩) { block := 1 } { block := 2 } },
    { id := 1, terminator := suspendTo 3 },
    { id := 2, terminator := .branch { block := 4 } },
    { id := 3, terminator := .branch { block := 4 } },
    { id := 4, instructions := [copyInto 1 (.value 0)], terminator := .return none }]

/-- everything that the resumed activation reads is defined there -/
def separateRead : Function where
  id := 0
  sourceName := "separate"
  isAsync := true
  values := [⟨0, .data .i32, false⟩, ⟨1, .data .i32, false⟩]
  blocks := [
    { id := 0, terminator := suspendTo 1 },
    { id := 1, instructions := [copyInto 0 one, copyInto 1 (.value 0)], terminator := .return none }]

theorem resumeReadsDefined_iff_separateRead :
    verifyFunction { functions := [separateRead] } separateRead = [] ∧
      (ResumeReadsDefined separateRead ↔
        NoJoinedReads separateRead ∧ NoLateResumedReads separateRead) :=
  have h : verifyFunction { functions := [separateRead] } separateRead = [] := by decide
  ⟨h, resumeReadsDefined_iff h⟩

theorem joinedRead_run :
    Run joinedRead [.enter 4, .enter 3, .suspend, .enter 1, .done 0 0, .enter 0, .start] ⟨4, 0⟩ := by
  have h₁ : Walk joinedRead ⟨0, 0⟩ [.done 0 0] ⟨0, 1⟩ := Walk.refl.step (.next rfl)
  have h₂ : Walk joinedRead ⟨0, 0⟩ [.enter 1, .done 0 0] ⟨1, 0⟩ :=
    h₁.step (.jump rfl rfl (by decide))
  have h₃ : Walk joinedRead ⟨0, 0⟩ [.enter 3, .suspend, .enter 1, .done 0 0] ⟨3, 0⟩ :=
    h₂.step (.suspend rfl rfl)
  have h₄ : Walk joinedRead ⟨0, 0⟩ [.enter 4, .enter 3, .suspend, .enter 1, .done 0 0] ⟨4, 0⟩ :=
    h₃.step (.jump rfl rfl (by decide))
  exact ⟨_, h₄, rfl⟩

theorem joinedRead_accepted_not_resumeReadsDefined :
    verifyFunction { functions := [joinedRead] } joinedRead = [] ∧
      ¬ ResumeReadsDefined joinedRead := by
  refine ⟨by decide, fun h => ?_⟩
  have hread := h _ _ joinedRead_run (by decide) 0 (by decide)
  exact absurd hread (by decide)

end Subscript.Lir
