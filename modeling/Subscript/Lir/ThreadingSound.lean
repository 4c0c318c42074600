import Subscript.Lir.ThreadingStart

/-! `thread_suspension_live_ins` as a whole: it ends, its result is in SSA form, a resumed activation reads
only what was defined since the suspension, and every operand has the value that it had. -/

namespace Subscript.Lir

open List

section Reads

variable {f g h : Function}

theorem SameReads.refl (f : Function) : SameReads f f := by
  intro V constant env choices
  cases exec f constant choices (f.initial env) with
  | none => exact .none
  | some c => exact .some ⟨rfl, fun i j group operand hgroup hop => ⟨group, operand, hgroup, hop, rfl⟩⟩

theorem SameReads.trans (h₁ : SameReads f g) (h₂ : SameReads g h) : SameReads f h := by
  intro V constant env choices
  have hfg := h₁ V constant env choices
  have hgh := h₂ V constant env choices
  generalize exec f constant choices (f.initial env) = a at hfg ⊢
  generalize exec g constant choices (g.initial env) = b at hfg hgh
  generalize exec h constant choices (h.initial env) = c at hgh ⊢
  cases hfg with
  | none =>
    cases hgh with
    | none => exact .none
  | @some x y hxy =>
    cases hgh with
    | @some _ z hyz =>
      refine .some ⟨hyz.1.trans hxy.1, fun i j group operand hgroup hop => ?_⟩
      obtain ⟨group₁, operand₁, hgroup₁, hop₁, heval₁⟩ := hxy.2 i j group operand hgroup hop
      rw [← hxy.1] at hgroup₁
      obtain ⟨group₂, operand₂, hgroup₂, hop₂, heval₂⟩ := hyz.2 i j group₁ operand₁ hgroup₁ hop₁
      rw [hxy.1] at hgroup₂
      exact ⟨group₂, operand₂, hgroup₂, hop₂, heval₂.trans heval₁⟩

end Reads

section Origins

variable {f : Function} {liveIn : LiveSets} {carried : Carried} {G : VersionGraph} {R : List ValueId} {o : ValueId}

/-- liveness goes back along the edges of the function -/
theorem OriginFacts.Of.flows {O : OriginFacts} (hO : O.Of f) (hf : Ssa f) : O.Flows f.Edge f.entry where
  entry hlive := by
    obtain ⟨hlive, hnot⟩ := ((hO.live f.entry).mp hlive).live hf.toStructured
    obtain ⟨block, hb⟩ : ∃ block, f.blocks[f.entry]? = some block := ⟨_, getElem?_eq_getElem hf.entry⟩
    refine (hO.entryDefinition hb).mpr (.inr ⟨rfl, ?_⟩)
    exact (hf.defined_of_live_entry hlive).resolve_left hnot
  edge := by
    rintro b c ⟨block, hb, hc⟩ hlive
    have hin := (hO.live c).mp hlive
    by_cases hdef : O.origin ∈ (block.exposure f.values.length).definitions
    · left
      rw [OriginFacts.defines, Bool.or_eq_true, hO.entryDefinition hb, hO.instructionDefinition hb]
      exact (BasicBlock.mem_definitions.mp hdef).imp (fun h => .inl h.1) id
    · exact .inr ((hO.live b).mpr (.edge hb hc hin hdef))

section

variable (hS : Setting f liveIn carried G)

include hS

theorem Setting.stale_iff {O : OriginFacts} (hO : O.Of f) {b : BlockId} : O.Stale f.Edge f.entry b ↔ Stale f O.origin b := by
  have hsource : ∀ b, Flow.Reachable f.Edge f.entry b → (O.Source b ↔ VersionSource f O.origin b) :=
    fun b hr => hO.source_iff hS.ssa hr
  have hdead : Flow.Reachable f.Edge f.entry b → (O.live b = false ↔ ¬ LiveAtEntry f b O.origin) := by
    intro hr
    obtain ⟨block, hb⟩ := hS.ssa.block_of_reachable hr
    obtain ⟨l, hpath⟩ := hr
    obtain ⟨τ, hrun, -⟩ := Run.of_path hpath
    rw [← hS.ssa.liveIn_iff hrun hb, ← hO.live, Bool.not_eq_true]
  constructor
  · intro h
    have hr := h.contested.reachable
    exact ⟨(hdead hr).mp h.dead, fun hv => h.notSource ((hsource b hr).mpr hv), h.contested.congr hsource⟩
  · intro h
    have hr := h.contested.reachable
    exact ⟨(hdead hr).mpr h.dead, fun hv => h.notSource ((hsource b hr).mp hv),
      h.contested.congr fun c hc => (hsource c hc).symm⟩

theorem Setting.climbs {O : OriginFacts} (hO : O.Of f) : O.Climbs f.Edge f.entry := by
  intro u v l hv hE hle hpath
  obtain ⟨l', hl'⟩ := hS.threadable.backward ((hS.stale_iff hO).mp hv) hE hle
    (hpath.mono fun h => ⟨h.1, (hS.stale_iff hO).mp h.2.1, h.2.2⟩)
  exact ⟨l', hl'.mono fun h => ⟨h.1, h.2.1, (hS.stale_iff hO).mpr h.2.2⟩⟩

/-- one origin: its loop ends, and its rewriting goes well -/
theorem Stage.thread {t : Threading} (hstage : Stage f carried (o :: R) t.function)
    (hlt : ∀ v ∈ o :: R, v < f.values.length) (hnodup : o ∉ R) :
    ∃ n s t', (∀ fuel > n, versions G (originFacts t.function f.values.length liveIn carried o) fuel
        t.function.values.length = some s) ∧
      applyVersions G (originFacts t.function f.values.length liveIn carried o) s t = .ok t' ∧
      Stage f carried R t'.function ∧ SameReads t.function t'.function := by
  have hO : (originFacts t.function f.values.length liveIn carried o).Of f := hS.facts hstage
  obtain ⟨n, s, hs⟩ := versions_terminates hS.graph (hO.flows hS.ssa) (hS.climbs hO)
  obtain ⟨hinv, hstable⟩ := versions_stable (hs (n + 1) (Nat.lt_succ_self n))
  have hbrought := versions_brought hS.graph (hs (n + 1) (Nat.lt_succ_self n))
  have hversioned : Versioned f G (originFacts t.function f.values.length liveIn carried o) t.function.values.length s :=
    ⟨hS.ssa, hS.threadable, hS.resumed, hS.graph, hS.count, hO, hinv, hbrought, hstable⟩
  have hsus : ∀ {b c : BlockId} {block : BasicBlock}, t.function.blocks[b]? = some block →
      block.terminator.resume? = some c →
      ((originFacts t.function f.values.length liveIn carried o).special c).isSome → (s.outgoing.of b).isSome := by
    intro b c block hb hc hsp
    obtain ⟨block₀, hb₀, heq⟩ := hstage.shape.symm.block hb
    have hres : block₀.terminator.resume? = some c := (congrArg BlockShape.resume heq).trans hc
    have hin := hversioned.liveIn_of_special hsp
    exact hversioned.outgoing_isSome hb₀ (hS.threadable.suspends hb₀ hres (hin.live hS.ssa.toStructured))
      (resume_mem_successors hres) hin
  have hmerge : ∀ c, (s.merges.of c).isSome → c < G.count := by
    intro c hc
    obtain ⟨m, hm⟩ := Option.isSome_iff_exists.mp hc
    exact hS.graph.lt (hinv.merge hm).2.2.1
  obtain ⟨t', ht', hframe, hblocks, hvalues, -⟩ := applyVersions_spec (hS.count.trans hstage.shape.length.symm)
    hstage.structured.block hsus hmerge (Nat.lt_of_lt_of_le (hlt o mem_cons_self) hstage.le) hinv.le_fresh
  have hnext : NextOrigin f liveIn carried G (originFacts t.function f.values.length liveIn carried o) R s
      t.function t'.function :=
    ⟨hS, hstage, hversioned, rfl, ⟨hframe, hblocks, hvalues⟩, hlt, hnodup⟩
  exact ⟨n, s, t', hs, ht', hnext.next, hnext.sameReads⟩

theorem threadOrigins_spec {t : Threading} (hstage : Stage f carried R t.function)
    (hlt : ∀ v ∈ R, v < f.values.length) (hnodup : R.Nodup) :
    ∃ n t', (∀ fuel > n, threadOrigins fuel G (fun g => originFacts g f.values.length liveIn carried) R t = some (.ok t')) ∧
      Stage f carried [] t'.function ∧ SameReads t.function t'.function := by
  induction R generalizing t with
  | nil => exact ⟨0, t, fun _ _ => rfl, hstage, .refl _⟩
  | cons o R ih =>
    obtain ⟨hnot, hnodup⟩ := nodup_cons.mp hnodup
    obtain ⟨n₁, s, t₁, hs, ht₁, hstage₁, hsame₁⟩ := hstage.thread hS hlt hnot
    obtain ⟨n₂, t₂, ht₂, hstage₂, hsame₂⟩ := ih hstage₁ (fun v hv => hlt v (mem_cons_of_mem _ hv)) hnodup
    refine ⟨max n₁ n₂, t₂, fun fuel hfuel => ?_, hstage₂, hsame₁.trans hsame₂⟩
    simp only [threadOrigins, hs fuel (lt_of_le_of_lt (le_max_left _ _) hfuel), ht₁]
    exact ht₂ fuel (lt_of_le_of_lt (le_max_right _ _) hfuel)

end

end Origins

section Pass

variable {f g : Function} {carried : Carried}

/-- when no origin is left -/
theorem Stage.ssa (hf : Ssa f) (h : Stage f carried [] g) : Ssa g where
  toStructured := h.structured
  reads_defined τ q hrun v hv := by
    obtain ⟨e, he, hdef⟩ := h.since τ q (h.shape.symm.run hrun) v hv not_mem_nil
    exact ⟨e, takeWhile_subset _ he, hdef⟩
  edges := by
    refine ⟨fun hb c n hmem => ⟨?_, ?_⟩, fun hb i hi d hd => ⟨?_, ?_⟩⟩
    · have hE : f.Edge _ c := h.shape.edge.mp ⟨_, hb, mem_append_right _ (mem_successors_of_passes hmem)⟩
      obtain ⟨target, htarget⟩ := hf.block_of_edge hE
      rw [h.shape.length]
      exact (List.getElem?_eq_some_iff.mp htarget).1
    · rename_i b block
      cases hr : block.terminator.resume? with
      | none => exact h.normal hb hr c n hmem
      | some d =>
        obtain ⟨pre, hparams, rfl⟩ := h.suspended hb (by rw [hr]; rfl) c n hmem
        rw [hparams, filterMap_nil, append_nil]
    · have hE : f.Edge _ d := h.shape.edge.mp ⟨_, hb, mem_append_left _ (mem_filterMap.mpr ⟨i, hi, hd⟩)⟩
      obtain ⟨target, htarget⟩ := hf.block_of_edge hE
      rw [h.shape.length]
      exact (List.getElem?_eq_some_iff.mp htarget).1
    · exact h.handlers hb (mem_filterMap.mpr ⟨i, hi, hd⟩)

theorem Stage.resumeReadsDefined (h : Stage f carried [] g) : ResumeReadsDefined g := by
  intro τ q hrun _ v hv
  exact h.since τ q (h.shape.symm.run hrun) v hv not_mem_nil

theorem exists_started (hf : Ssa f) (hresumed : ResumedOnly f) (hthread : Threadable f) :
    ∃ n liveIn c, (∀ fuel > n, lirLiveIns fuel f f.values.length = some liveIn) ∧ carryLiveIns f liveIn = .ok c ∧
      Started f liveIn c := by
  obtain ⟨n, liveIn, hlive⟩ : ∃ n sets, ∀ fuel > n, lirLiveIns fuel f f.values.length = some sets :=
    lirLiveIns_terminates hf.toIndexed
  have hmem : ∀ b v, v ∈ liveIn.of b ↔ LiveIn f f.values.length v b :=
    fun b v => mem_lirLiveIns hf.toIndexed (hlive (n + 1) (Nat.lt_succ_self n))
  have hres : ∀ b, ResumeBlock f b → b < f.blocks.length := by
    rintro c ⟨b, block, hb, hr⟩
    obtain ⟨target, htarget⟩ := hf.block_of_edge ⟨block, hb, mem_append_right _ (resume_mem_successors hr)⟩
    exact (List.getElem?_eq_some_iff.mp htarget).1
  have hlt : ∀ b, ∀ v ∈ liveIn.of b, v < f.values.length := by
    intro b v hv
    exact hf.lt_of_live (((hmem b v).mp hv).live hf.toStructured).1
  obtain ⟨c, hc, hinv, horiginals⟩ := carryLiveIns_spec hf.toIndexed hres hlt
  exact ⟨n, liveIn, c, hlive, hc, hf, hthread, hresumed, hmem, hinv, horiginals⟩

/-- A function that does not suspend is one that the pass is right for. -/
theorem threadable_of_not_resumed (hf : Ssa f) (h : ∀ b, ¬ ResumeBlock f b) : Threadable f := by
  have hsource : ∀ {v c d}, VersionSource f v c → VersionSource f v d → c = d := by
    intro v c d hc hd
    rcases hc.resolve_right fun hc => h c hc.1 with hv | ⟨rfl, hv⟩ | ⟨k, hv⟩ <;>
      rcases hd.resolve_right fun hd => h d hd.1 with hw | ⟨rfl, hw⟩ | ⟨j, hw⟩ <;>
      cases hf.defines_unique hv hw <;> rfl
  have hcontested : ∀ {v b}, ¬ ContestedAt f v b := by
    rintro v b ⟨c, d, hne, -, -, hc, hd⟩
    exact hne (hsource hc.source hd.source)
  exact
    { suspends := fun hb hres _ => absurd ⟨_, _, hb, hres⟩ (h _)
      preds := fun hj _ => absurd hj.contested hcontested
      handlers := fun hj _ => absurd hj.contested hcontested
      entry := fun hc _ _ => absurd hc (h _)
      backward := fun hs _ _ _ => absurd hs.contested hcontested }

end Pass

section Examples

variable {f : Function}

theorem noLateReads_of_noHandler (h : ∀ block ∈ f.blocks, block.instructions.filterMap Instruction.handler = []) :
    NoLateReads f := by
  intro ρ b site i c j v τ q _ hi hc
  obtain ⟨block, hb, hi⟩ := instructionAt_eq_some.mp hi
  have hmem : c ∈ block.instructions.filterMap Instruction.handler :=
    mem_filterMap.mpr ⟨i, mem_of_getElem? hi, hc⟩
  rw [h block (mem_of_getElem? hb)] at hmem
  exact absurd hmem not_mem_nil

theorem ssa_of_verify {m : Module} (h : verifyFunction m f = [])
    (hhandlers : ∀ block ∈ f.blocks, block.instructions.filterMap Instruction.handler = [])
    (hedges : ∀ block ∈ f.blocks, ∀ x ∈ block.terminator.passes, x.1 < f.blocks.length ∧ x.2 = (f.parametersOf x.1).length) :
    Ssa f where
  toStructured := (accepted_of_verify h).toStructured
  reads_defined := readsDefined_of_noLateReads (accepted_of_verify h) (noLateReads_of_noHandler hhandlers)
  edges := by
    refine ⟨fun hb c n hmem => hedges _ (mem_of_getElem? hb) (c, n) hmem, fun hb i hi d hd => ?_⟩
    have hmem := mem_filterMap.mpr ⟨i, hi, hd⟩
    rw [hhandlers _ (mem_of_getElem? hb)] at hmem
    exact absurd hmem not_mem_nil

theorem resumedOnly_of_check (h : ∀ c ∈ suspendSuccessors f, ∀ block ∈ f.blocks,
    c ∉ block.instructions.filterMap Instruction.handler ∧
      (block.terminator.resume? = none → c ∉ block.terminator.successors)) : ResumedOnly f := by
  intro c hc p ε hs
  have hc := h c (mem_suspendSuccessors.mpr hc)
  cases hs with
  | @raise i _ hi hh =>
    obtain ⟨block, hb, hi⟩ := instructionAt_eq_some.mp hi
    exact absurd (mem_filterMap.mpr ⟨i, mem_of_getElem? hi, hh⟩) (hc block (mem_of_getElem? hb)).1
  | @jump t _ ht hr hmem =>
    obtain ⟨block, hb, -, rfl⟩ := terminatorAt_eq_some.mp ht
    exact absurd hmem ((hc block (mem_of_getElem? hb)).2 hr)
  | suspend => simp

theorem joinedRead_ssa : Ssa joinedRead :=
  ssa_of_verify (m := { functions := [joinedRead] }) (by decide) (by decide) (by decide)

theorem joinedRead_edge {a b : BlockId} (h : joinedRead.Edge a b) :
    a < b ∧ Flow.Reachable joinedRead.Edge joinedRead.entry a := by
  have h₁ : Flow.Reachable joinedRead.Edge joinedRead.entry 1 :=
    ⟨[1], Flow.Path.refl.snoc ⟨_, rfl, by decide⟩⟩
  have h₂ : Flow.Reachable joinedRead.Edge joinedRead.entry 2 :=
    ⟨[2], Flow.Path.refl.snoc ⟨_, rfl, by decide⟩⟩
  have h₃ : Flow.Reachable joinedRead.Edge joinedRead.entry 3 :=
    ⟨[3, 1], (Flow.Path.refl.snoc ⟨_, rfl, by decide⟩).snoc ⟨_, rfl, by decide⟩⟩
  obtain ⟨block, hb, hmem⟩ := h
  match a, hb with
  | 0, hb =>
    obtain rfl := Option.some.inj hb
    refine ⟨?_, [], .refl⟩
    revert b
    decide
  | 1, hb =>
    obtain rfl := Option.some.inj hb
    refine ⟨?_, h₁⟩
    revert b
    decide
  | 2, hb =>
    obtain rfl := Option.some.inj hb
    refine ⟨?_, h₂⟩
    revert b
    decide
  | 3, hb =>
    obtain rfl := Option.some.inj hb
    refine ⟨?_, h₃⟩
    revert b
    decide
  | 4, hb =>
    obtain rfl := Option.some.inj hb
    exact absurd hmem not_mem_nil

/-- A loop with a branch in its body, and then value 0 over a way with a suspension and one without. The value is dead in
the loop, whose edge from 6 to 3 leads to a smaller number and not to a dominator. -/
def forThenAwait : Function where
  id := 0
  sourceName := "forThenAwait"
  isAsync := true
  values := [⟨0, .data .i32, false⟩, ⟨1, .data .i32, false⟩]
  blocks := [
    { id := 0, terminator := .branch { block := 1 } },
    { id := 1, terminator := .conditionalBranch (.constant ⟨.bool, .boolean true⟩) { block := 2 } { block := 4 } },
    { id := 2, terminator := .conditionalBranch (.constant ⟨.bool, .boolean true⟩) { block := 5 } { block := 6 } },
    { id := 3, terminator := .branch { block := 1 } },
    { id := 4
      instructions := [copyInto 0 one]
      terminator := .conditionalBranch (.constant ⟨.bool, .boolean true⟩) { block := 7 } { block := 8 } },
    { id := 5, terminator := .branch { block := 6 } },
    { id := 6, terminator := .branch { block := 3 } },
    { id := 7, terminator := suspendTo 9 },
    { id := 8, terminator := .branch { block := 10 } },
    { id := 9, terminator := .branch { block := 10 } },
    { id := 10, instructions := [copyInto 1 (.value 0)], terminator := .return none }]

theorem forThenAwait_ssa : Ssa forThenAwait :=
  ssa_of_verify (m := { functions := [forThenAwait] }) (by decide +kernel) (by decide) (by decide)

theorem forThenAwait_resumedOnly : ResumedOnly forThenAwait := resumedOnly_of_check (by decide)

/-- all blocks are reached; an edge that does not rise is in the loop, and an edge behind the loop stays there -/
theorem forThenAwait_edge {a b : BlockId} (h : forThenAwait.Edge a b) :
    Flow.Reachable forThenAwait.Edge forThenAwait.entry a ∧ b ≠ 0 ∧ (b ≤ a → b = 1 ∨ b = 3) ∧
      (a = 4 ∨ 7 ≤ a → 7 ≤ b) := by
  have htarget : ∀ {a b}, forThenAwait.Edge a b → b < forThenAwait.blocks.length := fun hE => by
    obtain ⟨block, hb⟩ := forThenAwait_ssa.block_of_edge hE
    exact (List.getElem?_eq_some_iff.mp hb).1
  have hreach : ∀ c < 11, (versionGraph forThenAwait).reachable c = true := by decide
  have hall : ∀ c < 11, ∀ d ∈ successorsOf forThenAwait c, d ≠ 0 ∧ (d ≤ c → d = 1 ∨ d = 3) ∧ (c = 4 ∨ 7 ≤ c → 7 ≤ d) := by
    decide
  have ha : a < 11 := h.lt
  exact ⟨((versionGraph_describes forThenAwait_ssa.toIndexed htarget).reachable ha).mp (hreach a ha),
    hall a ha b (mem_successorsOf.mpr h)⟩

theorem forThenAwait_resumed {c : BlockId} (h : ResumeBlock forThenAwait c) : c = 9 := by
  obtain ⟨b, block, hb, hres⟩ := h
  have hall : ∀ block ∈ forThenAwait.blocks, ∀ d ∈ block.terminator.resume?, d = 9 := by decide
  exact hall block (mem_of_getElem? hb) c hres

theorem forThenAwait_source {v : ValueId} {c : BlockId} (h : VersionSource forThenAwait v c) : c = 4 ∨ 7 ≤ c := by
  rcases h with (h | ⟨-, h⟩ | ⟨k, h⟩) | ⟨hres, -⟩
  · have hnone : ∀ block ∈ forThenAwait.blocks, block.parameters = [] := by decide
    cases hb : forThenAwait.blocks[c]? with
    | none => simp [Function.defines, hb] at h
    | some block => simp [Function.defines, hb, hnone block (mem_of_getElem? hb)] at h
  · exact absurd h not_mem_nil
  · obtain ⟨block, i, hb, hi, -⟩ := mem_defines_done.mp h
    have hall : ∀ d < 11, ∀ block ∈ forThenAwait.blocks[d]?, block.instructions ≠ [] → d = 4 ∨ 7 ≤ d := by decide
    refine hall c (List.getElem?_eq_some_iff.mp hb).1 block hb ?_
    rintro hnil
    simp [hnil] at hi
  · exact .inr (by rw [forThenAwait_resumed hres]; decide)

theorem forThenAwait_delivers {v : ValueId} {b c : BlockId}
    (h : Flow.Delivers forThenAwait.Edge (VersionSource forThenAwait v) c b) : 7 ≤ b := by
  induction h with
  | edge hc hE => exact (forThenAwait_edge hE).2.2.2 (forThenAwait_source hc)
  | snoc _ _ hE ih => exact (forThenAwait_edge hE).2.2.2 (.inr ih)

theorem forThenAwait_threadable : Threadable forThenAwait where
  suspends hb hres _ := (forThenAwait_edge ⟨_, hb, mem_append_right _ (resume_mem_successors hres)⟩).1
  preds _ hE := (forThenAwait_edge hE).1
  handlers _ hb := by
    have hnone : ∀ block ∈ forThenAwait.blocks, block.instructions.filterMap Instruction.handler = [] := by decide
    rw [hnone _ (mem_of_getElem? hb)]
    exact not_mem_nil
  entry hres _ _ := by
    rw [forThenAwait_resumed hres]
    exact ⟨by decide, fun hdel => absurd (forThenAwait_delivers hdel) (by decide)⟩
  backward hs hE hle _ := by
    obtain ⟨c, -, -, -, -, hdel, -⟩ := hs.contested
    have hlate := forThenAwait_delivers hdel
    rcases (forThenAwait_edge hE).2.2.1 hle with rfl | rfl <;> exact absurd hlate (by decide)

/-- The loop of the liveness pass ends. In a block that can run, its set holds the values that some path from the entry of the
block reads before it defines them, and that are no parameters of the block. -/
theorem lirLiveIns_exact (h : Ssa f) : ∃ n sets, (∀ fuel > n, lirLiveIns fuel f f.values.length = some sets) ∧
    ∀ b block ρ v, f.blocks[b]? = some block → Run f ρ ⟨b, 0⟩ →
      (v ∈ sets.of b ↔ Live f ⟨b, 0⟩ v ∧ v ∉ block.parameters) := by
  obtain ⟨n, sets, ends⟩ := lirLiveIns_terminates h.toIndexed
  refine ⟨n, sets, ends, fun b block ρ v hb hrun => ?_⟩
  rw [mem_lirLiveIns h.toIndexed (ends (n + 1) (Nat.lt_succ_self n)), ← mem_defines_enter hb]
  refine ⟨fun hlive => hlive.live h.toStructured, fun ⟨hlive, hparam⟩ => ?_⟩
  rw [mem_defines_enter hb] at hparam
  exact liveIn_of_live h.toStructured h.reads_defined hrun hlive hb hparam not_mem_nil

theorem lirLiveIns_exact_joinedRead : Ssa joinedRead ∧
    ∃ n sets, (∀ fuel > n, lirLiveIns fuel joinedRead joinedRead.values.length = some sets) ∧
      ∀ b block ρ v, joinedRead.blocks[b]? = some block → Run joinedRead ρ ⟨b, 0⟩ →
        (v ∈ sets.of b ↔ Live joinedRead ⟨b, 0⟩ v ∧ v ∉ block.parameters) :=
  ⟨joinedRead_ssa, lirLiveIns_exact joinedRead_ssa⟩

/-- The verifier's dominators are exact for the blocks that the entry reaches, if no other block leads to one. -/
theorem dominators_exact (hf : f.Indexed) (hR : f.ReachablePreds) {b d : BlockId} (hb : b < f.blocks.length)
    (hd : d < f.blocks.length) (hr : Flow.Reachable f.Edge f.entry b) :
    d ∈ (dominators f).of b ↔ Flow.Dominates f.Edge f.entry d b :=
  ⟨dominates_of_mem_dominators hf, mem_dominators_of_dominates hf hR hb hd hr⟩

theorem dominators_exact_joinedRead : 1 ∈ (dominators joinedRead).of 3 ↔ Flow.Dominates joinedRead.Edge 0 1 3 :=
  dominators_exact joinedRead_ssa.toIndexed (fun hE _ => (joinedRead_edge hE).2) (by decide) (by decide)
    (joinedRead_edge (b := 4) ⟨_, rfl, by decide⟩).2

/-- Value 0 is read in block 2, on a way past a suspension and on one without. The loop of blocks 3, 5 and 4
does not need it. The old version and the merged one then chase each other round that loop: a block where
the value is dead takes the smallest version that reaches it. -/
def spinning : Function where
  id := 0
  sourceName := "spinning"
  isAsync := true
  values := [⟨0, .data .i32, false⟩, ⟨1, .data .i32, false⟩]
  blocks := [
    { id := 0
      instructions := [copyInto 0 one]
      terminator :=
        .conditionalBranch (.constant ⟨.bool, .boolean true⟩) { block := 1 } { block := 2 } },
    { id := 1, terminator := suspendTo 6 },
    { id := 2, instructions := [copyInto 1 (.value 0)], terminator := .branch { block := 3 } },
    { id := 3
      terminator :=
        .conditionalBranch (.constant ⟨.bool, .boolean true⟩) { block := 5 } { block := 7 } },
    { id := 4, terminator := .branch { block := 3 } },
    { id := 5, terminator := .branch { block := 4 } },
    { id := 6, terminator := .branch { block := 2 } },
    { id := 7, terminator := .return none }]

def spinningLiveIns : LiveSets := [∅, {0}, {0}, ∅, ∅, ∅, {0}, ∅]

theorem spinning_liveIns {fuel : Nat} {sets : LiveSets} (h : lirLiveIns fuel spinning 2 = some sets) :
    sets = spinningLiveIns := by
  have hten : lirLiveIns 10 spinning 2 = some spinningLiveIns := by decide
  obtain ⟨a, ha, rfl⟩ := Option.map_eq_some_iff.mp h
  obtain ⟨b, hb, heq⟩ := Option.map_eq_some_iff.mp hten
  rw [Flow.loop_unique ha hb, heq]

/-- the function once block 6 carries value 0 in the parameter 2 -/
def spinningCarrying : Carrying where
  function := { spinning with
    values := spinning.values ++ [⟨2, .data .i32, false⟩]
    blocks := spinning.blocks.set 6 { id := 6, parameters := [2], terminator := .branch { block := 2 } } }
  valueOrigins := [0, 1, 0]
  carried := [[], [], [], [], [], [], [(0, 2)], []]

theorem spinning_carrying : carryLiveIns spinning spinningLiveIns = .ok spinningCarrying := by
  rfl

/-- the loop for value 0 comes back to the state of two rounds before -/
theorem spinning_versions (fuel : Nat) : versions (versionGraph spinningCarrying.function)
    (originFacts spinningCarrying.function 2 spinningLiveIns spinningCarrying.carried 0) fuel 3 = none := by
  refine Flow.loop_eq_none_of_cycle (m := 3) (p := 2) (by decide) ?_ ?_ fuel
  · decide +kernel
  · decide

end Examples

end Subscript.Lir
