import Subscript.Lir.LiveIns
import Subscript.Lir.Ssa
import Subscript.Lir.VersionsSettle

/-! What the versions of a value mean. On every path the version at a point has the value of the original,
as long as the original is still to be read, and it was defined since the last suspension. -/

namespace Subscript.Lir

open List Flow

def ResumeBlock (f : Function) (c : BlockId) : Prop :=
  ∃ (b : BlockId) (block : BasicBlock), f.blocks[b]? = some block ∧ block.terminator.resume? = some c

/-- the successors of suspensions are entered by suspensions only -/
def ResumedOnly (f : Function) : Prop :=
  ∀ c, ResumeBlock f c → ∀ p ε, Step f p ε ⟨c, 0⟩ → Event.suspend ∈ ε

/-- `v` is still to be read at the entry of `b`, and is not a parameter of it -/
def LiveAtEntry (f : Function) (b : BlockId) (v : ValueId) : Prop := Live f ⟨b, 0⟩ v ∧ v ∉ f.defines (.enter b)

/-- the block has a version of `v` of its own: `v` is defined in it, or carried to it over a suspension -/
def VersionSource (f : Function) (v : ValueId) (b : BlockId) : Prop :=
  (v ∈ f.defines (.enter b) ∨ (b = f.entry ∧ v ∈ f.defines .start) ∨ ∃ k, v ∈ f.defines (.done b k)) ∨
    ResumeBlock f b ∧ LiveAtEntry f b v

/-- the versions of two blocks arrive at the block -/
def ContestedAt (f : Function) (v : ValueId) (b : BlockId) : Prop :=
  Contested f.Edge f.entry (VersionSource f v) b

/-- `v` is needed in the block, and different versions of it arrive over different edges -/
structure Joins (f : Function) (v : ValueId) (b : BlockId) : Prop where
  live : LiveAtEntry f b v
  contested : ContestedAt f v b
  edges : ∃ p q, p ≠ q ∧ f.Edge p b ∧ f.Edge q b ∧ Reachable f.Edge f.entry p ∧ Reachable f.Edge f.entry q

/-- `v` is not needed in the block, but different versions of it arrive -/
structure Stale (f : Function) (v : ValueId) (b : BlockId) : Prop where
  dead : ¬ LiveAtEntry f b v
  notSource : ¬ VersionSource f v b
  contested : ContestedAt f v b

/-- The functions for which the pass is right. It gives no argument to the edges of blocks that are not reached and to
handler edges, and a parameter of the function counts as defined anew in the entry block. And it may not end when versions
of a value go round a loop that does not need it, unless a round takes them round the whole loop. -/
structure Threadable (f : Function) : Prop where
  suspends : ∀ {b c : BlockId} {v : ValueId} {block : BasicBlock}, f.blocks[b]? = some block →
    block.terminator.resume? = some c → LiveAtEntry f c v → Reachable f.Edge f.entry b
  preds : ∀ {a b : BlockId} {v : ValueId}, Joins f v b → f.Edge a b → Reachable f.Edge f.entry a
  handlers : ∀ {b h : BlockId} {v : ValueId} {block : BasicBlock}, Joins f v h → f.blocks[b]? = some block →
    h ∉ block.instructions.filterMap Instruction.handler
  entry : ∀ {c : BlockId} {v : ValueId}, ResumeBlock f c → LiveAtEntry f c v → LiveAtEntry f f.entry v →
    c ≠ f.entry ∧ ¬ Delivers f.Edge (VersionSource f v) c f.entry
  backward : ∀ {v : ValueId} {a b : BlockId} {l : List BlockId}, Stale f v b → f.Edge a b → b ≤ a →
    Path (fun p q => f.Edge p q ∧ Stale f v q ∧ b ≤ q) b l a → ∃ l', Path (Rises f.Edge {q | Stale f v q}) b l' a

/-- the facts that the loop reads are those of `f` -/
structure OriginFacts.Of (O : OriginFacts) (f : Function) : Prop where
  live : ∀ b, O.live b = true ↔ LiveIn f f.values.length O.origin b
  entryDefinition : ∀ {b : BlockId} {block : BasicBlock}, f.blocks[b]? = some block →
    (O.entryDefinition b = true ↔ O.origin ∈ block.parameters ∨
      (b = f.entry ∧ O.origin ∈ f.parameters.map Parameter.value))
  instructionDefinition : ∀ {b : BlockId} {block : BasicBlock}, f.blocks[b]? = some block →
    (O.instructionDefinition b = true ↔ O.origin ∈ block.instructions.filterMap Instruction.result)
  special : ∀ b, (O.special b).isSome ↔ ResumeBlock f b ∧ LiveIn f f.values.length O.origin b

/-- the values that the block has defined by instructions before `p` -/
def Function.resultsBefore (f : Function) (p : Point) : List ValueId :=
  (((f.blocks[p.block]?.map BasicBlock.instructions).getD []).take p.index).filterMap Instruction.result

/-- the version that is current at `p` -/
def versionAt (f : Function) (O : OriginFacts) (s : Versions) (p : Point) : Option ValueId :=
  if O.origin ∈ f.resultsBefore p then some O.origin
  else if O.entryDefinition p.block then some O.origin else s.incoming.of p.block

section Blocks

variable {f : Function} {p q : Point} {τ ε : List Event} {b c : BlockId} {v : ValueId} {block : BasicBlock}

theorem Function.resultsBefore_of (hb : f.blocks[p.block]? = some block) :
    f.resultsBefore p = (block.instructions.take p.index).filterMap Instruction.result := by
  simp [Function.resultsBefore, hb]

theorem mem_resultsBefore_succ {k : Nat} : v ∈ f.resultsBefore ⟨b, k + 1⟩ ↔
    v ∈ f.resultsBefore ⟨b, k⟩ ∨ v ∈ f.defines (.done b k) := by
  cases hb : f.blocks[b]? with
  | none => simp [Function.resultsBefore, Function.defines, Function.instructionAt, hb]
  | some block =>
    rw [Function.resultsBefore_of hb, Function.resultsBefore_of hb, mem_defines_done]
    simp only [mem_take_results, hb, Option.some.injEq]
    constructor
    · rintro ⟨j, i, hj, hi, hv⟩
      rcases Nat.lt_succ_iff_lt_or_eq.mp hj with hj | rfl
      · exact .inl ⟨j, i, hj, hi, hv⟩
      · exact .inr ⟨block, i, rfl, hi, hv⟩
    · rintro (⟨j, i, hj, hi, hv⟩ | ⟨_, i, rfl, hi, hv⟩)
      · exact ⟨j, i, Nat.lt_succ_of_lt hj, hi, hv⟩
      · exact ⟨k, i, Nat.lt_succ_self k, hi, hv⟩

theorem Ssa.lt_of_live (hf : Ssa f) (h : Live f p v) : v < f.values.length := by
  obtain ⟨-, q, -, hv, -⟩ := h
  exact hf.lt_of_readsAt hv

/-- what is still to be read is not defined later in the same block -/
theorem Ssa.not_defined_later (hf : Ssa f) (hrun : Run f τ p) (h : Live f p v) {j : Nat} (hj : p.index ≤ j) :
    v ∉ f.defines (.done p.block j) := by
  intro hdone
  obtain ⟨ρ, hρ, hnot⟩ := Run.exists_not_done hrun hj
  obtain ⟨σ, q, hw, hv, hσ⟩ := h
  obtain ⟨e, he, hev⟩ := hf.reads_defined _ q (hρ.trans hw) v hv
  have heq := hf.event_unique (hf.lt_of_readsAt hv) ((mem_defines hf.toIndexed (s := .instruction _ j)).mp hdone) hev
  rw [heq] at he
  rcases mem_append.mp he with he | he
  · exact hσ _ he hdone
  · exact hnot he

/-- what is to be read at the entry of the function is a parameter -/
theorem Ssa.defined_of_live_entry (hf : Ssa f) (h : Live f ⟨f.entry, 0⟩ v) :
    v ∈ f.defines (.enter f.entry) ∨ v ∈ f.defines .start := by
  obtain ⟨σ, q, hw, hv, hσ⟩ := h
  obtain ⟨e, he, hev⟩ := hf.reads_defined _ q ⟨σ, hw, rfl⟩ v hv
  rcases mem_append.mp he with he | he
  · exact absurd hev (hσ e he)
  · rcases mem_cons.mp he with rfl | he
    · exact .inl hev
    · rw [mem_singleton.mp he] at hev
      exact .inr hev

theorem Ssa.block_of_edge (hf : Ssa f) (hE : f.Edge b c) : ∃ block, f.blocks[c]? = some block := by
  have hlt : c < f.blocks.length := by
    obtain ⟨block, hb, hc⟩ := hE
    rcases mem_append.mp hc with hc | hc
    · obtain ⟨i, hi, hh⟩ := mem_filterMap.mp hc
      exact (hf.edges.handlers hb i hi c hh).1
    · obtain ⟨target, htarget, rfl⟩ := mem_map.mp hc
      cases ht : block.terminator with
      | suspend s =>
        rw [ht] at htarget
        rw [mem_singleton.mp htarget]
        exact (hf.edges.passes hb s.successor _ (by rw [ht]; exact mem_singleton.mpr rfl)).1
      | _ =>
        refine (hf.edges.passes hb target.block target.arguments.length ?_).1
        rw [ht] at htarget ⊢
        exact mem_map.mpr ⟨target, htarget, rfl⟩
  exact ⟨_, getElem?_eq_getElem hlt⟩

/-- at a block that a path has entered, liveness by the block graph is liveness -/
theorem Ssa.liveIn_iff (hf : Ssa f) (hrun : Run f τ ⟨b, 0⟩) (hb : f.blocks[b]? = some block) :
    LiveIn f f.values.length v b ↔ LiveAtEntry f b v := by
  refine ⟨LiveIn.live hf.toStructured, fun h => ?_⟩
  exact liveIn_of_live hf.toStructured hf.reads_defined hrun h.1 hb ((mem_defines_enter hb).not.mp h.2)
    (by simp)

theorem Ssa.block_of_reachable (hf : Ssa f) (hr : Reachable f.Edge f.entry b) :
    ∃ block, f.blocks[b]? = some block := by
  obtain ⟨l, hl⟩ := hr
  cases hl with
  | refl => exact ⟨_, getElem?_eq_getElem hf.entry⟩
  | snoc _ hE => exact hf.block_of_edge hE

/-- in a reachable block the loop sees a version of its own where there is one -/
theorem OriginFacts.Of.source_iff {O : OriginFacts} (hO : O.Of f) (hf : Ssa f) (hr : Reachable f.Edge f.entry b) :
    O.Source b ↔ VersionSource f O.origin b := by
  obtain ⟨block, hb⟩ := hf.block_of_reachable hr
  obtain ⟨l, hl⟩ := hr
  obtain ⟨τ, hrun, -⟩ := Run.of_path hl
  refine or_congr ?_ ?_
  · rw [OriginFacts.defines, Bool.or_eq_true, hO.entryDefinition hb, hO.instructionDefinition hb, mem_defines_enter hb, or_assoc]
    refine or_congr Iff.rfl (or_congr Iff.rfl ⟨fun h => ?_, fun h => ?_⟩)
    · obtain ⟨i, hi, hv⟩ := mem_filterMap.mp h
      obtain ⟨k, hk⟩ := mem_iff_getElem?.mp hi
      exact ⟨k, mem_defines_done.mpr ⟨block, i, hb, hk, hv⟩⟩
    · obtain ⟨k, h⟩ := h
      obtain ⟨block', i, hb', hi, hv⟩ := mem_defines_done.mp h
      obtain rfl := Option.mem_unique hb hb'
      exact mem_filterMap.mpr ⟨i, mem_of_getElem? hi, hv⟩
  · rw [← hf.liveIn_iff hrun hb, ← hO.special, Option.isSome_iff_ne_none]

end Blocks

section Versions

variable {f : Function} {G : VersionGraph} {O : OriginFacts} {s : Versions} {k : ValueId}
variable {p q : Point} {τ ε : List Event} {b c : BlockId}

/-- The versions of one origin as the loop leaves them, for a function that the pass handles. -/
structure Versioned (f : Function) (G : VersionGraph) (O : OriginFacts) (k : ValueId) (s : Versions) : Prop where
  ssa : Ssa f
  threadable : Threadable f
  resumed : ResumedOnly f
  graph : G.Describes f.Edge f.entry
  count : G.count = f.blocks.length
  facts : O.Of f
  inv : VersionsInv G O k s
  brought : VersionsBrought G O f.Edge f.entry s
  stable : s.Stable G O

/-- How the version changes over a step after which the origin is live: the step defines the origin; or the
version stays; or the step enters a block that has the version as a parameter of its own. -/
inductive VersionStep (f : Function) (O : OriginFacts) (s : Versions) (p : Point) (ε : List Event) (q : Point) : Prop
  | defined (e : Event) (he : e ∈ sinceSuspend ε) (hdef : O.origin ∈ f.defines e)
      (hq : versionAt f O s q = some O.origin)
  | kept (hlive : Live f p O.origin) (hdef : ∀ e ∈ ε, O.origin ∉ f.defines e) (hsuspend : Event.suspend ∉ ε)
      (hq : versionAt f O s q = versionAt f O s p)
      (hnew : ∀ c, Event.enter c ∈ ε → O.special c = none ∧ s.merges.of c = none)
  | merged (c : BlockId) (m : ValueId) (t : Terminator) (hlive : Live f p O.origin)
      (hdef : ∀ e ∈ ε, O.origin ∉ f.defines e) (hq : q = ⟨c, 0⟩) (hε : ε = [.enter c])
      (ht : f.terminatorAt p = some t) (hm : s.merges.of c = some m) (hv : versionAt f O s q = some m)
  | carried (c : BlockId) (m : ValueId) (t : Terminator) (hlive : Live f p O.origin)
      (hdef : ∀ e ∈ ε, O.origin ∉ f.defines e) (hq : q = ⟨c, 0⟩) (hε : ε = [.enter c, .suspend])
      (ht : f.terminatorAt p = some t) (hr : t.resume? = some c)
      (hm : O.special c = some m) (hv : versionAt f O s q = some m)

namespace Versioned

section

variable (h : Versioned f G O k s)

include h

theorem reachable (hrun : Run f τ p) (hb : p.block < f.blocks.length) :
    G.reachable p.block = true :=
  (h.graph.reachable (h.count ▸ hb)).mpr hrun.reachable

theorem joins {m : ValueId} (hm : s.merges.of c = some m) : Joins f O.origin c := by
  obtain ⟨hc, hedges⟩ := h.brought.merged hm
  exact ⟨((h.facts.live c).mp (h.inv.merge hm).2.2.2.1).live h.ssa.toStructured,
    hc.congr fun b hr => h.facts.source_iff h.ssa hr, hedges⟩

/-- what is a parameter of the function is carried to the other blocks that have a version of it -/
theorem special_of_source (hstart : O.origin ∈ f.defines .start) (hr : Reachable f.Edge f.entry b)
    (hsource : O.Source b) (hne : b ≠ f.entry ∨ O.supplied b ≠ some O.origin) : (O.special b).isSome := by
  by_contra hnone
  have hd : O.defines b = true := hsource.resolve_right fun hsp => hnone (Option.isSome_iff_ne_none.mpr hsp)
  rcases hne with hne | hne
  · obtain ⟨block, hb⟩ := h.ssa.block_of_reachable hr
    rcases (h.facts.source_iff h.ssa hr).mp hsource with (hdef | ⟨heq, -⟩ | ⟨k, hdef⟩) | ⟨hres, hlive⟩
    · cases h.ssa.defines_unique hstart hdef
    · exact hne heq
    · cases h.ssa.defines_unique hstart hdef
    · obtain ⟨l, hl⟩ := hr
      obtain ⟨τ, hrun, -⟩ := Run.of_path hl
      exact hnone ((h.facts.special b).mpr ⟨hres, (h.ssa.liveIn_iff hrun hb).mpr hlive⟩)
  · rw [OriginFacts.supplied, OriginFacts.leaving, if_pos hd] at hne
    exact hne rfl

/-- the version that a block passes to the entry block is the parameter of the function itself -/
theorem origin_of_edge_entry (hstart : O.origin ∈ f.defines .start) (hlive : LiveAtEntry f f.entry O.origin)
    (hE : f.Edge b f.entry) (hr : Reachable f.Edge f.entry b) {w : ValueId} (hw : s.outgoing.of b = some w) :
    w = O.origin := by
  have hcarried : ∀ {c}, Reachable f.Edge f.entry c → Delivers f.Edge O.Source c f.entry →
      (O.special c).isSome → False := by
    intro c hc hdel hsp
    obtain ⟨hres, hin⟩ := (h.facts.special c).mp hsp
    exact (h.threadable.entry hres (hin.live h.ssa.toStructured) hlive).2
      (hdel.congr (fun b hr => h.facts.source_iff h.ssa hr) hc)
  rcases h.brought.edge hE hr hw with ⟨c, d, hne, hc, hd, hcb, hdb⟩ | ⟨c, hc, hcb, hsupplied⟩
  · by_cases hentry : c = f.entry
    · exact (hcarried hd hdb (h.special_of_source hstart hd hdb.source (.inl fun heq => hne (hentry.trans heq.symm)))).elim
    · exact (hcarried hc hcb (h.special_of_source hstart hc hcb.source (.inl hentry))).elim
  · by_contra hworigin
    refine hcarried hc hcb (h.special_of_source hstart hc hcb.source (.inr fun heq => hworigin ?_))
    exact Option.mem_unique hsupplied heq

/-- the version at the end of a block is the one that leaves it -/
theorem outgoing_eq {block : BasicBlock} (hb : f.blocks[b]? = some block)
    (hr : G.reachable b = true) : s.outgoing.of b = versionAt f O s ⟨b, block.instructions.length⟩ := by
  have hlt : b < G.count := h.graph.lt hr
  rw [(h.stable b hlt hr).2, versionAt, Function.resultsBefore_of hb, take_length]
  simp only [OriginFacts.leaving, OriginFacts.defines, Bool.or_eq_true, h.facts.instructionDefinition hb]
  by_cases hi : O.origin ∈ block.instructions.filterMap Instruction.result <;> simp [hi]

/-- past the point where the origin is live its block does not define it any more -/
theorem versionAt_end (hrun : Run f τ p) (hlive : Live f p O.origin) {block : BasicBlock}
    (hb : f.blocks[p.block]? = some block) :
    versionAt f O s ⟨p.block, block.instructions.length⟩ = versionAt f O s p := by
  have hiff : O.origin ∈ f.resultsBefore ⟨p.block, block.instructions.length⟩ ↔ O.origin ∈ f.resultsBefore p := by
    rw [Function.resultsBefore_of (p := ⟨p.block, block.instructions.length⟩) hb, Function.resultsBefore_of hb, take_length,
      mem_take_results]
    constructor
    · intro hmem
      obtain ⟨i, hi, hv⟩ := mem_filterMap.mp hmem
      obtain ⟨j, hj⟩ := mem_iff_getElem?.mp hi
      refine ⟨j, i, ?_, hj, hv⟩
      by_contra hge
      exact h.ssa.not_defined_later hrun hlive (Nat.le_of_not_lt hge) (mem_defines_done.mpr ⟨block, i, hb, hj, hv⟩)
    · rintro ⟨j, i, -, hi, hv⟩
      exact mem_filterMap.mpr ⟨i, mem_of_getElem? hi, hv⟩
  simp only [versionAt, hiff]

/-- a step into a block where the origin is live and not a parameter -/
theorem enter_step (hrun : Run f τ p) (hs : Step f p ε ⟨c, 0⟩) (hE : f.Edge p.block c)
    (hlive : Live f ⟨c, 0⟩ O.origin) (hdef : ∀ e ∈ ε, O.origin ∉ f.defines e) (henter : Event.enter c ∈ ε)
    (hversion : ∃ w, versionAt f O s p = some w) : VersionStep f O s p ε ⟨c, 0⟩ := by
  have hlive' : Live f p O.origin := .of_step hs hlive hdef
  obtain ⟨block, hb⟩ : ∃ block, f.blocks[p.block]? = some block := by
    obtain ⟨block, hb, -⟩ := hE
    exact ⟨block, hb⟩
  obtain ⟨target, hc⟩ := h.ssa.block_of_edge hE
  have hrun' := hrun.step hs
  have hr : G.reachable p.block = true := h.reachable hrun hE.lt
  have hrc : G.reachable c = true := h.reachable hrun' (List.getElem?_eq_some_iff.mp hc).1
  have hin : LiveIn f f.values.length O.origin c := (h.ssa.liveIn_iff hrun' hc).mpr ⟨hlive, hdef _ henter⟩
  have hlive₀ : LiveAtEntry f c O.origin := ⟨hlive, hdef _ henter⟩
  have hcarried : Event.suspend ∈ ε → (O.special c).isSome := by
    intro hsus
    cases hs with
    | @suspend t _ ht htr =>
      obtain ⟨blockAt, hbAt, -, hterm⟩ := terminatorAt_eq_some.mp ht
      exact (h.facts.special c).mpr ⟨⟨p.block, blockAt, hbAt, hterm ▸ htr⟩, hin⟩
    | _ => exact absurd hsus (by simp)
  have hentered : ∀ c', Event.enter c' ∈ ε → c' = c := by
    intro c' hc'
    cases hs with
    | raise | jump => simpa using hc'
    | suspend => simpa using hc'
  obtain ⟨w, hw⟩ := hversion
  have hout : s.outgoing.of p.block = some w := by
    rw [h.outgoing_eq hb hr, h.versionAt_end hrun hlive' hb, hw]
  by_cases hentry : O.entryDefinition c = true
  · -- the origin is a parameter of the function, and the step goes back to the entry block
    obtain ⟨rfl, hstart⟩ := ((h.facts.entryDefinition hc).mp hentry).resolve_left ((mem_defines_enter hc).not.mp hlive₀.2)
    have hsp : O.special f.entry = none := by
      by_contra hsp
      obtain ⟨hres, -⟩ := (h.facts.special f.entry).mp (Option.isSome_iff_ne_none.mpr hsp)
      exact (h.threadable.entry hres hlive₀ hlive₀).1 rfl
    have hm : s.merges.of f.entry = none := by
      by_contra hm
      obtain ⟨m, hm⟩ := Option.ne_none_iff_exists'.mp hm
      exact absurd (h.inv.merge hm).2.2.2.2.2 (by simp [hentry])
    refine .kept hlive' hdef (fun hsus => absurd (hcarried hsus) (by simp [hsp])) ?_ fun c' hc' => ?_
    · obtain rfl := h.origin_of_edge_entry hstart hlive₀ hE hrun.reachable hout
      rw [hw]
      simp [versionAt, Function.resultsBefore, hentry]
    · rw [hentered c' hc']
      exact ⟨hsp, hm⟩
  rw [Bool.not_eq_true] at hentry
  have hat : versionAt f O s ⟨c, 0⟩ = s.incoming.of c := by
    simp [versionAt, Function.resultsBefore, hentry]
  have hstable := (h.stable c (h.graph.lt hrc) hrc).1
  rcases nextIncoming_cases G O s c with ⟨m, hm, hn⟩ | ⟨hsp, ⟨he, -⟩ | ⟨-, ⟨m, hm, hn⟩ | ⟨hnone, hn⟩⟩⟩
  · -- the block carries the origin, so the step is a suspension
    have hres : ResumeBlock f c := ((h.facts.special c).mp (by rw [hm]; rfl)).1
    have hsus := h.resumed c hres p ε hs
    rw [hstable] at hn
    cases hs with
    | @suspend t _ ht htr => exact .carried c m t hlive' hdef rfl rfl ht htr hm (hat.trans (Option.some.inj hn))
    | _ => exact absurd hsus (by simp)
  · exact absurd (hentry.symm.trans he) (by simp)
  · -- a merge parameter: not at a handler, where versions do not join
    rw [hstable] at hn
    have hv := hat.trans (Option.some.inj hn)
    cases hs with
    | @raise i _ hi hh =>
      obtain ⟨block', hb', hi⟩ := instructionAt_eq_some.mp hi
      exact absurd (mem_filterMap.mpr ⟨i, mem_of_getElem? hi, hh⟩) (h.threadable.handlers (h.joins hm) hb')
    | @jump t _ ht htr hct => exact .merged c m t hlive' hdef rfl rfl ht hm hv
    | suspend => exact absurd (hcarried (by simp)) (by rw [(h.inv.merge hm).2.2.2.2.1]; simp)
  · -- the one version that reaches the block comes from `p`
    refine .kept hlive' hdef (fun hsus => absurd (hcarried hsus) (by simp [hsp])) ?_ fun c' hc' => ?_
    · have hreach : w ∈ reaching G s c :=
        mem_reaching.mpr ⟨p.block, (h.graph.predecessors (h.graph.lt hrc)).mpr hE, hr, hout⟩
      rw [hstable, (h.facts.live c).mpr hin] at hn
      rw [hat, hw]
      match hlist : ascending (reaching G s c), hn with
      | [], _ => exact absurd (mem_ascending.mpr hreach) (by simp [hlist])
      | [v], hn =>
        have hwv : w = v := by simpa [hlist] using mem_ascending.mpr hreach
        rw [hwv]
        exact Option.some.inj hn
      | v :: _ :: _, hn => exact absurd hn (by simp [chooseVersion])
    · rw [hentered c' hc']
      exact ⟨hsp, hnone⟩

theorem step (hrun : Run f τ p) (hs : Step f p ε q) (hlive : Live f q O.origin)
    (hversion : Live f p O.origin → ∃ w, versionAt f O s p = some w) : VersionStep f O s p ε q := by
  rcases hs.cases_events with ⟨rfl, rfl, -⟩ | ⟨c, rfl, hE, hε⟩
  · by_cases hdef : O.origin ∈ f.defines (.done p.block p.index)
    · refine .defined _ (by simp [sinceSuspend]) hdef ?_
      rw [versionAt, if_pos (mem_resultsBefore_succ.mpr (.inr hdef))]
    · have hall : ∀ e ∈ [Event.done p.block p.index], O.origin ∉ f.defines e := by simpa using hdef
      refine .kept (.of_step hs hlive hall) hall (by simp) ?_ (by simp)
      simp only [versionAt, mem_resultsBefore_succ, hdef, or_false]
  · have henter : Event.enter c ∈ ε := by rcases hε with rfl | rfl <;> simp
    by_cases hdef : O.origin ∈ f.defines (.enter c)
    · refine .defined (.enter c) (by rcases hε with rfl | rfl <;> simp [sinceSuspend]) hdef ?_
      obtain ⟨target, hc⟩ := h.ssa.block_of_edge hE
      have hentry : O.entryDefinition c = true :=
        (h.facts.entryDefinition hc).mpr (.inl ((mem_defines_enter hc).mp hdef))
      simp [versionAt, Function.resultsBefore, hentry]
    · have hall : ∀ e ∈ ε, O.origin ∉ f.defines e := by
        intro e he
        rcases hε with rfl | rfl
        · rwa [mem_singleton.mp he]
        · rcases mem_cons.mp he with rfl | he
          · exact hdef
          · rw [mem_singleton.mp he]
            exact not_mem_nil
      exact h.enter_step hrun hs hE hlive hall henter (hversion (.of_step hs hlive hall))

end

/-- an event that gives the version `w`: it defines the origin, or enters the block that has `w` as a new
parameter -/
def Gives (f : Function) (O : OriginFacts) (s : Versions) (w : ValueId) (e : Event) : Prop :=
  (w = O.origin ∧ O.origin ∈ f.defines e) ∨ ∃ c, e = .enter c ∧ (O.special c = some w ∨ s.merges.of c = some w)

theorem sinceSuspend_append_of_notMem (hε : Event.suspend ∉ ε) : sinceSuspend (ε ++ τ) = ε ++ sinceSuspend τ := by
  refine takeWhile_append_of_pos fun e he => ?_
  exact decide_eq_true fun heq => hε (heq ▸ he)

theorem mem_sinceSuspend_append {e : Event} (he : e ∈ sinceSuspend ε) : e ∈ sinceSuspend (ε ++ τ) := by
  unfold sinceSuspend at he ⊢
  rw [takeWhile_append]
  split_ifs with hlen
  · exact mem_append_left _ (takeWhile_subset _ he)
  · exact he

/-- Where the origin is live there is a version of it, given since the last suspension. -/
theorem given (h : Versioned f G O k s) (hrun : Run f τ p) (hlive : Live f p O.origin) :
    ∃ w, versionAt f O s p = some w ∧ ∃ e ∈ sinceSuspend τ, Gives f O s w e := by
  obtain ⟨σ, hw, rfl⟩ := hrun
  induction hw with
  | refl =>
    obtain ⟨block, hb⟩ : ∃ block, f.blocks[f.entry]? = some block :=
      ⟨_, getElem?_eq_getElem h.ssa.entry⟩
    have hdef := h.ssa.defined_of_live_entry hlive
    have hentry : O.entryDefinition f.entry = true := by
      refine (h.facts.entryDefinition hb).mpr (hdef.imp (mem_defines_enter hb).mp fun hstart => ⟨rfl, hstart⟩)
    refine ⟨O.origin, by simp [versionAt, Function.resultsBefore, hentry], ?_⟩
    rcases hdef with hdef | hdef
    · exact ⟨.enter f.entry, by simp [sinceSuspend], .inl ⟨rfl, hdef⟩⟩
    · exact ⟨.start, by simp [sinceSuspend], .inl ⟨rfl, hdef⟩⟩
  | @step σ ε q r hw hs ih =>
    have hrun : Run f (σ ++ [.enter f.entry, .start]) q := ⟨σ, hw, rfl⟩
    rw [append_assoc]
    cases h.step hrun hs hlive fun hl => (ih hl).imp fun _ => And.left with
    | defined e he hdef hq => exact ⟨_, hq, e, mem_sinceSuspend_append he, .inl ⟨rfl, hdef⟩⟩
    | kept hl _ hsus hq _ =>
      obtain ⟨w, hv, e, he, hgives⟩ := ih hl
      refine ⟨w, hq.trans hv, e, ?_, hgives⟩
      rw [sinceSuspend_append_of_notMem hsus]
      exact mem_append_right _ he
    | merged c m t _ _ hq hε ht hm hv =>
      subst hε
      exact ⟨m, hv, .enter c, mem_sinceSuspend_append (by simp [sinceSuspend]), .inr ⟨c, rfl, .inr hm⟩⟩
    | carried c m t _ _ hq hε ht hr hm hv =>
      subst hε
      exact ⟨m, hv, .enter c, mem_sinceSuspend_append (by simp [sinceSuspend]), .inr ⟨c, rfl, .inl hm⟩⟩

theorem exists_version (h : Versioned f G O k s) (hrun : Run f τ p) (hlive : Live f p O.origin) :
    ∃ w, versionAt f O s p = some w :=
  (h.given hrun hlive).imp fun _ => And.left

end Versioned

end Versions

end Subscript.Lir
