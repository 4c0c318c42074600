import Subscript.Lir.DefinedReads

/-! Live values (`liveness.rs`). A value is live at a point when some path from there reads it before it
is defined again. The pass computes the values live at the entry of each block by iteration over the block
graph. -/

namespace Subscript.Lir

open Option List Flow

/-- some path from `p` reads `v`, and nothing on it defines `v` before -/
def Live (f : Function) (p : Point) (v : ValueId) : Prop :=
  ∃ τ q, Walk f p τ q ∧ v ∈ f.readsAt q ∧ ∀ e ∈ τ, v ∉ f.defines e

section Live

variable {f : Function} {p q r : Point} {τ ε : List Event} {v : ValueId}

theorem Walk.head_cases (h : Walk f p τ q) :
    (p = q ∧ τ = []) ∨ ∃ ε r σ, Step f p ε r ∧ Walk f r σ q ∧ τ = σ ++ ε := by
  induction h with
  | refl => exact .inl ⟨rfl, rfl⟩
  | @step τ ε q r _ hs ih =>
    rcases ih with ⟨rfl, rfl⟩ | ⟨ε', r', σ, hs', hw', rfl⟩
    · exact .inr ⟨ε, r, [], hs, .refl, by simp⟩
    · exact .inr ⟨ε', r', ε ++ σ, hs', hw'.step hs, by simp⟩

theorem Live.of_read (h : v ∈ f.readsAt p) : Live f p v :=
  ⟨[], p, .refl, h, fun _ he => absurd he not_mem_nil⟩

theorem Live.of_step (hs : Step f p ε q) (h : Live f q v) (hε : ∀ e ∈ ε, v ∉ f.defines e) : Live f p v := by
  obtain ⟨τ, r, hw, hv, hτ⟩ := h
  exact ⟨τ ++ ε, r, Walk.head hs hw, hv, forall_mem_append.mpr ⟨hτ, hε⟩⟩

end Live

/-- the values that a block reads before it defines them, and those that it defines -/
structure Exposure where
  uses : Finset ValueId
  definitions : Finset ValueId
  deriving DecidableEq

namespace Exposure

def read (e : Exposure) (v : ValueId) : Exposure :=
  if v ∈ e.definitions then e else { e with uses := insert v e.uses }

def define (e : Exposure) (result : Option ValueId) : Exposure :=
  match result with
  | some v => { e with definitions := insert v e.definitions }
  | none => e

def instruction (e : Exposure) (i : Instruction) : Exposure :=
  (i.valueUses.foldl read e).define i.result

end Exposure

/-- the exposure of a block whose parameters below `count` are definitions -/
def BasicBlock.exposure (count : Nat) (block : BasicBlock) : Exposure :=
  block.terminator.valueUses.foldl Exposure.read
    (block.instructions.foldl Exposure.instruction
      ⟨∅, (block.parameters.filter (· < count)).toFinset⟩)

abbrev LiveSets := List (Finset ValueId)

def LiveSets.of (sets : LiveSets) (b : BlockId) : Finset ValueId := sets.getD b ∅

structure LiveState where
  liveIn : LiveSets
  liveOut : LiveSets
  deriving DecidableEq

def nextOut (liveIn : LiveSets) (block : BasicBlock) : Finset ValueId :=
  block.successors.foldl (fun out s => out ∪ liveIn.of s) ∅

def nextIn (count : Nat) (liveIn : LiveSets) (block : BasicBlock) : Finset ValueId :=
  (block.exposure count).uses ∪ (nextOut liveIn block \ (block.exposure count).definitions)

def liveVisit (count : Nat) (state : LiveState × Bool) (block : BasicBlock) : LiveState × Bool :=
  let out := nextOut state.1.liveIn block
  let into := nextIn count state.1.liveIn block
  (⟨state.1.liveIn.set block.id into, state.1.liveOut.set block.id out⟩,
    state.2 || state.1.liveOut.of block.id ≠ out || state.1.liveIn.of block.id ≠ into)

/-- one pass of the loop over the blocks, last one first -/
def liveRound (f : Function) (count : Nat) (state : LiveState) : LiveState × Bool :=
  f.blocks.reverse.foldl (liveVisit count) (state, false)

def liveStart (f : Function) : LiveState :=
  ⟨List.replicate f.blocks.length ∅, List.replicate f.blocks.length ∅⟩

/-- the values live at each block entry -/
def lirLiveIns (fuel : Nat) (f : Function) (count : Nat) : Option LiveSets :=
  (loop (liveRound f count) fuel (liveStart f)).map LiveState.liveIn

/-- `v` is read in block `b`, or in a block after it, before it is defined -/
inductive LiveIn (f : Function) (count : Nat) (v : ValueId) : BlockId → Prop
  | use {b : BlockId} {block : BasicBlock} : f.blocks[b]? = some block →
      v ∈ (block.exposure count).uses → LiveIn f count v b
  | edge {b c : BlockId} {block : BasicBlock} : f.blocks[b]? = some block → c ∈ block.successors →
      LiveIn f count v c → v ∉ (block.exposure count).definitions → LiveIn f count v b

section Exposure

variable {e : Exposure} {v : ValueId} {count : Nat}

theorem Exposure.definitions_read_foldl (uses : List ValueId) (e : Exposure) :
    (uses.foldl read e).definitions = e.definitions := by
  induction uses generalizing e with
  | nil => rfl
  | cons u uses ih =>
    rw [foldl_cons, ih, read]
    split <;> rfl

theorem Exposure.mem_uses_read_foldl (uses : List ValueId) (e : Exposure) :
    v ∈ (uses.foldl read e).uses ↔ v ∈ e.uses ∨ v ∈ uses ∧ v ∉ e.definitions := by
  induction uses generalizing e with
  | nil => simp
  | cons u uses ih =>
    rw [foldl_cons, ih, mem_cons]
    unfold read
    split_ifs with hu
    · by_cases hv : v = u
      · subst hv
        simp [hu]
      · simp [hv]
    · by_cases hv : v = u
      · subst hv
        simp [hu]
      · simp [hv]

theorem Exposure.mem_definitions_define {result : Option ValueId} :
    v ∈ (e.define result).definitions ↔ v ∈ e.definitions ∨ result = some v := by
  cases result with
  | none => simp [define]
  | some r => simp [define, eq_comm, or_comm]

theorem Exposure.uses_define (result : Option ValueId) : (e.define result).uses = e.uses := by
  cases result <;> rfl

theorem mem_results_cons {i : Instruction} {instructions : List Instruction} :
    v ∈ (i :: instructions).filterMap Instruction.result ↔
      i.result = some v ∨ v ∈ instructions.filterMap Instruction.result := by
  simp only [mem_filterMap, mem_cons, exists_eq_or_imp]

theorem Exposure.instructions_spec (instructions : List Instruction) (e : Exposure) :
    (v ∈ (instructions.foldl instruction e).definitions ↔
      v ∈ e.definitions ∨ v ∈ instructions.filterMap Instruction.result) ∧
    (v ∈ (instructions.foldl instruction e).uses ↔ v ∈ e.uses ∨ v ∉ e.definitions ∧
      ∃ (k : Nat) (i : Instruction), instructions[k]? = some i ∧ v ∈ i.valueUses ∧
        v ∉ (instructions.take k).filterMap Instruction.result) := by
  induction instructions generalizing e with
  | nil => simp
  | cons i instructions ih =>
    rw [foldl_cons, (ih _).1, (ih _).2, mem_results_cons]
    simp only [instruction, mem_definitions_define, uses_define, definitions_read_foldl, mem_uses_read_foldl]
    refine ⟨or_assoc, ?_⟩
    constructor
    · rintro ((h | ⟨h, hd⟩) | ⟨hd, k, i', hk, hv, hnot⟩)
      · exact .inl h
      · exact .inr ⟨hd, 0, i, rfl, h, by simp⟩
      · rw [not_or] at hd
        refine .inr ⟨hd.1, k + 1, i', by simpa using hk, hv, ?_⟩
        rw [take_succ_cons, mem_results_cons, not_or]
        exact ⟨hd.2, hnot⟩
    · rintro (h | ⟨hd, k, i', hk, hv, hnot⟩)
      · exact .inl (.inl h)
      · cases k with
        | zero =>
          obtain rfl : i = i' := by simpa using hk
          exact .inl (.inr ⟨hv, hd⟩)
        | succ k =>
          rw [take_succ_cons, mem_results_cons, not_or] at hnot
          exact .inr ⟨not_or.mpr ⟨hd, hnot.1⟩, k, i', by simpa using hk, hv, hnot.2⟩

variable {block : BasicBlock}

theorem BasicBlock.mem_definitions : v ∈ (block.exposure count).definitions ↔
    (v ∈ block.parameters ∧ v < count) ∨ v ∈ block.instructions.filterMap Instruction.result := by
  rw [BasicBlock.exposure, Exposure.definitions_read_foldl, (Exposure.instructions_spec _ _).1]
  simp

/-- a use is exposed when neither a parameter nor an instruction before it defines the value -/
theorem BasicBlock.mem_uses : v ∈ (block.exposure count).uses ↔
    ¬ (v ∈ block.parameters ∧ v < count) ∧
      ((∃ (k : Nat) (i : Instruction), block.instructions[k]? = some i ∧ v ∈ i.valueUses ∧
        v ∉ (block.instructions.take k).filterMap Instruction.result) ∨
      v ∈ block.terminator.valueUses ∧ v ∉ block.instructions.filterMap Instruction.result) := by
  rw [BasicBlock.exposure, Exposure.mem_uses_read_foldl, (Exposure.instructions_spec _ _).1,
    (Exposure.instructions_spec _ _).2]
  simp only [Finset.notMem_empty, false_or, List.mem_toFinset, mem_filter, decide_eq_true_eq, not_or]
  rw [and_or_left]
  exact or_congr Iff.rfl and_left_comm

end Exposure

section Loop

variable {f : Function} {count : Nat} {v : ValueId} {b : BlockId}

variable {sets : LiveSets}

theorem LiveSets.of_set (hb : b < sets.length) (s : Finset ValueId) (c : BlockId) :
    LiveSets.of (sets.set b s) c = if b = c then s else sets.of c := by
  rw [LiveSets.of, getD_set]
  exact if_congr ⟨And.left, fun hc => ⟨hc, hc ▸ hb⟩⟩ rfl rfl

theorem mem_nextOut :
    v ∈ nextOut liveIn block ↔ ∃ s ∈ block.successors, v ∈ liveIn.of s := by
  have hfold : ∀ (succs : List BlockId) (out : Finset ValueId),
      v ∈ succs.foldl (fun out s => out ∪ liveIn.of s) out ↔ v ∈ out ∨ ∃ s ∈ succs, v ∈ liveIn.of s := by
    intro succs
    induction succs with
    | nil => simp
    | cons s succs ih =>
      intro out
      rw [foldl_cons, ih, Finset.mem_union]
      simp only [mem_cons, exists_eq_or_imp]
      tauto
  rw [nextOut, hfold]
  simp

theorem mem_nextIn : v ∈ nextIn count liveIn block ↔
    v ∈ (block.exposure count).uses ∨
      (∃ s ∈ block.successors, v ∈ liveIn.of s) ∧ v ∉ (block.exposure count).definitions := by
  rw [nextIn, Finset.mem_union, Finset.mem_sdiff, mem_nextOut]

def LiveSets.card (sets : LiveSets) : Nat := (sets.map Finset.card).sum

/-- every value that some block reads before defining it -/
def exposedUses (f : Function) (count : Nat) : Finset ValueId :=
  f.blocks.foldr (fun block uses => (block.exposure count).uses ∪ uses) ∅

theorem uses_subset_exposedUses (h : block ∈ f.blocks) :
    (block.exposure count).uses ⊆ exposedUses f count := by
  unfold exposedUses
  generalize f.blocks = blocks at h
  induction blocks with
  | nil => exact absurd h not_mem_nil
  | cons first rest ih =>
    rcases mem_cons.mp h with rfl | h
    · exact Finset.subset_union_left
    · exact (ih h).trans Finset.subset_union_right

/-- What every state of the loop satisfies: its sets hold only live values, and a visit can only make
them larger. -/
structure LiveInv (f : Function) (count : Nat) (s : LiveState) : Prop where
  lengthIn : s.liveIn.length = f.blocks.length
  lengthOut : s.liveOut.length = f.blocks.length
  sound : ∀ {b v}, v ∈ s.liveIn.of b → LiveIn f count v b
  growsIn : ∀ {b block}, f.blocks[b]? = some block → s.liveIn.of b ⊆ nextIn count s.liveIn block
  growsOut : ∀ {b block}, f.blocks[b]? = some block → s.liveOut.of b ⊆ nextOut s.liveIn block
  exposed : ∀ {b v}, v ∈ s.liveIn.of b ∨ v ∈ s.liveOut.of b → v ∈ exposedUses f count

variable {liveIn' : LiveSets}

theorem nextOut_mono (h : ∀ c, liveIn.of c ⊆ liveIn'.of c) (block : BasicBlock) :
    nextOut liveIn block ⊆ nextOut liveIn' block := by
  intro v hv
  obtain ⟨s, hs, hv⟩ := mem_nextOut.mp hv
  exact mem_nextOut.mpr ⟨s, hs, h s hv⟩

theorem nextIn_mono (h : ∀ c, liveIn.of c ⊆ liveIn'.of c) (block : BasicBlock) :
    nextIn count liveIn block ⊆ nextIn count liveIn' block :=
  Finset.union_subset_union_right (Finset.sdiff_subset_sdiff (nextOut_mono h block) (Finset.Subset.refl _))

section Visit

variable {s : LiveState} {block : BasicBlock}

theorem liveVisit_inv (changed : Bool) (h : LiveInv f count s) (hb : f.blocks[block.id]? = some block) :
    LiveInv f count (liveVisit count (s, changed) block).1 := by
  have hlt := (List.getElem?_eq_some_iff.mp hb).1
  have hin := LiveSets.of_set (h.lengthIn ▸ hlt) (nextIn count s.liveIn block)
  have hout := LiveSets.of_set (h.lengthOut ▸ hlt) (nextOut s.liveIn block)
  have hgrow : ∀ c, s.liveIn.of c ⊆ LiveSets.of (s.liveIn.set block.id (nextIn count s.liveIn block)) c := by
    intro c
    rw [hin]
    split_ifs with hc
    · exact hc ▸ h.growsIn hb
    · exact Finset.Subset.refl _
  have hexposed : ∀ {v}, v ∈ nextOut s.liveIn block → v ∈ exposedUses f count := fun hv => by
    obtain ⟨c, -, hv⟩ := mem_nextOut.mp hv
    exact h.exposed (.inl hv)
  refine ⟨by simpa [liveVisit] using h.lengthIn, by simpa [liveVisit] using h.lengthOut, ?_, ?_, ?_, ?_⟩
  · intro c v hv
    simp only [liveVisit, hin] at hv
    split_ifs at hv with hc
    · subst hc
      rcases mem_nextIn.mp hv with hv | ⟨⟨d, hd, hv⟩, hdef⟩
      · exact .use hb hv
      · exact .edge hb hd (h.sound hv) hdef
    · exact h.sound hv
  · intro c block' hc
    refine Finset.Subset.trans ?_ (nextIn_mono hgrow block')
    simp only [liveVisit, hin]
    split_ifs with heq
    · subst heq
      rw [mem_unique hb hc]
    · exact h.growsIn hc
  · intro c block' hc
    refine Finset.Subset.trans ?_ (nextOut_mono hgrow block')
    simp only [liveVisit, hout]
    split_ifs with heq
    · subst heq
      rw [mem_unique hb hc]
    · exact h.growsOut hc
  · intro c v hv
    simp only [liveVisit, hin, hout] at hv
    split_ifs at hv with hc
    · rcases hv with hv | hv
      · rw [nextIn, Finset.mem_union, Finset.mem_sdiff] at hv
        rcases hv with hv | ⟨hv, -⟩
        · exact uses_subset_exposedUses (mem_of_getElem? hb) hv
        · exact hexposed hv
      · exact hexposed hv
    · exact h.exposed hv

theorem LiveSets.card_set (sets : LiveSets) (s : Finset ValueId) (hb : b < sets.length) :
    LiveSets.card (sets.set b s) + (sets.of b).card = sets.card + s.card := sum_card_set hb s

/-- what a visit changes it enlarges -/
theorem liveVisit_card (changed : Bool) (h : LiveInv f count s) (hb : f.blocks[block.id]? = some block) :
    let s' := liveVisit count (s, changed) block
    s.liveIn.card + s.liveOut.card ≤ s'.1.liveIn.card + s'.1.liveOut.card ∧
      (s'.2 = true → changed = true ∨
        s.liveIn.card + s.liveOut.card < s'.1.liveIn.card + s'.1.liveOut.card) ∧
      (s'.2 = false → changed = false ∧ s'.1 = s ∧ s.liveIn.of block.id = nextIn count s.liveIn block) := by
  have hlt := (List.getElem?_eq_some_iff.mp hb).1
  have hin := LiveSets.card_set s.liveIn (nextIn count s.liveIn block) (h.lengthIn ▸ hlt)
  have hout := LiveSets.card_set s.liveOut (nextOut s.liveIn block) (h.lengthOut ▸ hlt)
  have hcin := Finset.card_le_card (h.growsIn hb)
  have hcout := Finset.card_le_card (h.growsOut hb)
  simp only [liveVisit]
  refine ⟨by omega, fun hc => ?_, fun hc => ?_⟩
  · simp only [Bool.or_eq_true, decide_eq_true_eq] at hc
    rcases hc with (hc | hc) | hc
    · exact .inl hc
    · have := Finset.card_lt_card (Finset.ssubset_iff_subset_ne.mpr ⟨h.growsOut hb, hc⟩)
      exact .inr (by omega)
    · have := Finset.card_lt_card (Finset.ssubset_iff_subset_ne.mpr ⟨h.growsIn hb, hc⟩)
      exact .inr (by omega)
  · simp only [Bool.or_eq_false_iff, decide_eq_false_iff_not, not_not] at hc
    obtain ⟨⟨hc, hsameOut⟩, hsameIn⟩ := hc
    have hself : ∀ {sets : LiveSets}, block.id < sets.length → sets.set block.id (sets.of block.id) = sets := by
      intro sets hl
      simp [LiveSets.of, hl]
    refine ⟨hc, ?_, hsameIn⟩
    rw [← hsameIn, ← hsameOut, hself (h.lengthIn ▸ hlt), hself (h.lengthOut ▸ hlt)]

theorem liveVisit_fold (changed : Bool) (blocks : List BasicBlock) (hblocks : ∀ block ∈ blocks, f.blocks[block.id]? = some block)
    (h : LiveInv f count s) :
    let s' := blocks.foldl (liveVisit count) (s, changed)
    LiveInv f count s'.1 ∧ s.liveIn.card + s.liveOut.card ≤ s'.1.liveIn.card + s'.1.liveOut.card ∧
      (s'.2 = true → changed = true ∨
        s.liveIn.card + s.liveOut.card < s'.1.liveIn.card + s'.1.liveOut.card) ∧
      (s'.2 = false → changed = false ∧ s'.1 = s ∧
        ∀ block ∈ blocks, s.liveIn.of block.id = nextIn count s.liveIn block) := by
  induction blocks generalizing s changed with
  | nil => exact ⟨h, le_rfl, .inl, fun hc => ⟨hc, rfl, fun _ hb => absurd hb not_mem_nil⟩⟩
  | cons block blocks ih =>
    have hb := hblocks block mem_cons_self
    obtain ⟨hle, htrue, hfalse⟩ := liveVisit_card changed h hb
    obtain ⟨hinv, hle', htrue', hfalse'⟩ := ih (liveVisit count (s, changed) block).2
      (fun b hb => hblocks b (mem_cons_of_mem _ hb)) (liveVisit_inv changed h hb)
    refine ⟨hinv, hle.trans hle', fun hc => ?_, fun hc => ?_⟩
    · rcases htrue' hc with hc | hlt
      · exact (htrue hc).imp id fun hlt => lt_of_lt_of_le hlt hle'
      · exact .inr (lt_of_le_of_lt hle hlt)
    · obtain ⟨hc₁, hs₁, hall⟩ := hfalse' hc
      obtain ⟨hc₂, hs₂, hnext⟩ := hfalse hc₁
      rw [hs₂] at hall
      exact ⟨hc₂, hs₁.trans hs₂, forall_mem_cons.mpr ⟨hnext, hall⟩⟩

end Visit

theorem LiveSets.card_le {U : Finset ValueId} (h : ∀ b, sets.of b ⊆ U) :
    sets.card ≤ sets.length * U.card := by
  have hall : ∀ n ∈ sets.map Finset.card, n ≤ U.card := by
    intro n hn
    obtain ⟨s, hs, rfl⟩ := mem_map.mp hn
    obtain ⟨b, hb⟩ := mem_iff_getElem?.mp hs
    have hof : sets.of b = s := by simp [LiveSets.of, getD_eq_getElem?_getD, hb]
    exact Finset.card_le_card (hof ▸ h b)
  simpa [LiveSets.card] using sum_le_card_nsmul _ _ hall

theorem liveStart_inv : LiveInv f count (liveStart f) := by
  have hempty : ∀ b, LiveSets.of (List.replicate f.blocks.length ∅) b = ∅ := fun b => by
    simp only [LiveSets.of, getD_eq_getElem?_getD, getElem?_replicate]
    split_ifs <;> rfl
  refine ⟨by simp [liveStart], by simp [liveStart], ?_, ?_, ?_, ?_⟩ <;> simp [liveStart, hempty]

theorem Function.Indexed.reverse_blocks (hf : f.Indexed) : ∀ block ∈ f.blocks.reverse, f.blocks[block.id]? = some block := by
  intro block hb
  obtain ⟨i, hi⟩ := mem_iff_getElem?.mp (mem_reverse.mp hb)
  rw [hf.block hi]
  exact hi

theorem liveRound_inv (hf : f.Indexed) (s : LiveState) (h : LiveInv f count s) : LiveInv f count (liveRound f count s).1 :=
  (liveVisit_fold false f.blocks.reverse hf.reverse_blocks h).1

/-- the values that the sets of a state can still take up -/
def liveRoom (f : Function) (count : Nat) (s : LiveState) : Nat :=
  2 * (f.blocks.length * (exposedUses f count).card) - (s.liveIn.card + s.liveOut.card)

theorem liveRound_room (hf : f.Indexed) (s : LiveState) (h : LiveInv f count s) (hc : (liveRound f count s).2 = true) :
    liveRoom f count (liveRound f count s).1 < liveRoom f count s := by
  obtain ⟨hinv, -, htrue, -⟩ := liveVisit_fold false f.blocks.reverse hf.reverse_blocks h
  have hlt := (htrue hc).resolve_left (by simp)
  have hin := LiveSets.card_le fun b v hv => hinv.exposed (.inl hv)
  have hout := LiveSets.card_le fun b v hv => hinv.exposed (b := b) (.inr hv)
  rw [hinv.lengthIn] at hin
  rw [hinv.lengthOut] at hout
  simp only [liveRoom, liveRound]
  omega

/-- The loop ends. -/
theorem lirLiveIns_terminates (hf : f.Indexed) : ∃ n sets, ∀ fuel > n, lirLiveIns fuel f count = some sets := by
  obtain ⟨k, hk⟩ := exists_stable (liveRoom f count) (liveRound_inv hf) (liveRound_room hf) liveStart_inv
  obtain ⟨s, hs⟩ := loop_of_stable hk
  exact ⟨k, s.liveIn, fun fuel hfuel => by rw [lirLiveIns, hs fuel hfuel]; rfl⟩

/-- Its result names exactly the live values. -/
theorem mem_lirLiveIns (hf : f.Indexed) {fuel : Nat} (h : lirLiveIns fuel f count = some sets) :
    v ∈ sets.of b ↔ LiveIn f count v b := by
  obtain ⟨s, hs, rfl⟩ := map_eq_some_iff.mp h
  obtain ⟨k, -, -, hstable, rfl⟩ := loop_eq_some_iff.mp hs
  have hinv : LiveInv f count (rounds (liveRound f count) k (liveStart f)) :=
    rounds_inv (liveRound_inv hf) liveStart_inv k
  generalize rounds (liveRound f count) k (liveStart f) = s at hstable hinv
  obtain ⟨-, -, -, hfalse⟩ := liveVisit_fold false f.blocks.reverse hf.reverse_blocks hinv
  obtain ⟨-, hsame, hnext⟩ := hfalse hstable
  have hsame : (liveRound f count s).1 = s := hsame
  rw [hsame]
  refine ⟨hinv.sound, fun hlive => ?_⟩
  have hof : ∀ {c block}, f.blocks[c]? = some block → s.liveIn.of c = nextIn count s.liveIn block := by
    intro c block hc
    have := hnext block (mem_reverse.mpr (mem_of_getElem? hc))
    rwa [hf.block hc] at this
  induction hlive with
  | use hb hv => exact hof hb ▸ mem_nextIn.mpr (.inl hv)
  | edge hb hc _ hdef ih => exact hof hb ▸ mem_nextIn.mpr (.inr ⟨⟨_, hc, ih⟩, hdef⟩)

end Loop

section Paths

variable {f : Function} {count : Nat} {v : ValueId} {b : BlockId} {k : Nat} {block : BasicBlock}

theorem mem_defines_done {j : Nat} : v ∈ f.defines (.done b j) ↔
    ∃ block i, f.blocks[b]? = some block ∧ block.instructions[j]? = some i ∧ i.result = some v := by
  simp only [Function.defines, mem_toList, bind_eq_some_iff, instructionAt_eq_some]
  constructor
  · rintro ⟨i, ⟨block, hb, hi⟩, hv⟩
    exact ⟨block, i, hb, hi, hv⟩
  · rintro ⟨block, i, hb, hi, hv⟩
    exact ⟨i, ⟨block, hb, hi⟩, hv⟩

theorem mem_defines_enter (hb : f.blocks[b]? = some block) : v ∈ f.defines (.enter b) ↔ v ∈ block.parameters := by
  simp [Function.defines, hb]

theorem mem_take_results {instructions : List Instruction} : v ∈ (instructions.take k).filterMap Instruction.result ↔
    ∃ (j : Nat) (i : Instruction), j < k ∧ instructions[j]? = some i ∧ i.result = some v := by
  rw [mem_filterMap]
  constructor
  · rintro ⟨i, hi, hv⟩
    obtain ⟨j, hj⟩ := mem_iff_getElem?.mp hi
    rw [getElem?_take] at hj
    split_ifs at hj with hlt
    exact ⟨j, i, hlt, hj, hv⟩
  · rintro ⟨j, i, hlt, hj, hv⟩
    exact ⟨i, mem_iff_getElem?.mpr ⟨j, by rw [getElem?_take, if_pos hlt, hj]⟩, hv⟩

section

variable (hb : f.blocks[b]? = some block)

include hb

/-- the first instructions of a block run, if none of them defines the value -/
theorem Live.of_index (hk : k ≤ block.instructions.length)
    (hdef : v ∉ (block.instructions.take k).filterMap Instruction.result) (h : Live f ⟨b, k⟩ v) : Live f ⟨b, 0⟩ v := by
  induction k with
  | zero => exact h
  | succ k ih =>
    have hi : f.instructionAt ⟨b, k⟩ = some block.instructions[k] :=
      instructionAt_eq_some.mpr ⟨block, hb, getElem?_eq_getElem hk⟩
    refine ih (Nat.le_of_succ_le hk) (fun hmem => hdef ?_) (.of_step (.next hi) h fun e he => ?_)
    · obtain ⟨j, i, hj, hi, hv⟩ := mem_take_results.mp hmem
      exact mem_take_results.mpr ⟨j, i, Nat.lt_succ_of_lt hj, hi, hv⟩
    · rw [mem_singleton.mp he, mem_defines_done]
      rintro ⟨block', i, hb', hi, hv⟩
      obtain rfl := mem_unique hb hb'
      exact hdef (mem_take_results.mpr ⟨k, i, Nat.lt_succ_self k, hi, hv⟩)

theorem readsAt_instruction {i : Instruction} (hi : block.instructions[k]? = some i) :
    f.readsAt ⟨b, k⟩ = i.valueUses := by
  simp [Function.readsAt, Function.instructionAt, hb, hi]

theorem readsAt_terminator :
    f.readsAt ⟨b, block.instructions.length⟩ = block.terminator.valueUses := by
  simp [Function.readsAt, Function.instructionAt, hb, terminatorAt_end hb]

end

/-- a value that is live at the entry of a block and not among its parameters is live before the block is entered -/
theorem Live.of_enter {p : Point} {c : BlockId} {ε : List Event} (hs : Step f p ε ⟨c, 0⟩)
    (hε : ε = [.enter c] ∨ ε = [.enter c, .suspend]) (h : Live f ⟨c, 0⟩ v ∧ v ∉ f.defines (.enter c)) : Live f p v := by
  refine .of_step hs h.1 fun e he => ?_
  have hcases : e = .enter c ∨ e = .suspend := by
    rcases hε with rfl | rfl
    · exact .inl (mem_singleton.mp he)
    · simpa using he
  rcases hcases with rfl | rfl
  · exact h.2
  · exact not_mem_nil

/-- A value that the block graph makes live at the entry of a block is live there. -/
theorem LiveIn.live (hf : f.Structured) (h : LiveIn f f.values.length v b) :
    Live f ⟨b, 0⟩ v ∧ v ∉ f.defines (.enter b) := by
  have hdeclared : ∀ {c : BlockId} {block : BasicBlock}, f.blocks[c]? = some block → v ∈ block.parameters → v < f.values.length :=
    fun hc hv => hf.declared ((mem_defines hf.toIndexed (s := .blockEntry _)).mp ((mem_defines_enter hc).mpr hv))
  induction h with
  | @use b block hb hv =>
    obtain ⟨hparam, hv⟩ := BasicBlock.mem_uses.mp hv
    refine ⟨?_, fun h => hparam ?_⟩
    · rcases hv with ⟨k, i, hi, hv, hdef⟩ | ⟨hv, hdef⟩
      · exact .of_index hb (List.getElem?_eq_some_iff.mp hi).1.le hdef (.of_read (by rwa [readsAt_instruction hb hi]))
      · refine .of_index hb le_rfl ?_ (.of_read (by rwa [readsAt_terminator hb]))
        rwa [take_length]
    · rw [mem_defines_enter hb] at h
      exact ⟨h, hdeclared hb h⟩
  | @edge b c block hb hc _ hdef ih =>
    rw [BasicBlock.mem_definitions, not_or] at hdef
    obtain ⟨k, hk, ε, hs, hε⟩ := Step.of_edge hb hc
    refine ⟨.of_index hb hk (fun h => hdef.2 ?_) (.of_enter hs hε ih), fun h => hdef.1 ?_⟩
    · obtain ⟨j, i, -, hi, hv⟩ := mem_take_results.mp h
      exact mem_filterMap.mpr ⟨i, mem_of_getElem? hi, hv⟩
    · rw [mem_defines_enter hb] at h
      exact ⟨h, hdeclared hb h⟩

/-- Conversely, when every read is defined: a value live at a point of a block that has not defined it so far
is live at its entry by the block graph. Past a handler edge this needs that nothing defined late is read. -/
theorem liveIn_of_live (hf : f.Structured) (hreads : ReadsDefined f) {p : Point} {ρ : List Event} (hrun : Run f ρ p)
    (h : Live f p v) (hb : f.blocks[p.block]? = some block) (hparam : v ∉ block.parameters)
    (hdef : v ∉ (block.instructions.take p.index).filterMap Instruction.result) :
    LiveIn f f.values.length v p.block := by
  obtain ⟨τ, q, hw, hv, hτ⟩ := h
  -- on the length of the path to the read
  induction hn : τ.length using Nat.strong_induction_on generalizing p ρ τ block with
  | _ n ih =>
    have hnoparam : ¬ (v ∈ block.parameters ∧ v < f.values.length) := fun h => hparam h.1
    rcases hw.head_cases with ⟨rfl, rfl⟩ | ⟨ε, r, σ, hs, hw', rfl⟩
    · refine .use hb (BasicBlock.mem_uses.mpr ⟨hnoparam, ?_⟩)
      obtain ⟨block', hb', ⟨i, hi, hv⟩ | ⟨hlen, hv⟩⟩ := readsAt_cases hv
      · obtain rfl := mem_unique hb hb'
        exact .inl ⟨p.index, i, hi, hv, hdef⟩
      · obtain rfl := mem_unique hb hb'
        rw [← hlen, take_length] at hdef
        exact .inr ⟨hv, hdef⟩
    · obtain ⟨hσ, hε⟩ := forall_mem_append.mp hτ
      have hlen : σ.length < n := by
        rw [← hn, length_append]
        have : 0 < ε.length := by cases hs <;> simp
        omega
      have hrun' := hrun.step hs
      rcases hs.cases_events with ⟨rfl, rfl, -⟩ | ⟨c, rfl, hE, henter⟩
      · -- the next instruction of the block
        refine ih σ.length hlen (p := ⟨p.block, p.index + 1⟩) hrun' hb hparam (fun hmem => ?_) σ hw' hσ rfl
        obtain ⟨j, i, hj, hi, hv⟩ := mem_take_results.mp hmem
        rcases Nat.lt_succ_iff_lt_or_eq.mp hj with hj | rfl
        · exact hdef (mem_take_results.mpr ⟨j, i, hj, hi, hv⟩)
        · exact hε _ (mem_singleton.mpr rfl) (mem_defines_done.mpr ⟨block, i, hb, hi, hv⟩)
      · -- another block
        have hvc : v ∉ f.defines (.enter c) := hε _ (by rcases henter with rfl | rfl <;> simp)
        obtain ⟨block', hb', hc⟩ := hE
        obtain rfl := mem_unique hb hb'
        obtain ⟨block', hb'⟩ : ∃ block', f.blocks[c]? = some block' := by
          cases hbc : f.blocks[c]? with
          | some block' => exact ⟨block', rfl⟩
          | none =>
            -- a block that does not exist goes nowhere and reads nothing
            have hnone : ∀ k, f.instructionAt ⟨c, k⟩ = none ∧ f.terminatorAt ⟨c, k⟩ = none := fun k => by
              simp [Function.instructionAt, Function.terminatorAt, hbc]
            rcases hw'.head_cases with ⟨rfl, -⟩ | ⟨ε', r', σ', hs', -, -⟩
            · simp [Function.readsAt, hnone] at hv
            · cases hs' <;> simp_all
        have hin : LiveIn f f.values.length v c :=
          ih σ.length hlen hrun' hb' ((mem_defines_enter hb').not.mp hvc) (by simp) σ hw' hσ rfl
        refine .edge hb hc hin (BasicBlock.mem_definitions.not.mpr (not_or.mpr ⟨hnoparam, fun hmem => ?_⟩))
        -- the block defines the value at or after the point that the path leaves
        obtain ⟨i, hi, hiv⟩ := mem_filterMap.mp hmem
        obtain ⟨j, hj⟩ := mem_iff_getElem?.mp hi
        have hle : p.index ≤ j := by
          by_contra hlt
          exact hdef (mem_take_results.mpr ⟨j, i, Nat.lt_of_not_le hlt, hj, hiv⟩)
        have hdone : v ∈ f.defines (.done p.block j) := mem_defines_done.mpr ⟨block, i, hb, hj, hiv⟩
        obtain ⟨ρ₁, hrun₁, hnot⟩ := Run.exists_not_done hrun hle
        obtain ⟨e, he, hev⟩ := hreads _ q ((hrun₁.step hs).trans hw') v hv
        rw [hf.event_unique (hf.lt_of_readsAt hv) ((mem_defines hf.toIndexed (s := .instruction _ j)).mp hdone) hev,
          DefinitionSite.event, mem_append, mem_append] at he
        rcases he with he | he | he
        · exact hσ _ he hdone
        · exact hε _ he hdone
        · exact hnot he

end Paths

end Subscript.Lir
