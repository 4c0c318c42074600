import Subscript.Lir.Verify
import Subscript.Lir.Dominators

/-! Control-flow paths of a function, instruction by instruction. A handler edge leaves a block right
after the operands of a raise site were read: the instruction does not complete. -/

namespace Subscript.Lir

open List

/-- the instruction or terminator that runs next -/
structure Point where
  block : BlockId
  index : Nat
  deriving DecidableEq

inductive Event where
  | start
  | enter (block : BlockId)
  | done (block : BlockId) (index : Nat)
  | suspend
  deriving DecidableEq

namespace Function

variable (f : Function)

def instructionAt (p : Point) : Option Instruction :=
  f.blocks[p.block]?.bind (·.instructions[p.index]?)

def terminatorAt (p : Point) : Option Terminator :=
  (f.blocks[p.block]?.filter (·.instructions.length = p.index)).map BasicBlock.terminator

/-- the value operands that are read at `p` -/
def readsAt (p : Point) : List ValueId :=
  match f.instructionAt p with
  | some i => i.valueUses
  | none => ((f.terminatorAt p).map Terminator.valueUses).getD []

/-- the values that an event defines -/
def defines : Event → List ValueId
  | .start => f.parameters.map Parameter.value
  | .enter b => (f.blocks[b]?.map BasicBlock.parameters).getD []
  | .done b k => ((f.instructionAt ⟨b, k⟩).bind Instruction.result).toList
  | .suspend => []

end Function

/-- One step of a path, with its events, newest first. -/
inductive Step (f : Function) : Point → List Event → Point → Prop
  | next {p : Point} {i : Instruction} : f.instructionAt p = some i →
      Step f p [.done p.block p.index] ⟨p.block, p.index + 1⟩
  | raise {p : Point} {i : Instruction} {h : BlockId} : f.instructionAt p = some i →
      i.handler = some h → Step f p [.enter h] ⟨h, 0⟩
  | jump {p : Point} {t : Terminator} {c : BlockId} : f.terminatorAt p = some t →
      t.resume? = none → c ∈ t.successors → Step f p [.enter c] ⟨c, 0⟩
  | suspend {p : Point} {t : Terminator} {c : BlockId} : f.terminatorAt p = some t →
      t.resume? = some c → Step f p [.enter c, .suspend] ⟨c, 0⟩

inductive Walk (f : Function) (p : Point) : List Event → Point → Prop
  | refl : Walk f p [] p
  | step {τ ε : List Event} {q r : Point} : Walk f p τ q → Step f q ε r → Walk f p (ε ++ τ) r

/-- a path from the entry of the function, with all that happened on it -/
def Run (f : Function) (τ : List Event) (q : Point) : Prop :=
  ∃ σ, Walk f ⟨f.entry, 0⟩ σ q ∧ τ = σ ++ [.enter f.entry, .start]

variable {f : Function} {p q r : Point} {τ σ ε : List Event} {b c d : BlockId} {j k : Nat}

theorem instructionAt_eq_some {i : Instruction} :
    f.instructionAt p = some i ↔
      ∃ block, f.blocks[p.block]? = some block ∧ block.instructions[p.index]? = some i := by
  simp [Function.instructionAt, Option.bind_eq_some_iff]

variable {t : Terminator}

theorem terminatorAt_eq_some :
    f.terminatorAt p = some t ↔
      ∃ block, f.blocks[p.block]? = some block ∧ block.instructions.length = p.index ∧
        block.terminator = t := by
  simp only [Function.terminatorAt, Option.map_eq_some_iff, Option.filter_eq_some_iff,
    decide_eq_true_eq, and_assoc]

variable {block : BasicBlock}

theorem terminatorAt_end (hb : f.blocks[b]? = some block) :
    f.terminatorAt ⟨b, block.instructions.length⟩ = some block.terminator :=
  terminatorAt_eq_some.mpr ⟨block, hb, rfl, rfl⟩

/-- no instruction of the block stands at or after its terminator -/
theorem instructionAt_none_of_terminatorAt (h : f.terminatorAt p = some t)
    (hk : p.index ≤ k) : f.instructionAt ⟨p.block, k⟩ = none := by
  obtain ⟨block, hb, hlen, -⟩ := terminatorAt_eq_some.mp h
  simp only [Function.instructionAt, hb, Option.bind_some]
  exact getElem?_eq_none (hlen ▸ hk)

theorem resume_mem_successors (h : t.resume? = some c) : c ∈ t.successors := by
  cases t with
  | suspend s =>
    obtain rfl := Option.some.inj h
    exact mem_singleton.mpr rfl
  | _ => exact absurd h (by simp [Terminator.resume?])

theorem eq_of_resume (h : t.resume? = some c) (hd : d ∈ t.successors) : d = c := by
  cases t with
  | suspend s => exact (mem_singleton.mp hd).trans (Option.some.inj h)
  | _ => exact absurd h (by simp [Terminator.resume?])

theorem argument_mem_valueUses {x : ValueId} {target : BlockTarget} (htarget : target ∈ t.targets)
    (hx : Operand.value x ∈ target.arguments) : x ∈ t.valueUses := by
  have huse : ∀ {os : List Operand}, Operand.value x ∈ os → x ∈ os.filterMap Operand.value? :=
    fun h => mem_filterMap.mpr ⟨_, h, rfl⟩
  cases t with
  | branch _ => cases mem_singleton.mp htarget; exact huse hx
  | conditionalBranch _ _ _ =>
    simp only [Terminator.targets, mem_cons, not_mem_nil, or_false] at htarget
    rcases htarget with rfl | rfl <;> exact huse (by simp [hx])
  | switch _ arms default =>
    rcases mem_append.mp htarget with htarget | htarget
    · obtain ⟨arm, harm, rfl⟩ := mem_map.mp htarget
      exact huse (mem_cons_of_mem _ (mem_append_left _ (mem_flatMap.mpr ⟨arm, harm, hx⟩)))
    · cases mem_singleton.mp htarget
      exact huse (mem_cons_of_mem _ (mem_append_right _ hx))
  | «return» _ => cases htarget
  | unreachable => cases htarget
  | trap _ => cases htarget
  | suspend r =>
    cases mem_singleton.mp htarget
    exact mem_append_left _ (huse hx)

/-- a step either completes an instruction or enters a block along an edge of the block graph -/
theorem Step.cases_events (h : Step f p ε q) :
    (ε = [.done p.block p.index] ∧ q = ⟨p.block, p.index + 1⟩ ∧ ∃ i, f.instructionAt p = some i) ∨
    ∃ c, q = ⟨c, 0⟩ ∧ f.Edge p.block c ∧ (ε = [.enter c] ∨ ε = [.enter c, .suspend]) := by
  cases h with
  | @next i hi => exact .inl ⟨rfl, rfl, i, hi⟩
  | @raise i h hi hh =>
    obtain ⟨block, hb, hk⟩ := instructionAt_eq_some.mp hi
    refine .inr ⟨h, rfl, ⟨block, hb, mem_append_left _ ?_⟩, .inl rfl⟩
    exact mem_filterMap.mpr ⟨i, mem_of_getElem? hk, hh⟩
  | @jump t c ht _ hc =>
    obtain ⟨block, hb, -, rfl⟩ := terminatorAt_eq_some.mp ht
    exact .inr ⟨c, rfl, ⟨block, hb, mem_append_right _ hc⟩, .inl rfl⟩
  | @suspend t c ht hc =>
    obtain ⟨block, hb, -, rfl⟩ := terminatorAt_eq_some.mp ht
    exact .inr ⟨c, rfl, ⟨block, hb, mem_append_right _ (resume_mem_successors hc)⟩, .inr rfl⟩

/-- every target of a terminator is entered by a step -/
theorem Step.of_successor (ht : f.terminatorAt p = some t) (hc : c ∈ t.successors) :
    ∃ ε, Step f p ε ⟨c, 0⟩ ∧ (ε = [.enter c] ∨ ε = [.enter c, .suspend]) := by
  cases hr : t.resume? with
  | none => exact ⟨_, .jump ht hr hc, .inl rfl⟩
  | some d =>
    obtain rfl := eq_of_resume hr hc
    exact ⟨_, .suspend ht hr, .inr rfl⟩

/-- every edge of the block graph is a step from somewhere in the block -/
theorem Step.of_edge (hb : f.blocks[b]? = some block) (hc : c ∈ block.successors) :
    ∃ k ≤ block.instructions.length, ∃ ε, Step f ⟨b, k⟩ ε ⟨c, 0⟩ ∧ (ε = [.enter c] ∨ ε = [.enter c, .suspend]) := by
  rcases mem_append.mp hc with hc | hc
  · obtain ⟨i, hi, hh⟩ := mem_filterMap.mp hc
    obtain ⟨k, hk⟩ := mem_iff_getElem?.mp hi
    exact ⟨k, (List.getElem?_eq_some_iff.mp hk).1.le, _, .raise (instructionAt_eq_some.mpr ⟨block, hb, hk⟩) hh, .inl rfl⟩
  · exact ⟨_, le_rfl, Step.of_successor (terminatorAt_end hb) hc⟩

namespace Walk

theorem trans (h : Walk f p τ q) (h' : Walk f q σ r) : Walk f p (σ ++ τ) r := by
  induction h' with
  | refl => exact h
  | step _ hs ih => rw [append_assoc]; exact ih.step hs

theorem head (hs : Step f p ε q) (h : Walk f q σ r) : Walk f p (σ ++ ε) r := by
  have h₁ : Walk f p (ε ++ []) q := Walk.refl.step hs
  rw [append_nil] at h₁
  exact h₁.trans h

/-- the blocks that a list of events enters -/
def entered (τ : List Event) : List BlockId :=
  τ.filterMap fun
    | .enter b => some b
    | _ => none

theorem mem_entered : b ∈ entered τ ↔ Event.enter b ∈ τ := by
  simp only [entered, mem_filterMap]
  constructor
  · rintro ⟨e, he, hb⟩
    cases e with
    | enter c => obtain rfl := Option.some.inj hb; exact he
    | _ => exact absurd hb (by simp)
  · intro h
    exact ⟨_, h, rfl⟩

theorem blockPath (h : Walk f p τ q) : Flow.Path f.Edge p.block (entered τ) q.block := by
  induction h with
  | refl => exact .refl
  | step _ hs ih =>
    rcases hs.cases_events with ⟨rfl, rfl, -⟩ | ⟨c, rfl, hE, rfl | rfl⟩
    · exact ih
    · exact ih.snoc hE
    · exact ih.snoc hE

/-- what the current visit of the last block has completed -/
theorem done_of_lt (h : Walk f ⟨b, 0⟩ τ q) (hj : j < q.index) : Event.done q.block j ∈ τ := by
  induction h with
  | refl => exact absurd hj (Nat.not_lt_zero _)
  | @step τ ε q r _ hs ih =>
    rcases hs.cases_events with ⟨rfl, rfl, -⟩ | ⟨c, rfl, -, -⟩
    · rcases Nat.lt_succ_iff_lt_or_eq.mp hj with hj | rfl
      · exact mem_append_right _ (ih hj)
      · exact mem_append_left _ (mem_singleton.mpr rfl)
    · exact absurd hj (Nat.not_lt_zero _)

/-- A walk that visits `d` without completing its instruction `j` is still before it, or has left `d`
by a handler edge at or before it. -/
theorem left_early (h : Walk f ⟨b, 0⟩ τ q) (hv : d = b ∨ Event.enter d ∈ τ)
    (hj : (f.instructionAt ⟨d, j⟩).isSome) (hnot : Event.done d j ∉ τ) :
    (q.block = d ∧ q.index ≤ j) ∨
    ∃ (i : Nat) (instr : Instruction) (h : BlockId) (τ₁ τ₂ : List Event), i ≤ j ∧
      f.instructionAt ⟨d, i⟩ = some instr ∧ instr.handler = some h ∧
      Walk f ⟨b, 0⟩ τ₁ ⟨d, i⟩ ∧ Walk f ⟨h, 0⟩ τ₂ q ∧ τ = τ₂ ++ Event.enter h :: τ₁ := by
  induction h with
  | refl =>
    rcases hv with rfl | hv
    · exact .inl ⟨rfl, Nat.zero_le _⟩
    · exact absurd hv not_mem_nil
  | @step τ ε q r hw hs ih =>
    rw [mem_append, not_or] at hnot
    by_cases hv' : d = b ∨ Event.enter d ∈ τ
    · rcases ih hv' hnot.2 with ⟨rfl, hle⟩ | ⟨i, instr, c, τ₁, τ₂, hi, h₁, h₂, h₃, h₄, rfl⟩
      · -- still in `d`: only a handler edge can leave it before instruction `j`
        cases hs with
        | next _ =>
          refine .inl ⟨rfl, Nat.lt_of_le_of_ne hle fun heq => hnot.1 ?_⟩
          rw [← heq]
          exact mem_singleton.mpr rfl
        | @raise i c hi hc => exact .inr ⟨q.index, i, c, τ, [], hle, hi, hc, hw, .refl, rfl⟩
        | jump ht _ _ => rw [instructionAt_none_of_terminatorAt ht hle] at hj; exact absurd hj (by simp)
        | suspend ht _ => rw [instructionAt_none_of_terminatorAt ht hle] at hj; exact absurd hj (by simp)
      · exact .inr ⟨i, instr, c, τ₁, ε ++ τ₂, hi, h₁, h₂, h₃, h₄.step hs, by simp⟩
    · rcases hs.cases_events with ⟨rfl, rfl, -⟩ | ⟨c, rfl, -, hε⟩
      · exact absurd (by simpa using hv) hv'
      · have hd : d = c := by
          rcases hε with rfl | rfl <;> simp at hv <;> tauto
        exact .inl ⟨hd.symm, Nat.zero_le _⟩

theorem enter_of_done (h : Walk f ⟨b, 0⟩ τ q) (hd : Event.done d j ∈ τ) : d = b ∨ Event.enter d ∈ τ := by
  induction h with
  | refl => exact absurd hd not_mem_nil
  | @step τ ε q r hw hs ih =>
    rcases mem_append.mp hd with hd | hd
    · rcases hs.cases_events with ⟨rfl, rfl, -⟩ | ⟨c, rfl, -, rfl | rfl⟩
      · obtain ⟨rfl, rfl⟩ : d = q.block ∧ j = q.index := by simpa using hd
        exact hw.blockPath.head_mem.imp id fun h => mem_append_right _ (mem_entered.mp h)
      · exact absurd hd (by simp)
      · exact absurd hd (by simp)
    · exact (ih hd).imp id (mem_append_right _)

/-- within a block every instruction can complete -/
theorem to_index {block : BasicBlock} (hb : f.blocks[b]? = some block)
    (hk : k ≤ block.instructions.length) : ∃ τ, Walk f ⟨b, 0⟩ τ ⟨b, k⟩ ∧ entered τ = [] := by
  induction k with
  | zero => exact ⟨[], .refl, rfl⟩
  | succ k ih =>
    obtain ⟨τ, hw, he⟩ := ih (Nat.le_of_succ_le hk)
    have hi : f.instructionAt ⟨b, k⟩ = some block.instructions[k] :=
      instructionAt_eq_some.mpr ⟨block, hb, getElem?_eq_getElem hk⟩
    exact ⟨_, hw.step (.next hi), by simpa [entered] using he⟩

/-- every edge of the block graph is taken by some walk from the start of its block -/
theorem of_edge (hE : f.Edge b c) : ∃ τ, Walk f ⟨b, 0⟩ τ ⟨c, 0⟩ ∧ entered τ = [c] := by
  obtain ⟨block, hb, hc⟩ := hE
  obtain ⟨k, hk, ε, hs, hε⟩ := Step.of_edge hb hc
  obtain ⟨τ, hw, he⟩ := to_index hb hk
  refine ⟨_, hw.step hs, ?_⟩
  rcases hε with rfl | rfl <;> simpa [entered] using he

end Walk

namespace Run

theorem enter_of_done (h : Run f τ q) (hd : Event.done d j ∈ τ) : Event.enter d ∈ τ := by
  obtain ⟨σ, hw, rfl⟩ := h
  rcases hw.enter_of_done (by simpa using hd) with rfl | hd
  · exact mem_append_right _ mem_cons_self
  · exact mem_append_left _ hd

theorem enter_block (h : Run f τ q) : Event.enter q.block ∈ τ := by
  obtain ⟨σ, hw, rfl⟩ := h
  rcases hw.blockPath.head_mem with hb | hb
  · rw [hb]
    exact mem_append_right _ mem_cons_self
  · exact mem_append_left _ (Walk.mem_entered.mp hb)

theorem reachable (h : Run f τ q) : Flow.Reachable f.Edge f.entry q.block := by
  obtain ⟨σ, hw, -⟩ := h
  exact ⟨_, hw.blockPath⟩

/-- a run enters every computed dominator of the block it is in -/
theorem enter_dominator (hf : f.Indexed) (h : Run f τ q) (hd : d ∈ (dominators f).of q.block) :
    Event.enter d ∈ τ := by
  obtain ⟨σ, hw, rfl⟩ := h
  rcases dominates_of_mem_dominators hf hd _ hw.blockPath with rfl | hd
  · exact mem_append_right _ mem_cons_self
  · exact mem_append_left _ (Walk.mem_entered.mp hd)

theorem done_of_lt (h : Run f τ q) (hj : j < q.index) : Event.done q.block j ∈ τ := by
  obtain ⟨σ, hw, rfl⟩ := h
  exact mem_append_left _ (hw.done_of_lt hj)

theorem trans (h : Run f τ p) (hw : Walk f p σ q) : Run f (σ ++ τ) q := by
  obtain ⟨σ', hw', rfl⟩ := h
  exact ⟨σ ++ σ', hw'.trans hw, by rw [append_assoc]⟩

theorem step (h : Run f τ p) (hs : Step f p ε q) : Run f (ε ++ τ) q := by
  obtain ⟨σ', hw', rfl⟩ := h
  exact ⟨ε ++ σ', hw'.step hs, by rw [append_assoc]⟩

/-- every path of the block graph is the trail of a run -/
theorem of_path {l : List BlockId} (h : Flow.Path f.Edge f.entry l b) :
    ∃ τ, Run f τ ⟨b, 0⟩ ∧ Walk.entered τ = l ++ [f.entry] := by
  induction h with
  | refl => exact ⟨_, ⟨[], .refl, rfl⟩, rfl⟩
  | snoc _ hE ih =>
    obtain ⟨τ, hrun, he⟩ := ih
    obtain ⟨σ, hw, he'⟩ := Walk.of_edge hE
    refine ⟨_, hrun.trans hw, ?_⟩
    simp only [Walk.entered, filterMap_append] at he he' ⊢
    rw [he, he']
    rfl

end Run

end Subscript.Lir
