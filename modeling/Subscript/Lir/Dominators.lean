import Subscript.Lir.Syntax
import Subscript.Flow.Path
import Subscript.Flow.Fixpoint
import Mathlib.Data.Finset.Card
import Mathlib.Algebra.Order.BigOperators.Group.List
import Mathlib.Algebra.Order.Ring.Nat

/-! The iterative dominator computation over the block graph (`verify_dominance.rs`). Its loop ends,
and a block is in the computed set only if every path from the entry passes it. -/

namespace Subscript.Lir

open List Flow

/-- block `c` is a successor of block `b`, handler edges included -/
def Function.Edge (f : Function) (b c : BlockId) : Prop :=
  ∃ block, f.blocks[b]? = some block ∧ c ∈ block.successors

/-- The tables are indexed by the ids that they carry. -/
structure Function.Indexed (f : Function) : Prop where
  block : ∀ {b : BlockId} {block : BasicBlock}, f.blocks[b]? = some block → block.id = b
  localId : ∀ {l : LocalId} {d : Local}, f.locals[l]? = some d → d.id = l
  entry : f.entry < f.blocks.length

abbrev BlockSets := List (Finset BlockId)

def BlockSets.of (sets : BlockSets) (b : BlockId) : Finset BlockId := sets.getD b ∅

def addPredecessors (table : List (List BlockId)) (block : BasicBlock) : List (List BlockId) :=
  block.successors.foldl (fun table s => table.modify s (· ++ [block.id])) table

def predecessors (f : Function) : List (List BlockId) :=
  f.blocks.foldl addPredecessors (List.replicate f.blocks.length [])

/-- the new candidate set of block `b`: the common candidates of its predecessors, and `b` -/
def nextDominators (preds : List (List BlockId)) (sets : BlockSets) (b : BlockId) : Finset BlockId :=
  insert b <|
    match preds.getD b [] with
    | [] => ∅
    | first :: rest =>
      rest.foldl (fun next pred => next.filter (· ∈ sets.of pred)) (sets.of first)

def dominatorsVisit (f : Function) (preds : List (List BlockId)) (state : BlockSets × Bool)
    (block : BasicBlock) : BlockSets × Bool :=
  if block.id = f.entry then state
  else
    let next := nextDominators preds state.1 block.id
    if next = state.1.of block.id then state else (state.1.set block.id next, true)

/-- one pass of the loop over all blocks, with whether a set changed -/
def dominatorsRound (f : Function) (preds : List (List BlockId)) (sets : BlockSets) :
    BlockSets × Bool :=
  f.blocks.foldl (dominatorsVisit f preds) (sets, false)

def dominatorsInit (f : Function) : BlockSets :=
  (List.replicate f.blocks.length (f.blocks.map BasicBlock.id).toFinset).set f.entry {f.entry}

/-- Each round that changes a set removes a candidate, so the rounds are bounded. -/
def dominators (f : Function) : BlockSets :=
  untilStable (dominatorsRound f (predecessors f)) (f.blocks.length * f.blocks.length + 1)
    (dominatorsInit f)

section Predecessors

variable {f : Function} {b c p : BlockId}

theorem mem_addPredecessors_fold (id : BlockId) (succs : List BlockId) (table : List (List BlockId)) :
    p ∈ (succs.foldl (fun table s => table.modify s (· ++ [id])) table).getD c [] ↔
      p ∈ table.getD c [] ∨ (c < table.length ∧ c ∈ succs ∧ p = id) := by
  induction succs generalizing table with
  | nil => simp
  | cons s succs ih =>
    rw [foldl_cons, ih]
    by_cases hc : c < table.length
    · by_cases hs : s = c
      · subst hs
        simp [hc]
        tauto
      · have hs' : c ≠ s := fun h => hs h.symm
        simp [hc, hs, hs']
    · simp [hc]

theorem length_addPredecessors (table : List (List BlockId)) (block : BasicBlock) :
    (addPredecessors table block).length = table.length := by
  unfold addPredecessors
  generalize block.successors = succs
  induction succs generalizing table with
  | nil => rfl
  | cons s succs ih => rw [foldl_cons, ih, length_modify]

theorem mem_predecessors_fold (blocks : List BasicBlock) (table : List (List BlockId)) :
    p ∈ (blocks.foldl addPredecessors table).getD c [] ↔
      p ∈ table.getD c [] ∨
        (c < table.length ∧ ∃ block ∈ blocks, block.id = p ∧ c ∈ block.successors) := by
  induction blocks generalizing table with
  | nil => simp
  | cons block blocks ih =>
    rw [foldl_cons, ih, length_addPredecessors, addPredecessors, mem_addPredecessors_fold]
    simp only [mem_cons, exists_eq_or_imp]
    tauto

theorem mem_predecessors (hf : f.Indexed) :
    p ∈ (predecessors f).getD c [] ↔ c < f.blocks.length ∧ f.Edge p c := by
  rw [predecessors, mem_predecessors_fold]
  have hnil : p ∉ (List.replicate f.blocks.length ([] : List BlockId)).getD c [] := by
    simp [getD_eq_getElem?_getD, getElem?_replicate]
    split_ifs <;> simp
  simp only [hnil, false_or, length_replicate, Function.Edge]
  refine and_congr_right fun _ => ⟨?_, ?_⟩
  · rintro ⟨block, hmem, rfl, hc⟩
    obtain ⟨i, hi⟩ := mem_iff_getElem?.mp hmem
    exact ⟨block, by rw [hf.block hi]; exact hi, hc⟩
  · rintro ⟨block, hb, hc⟩
    exact ⟨block, mem_of_getElem? hb, hf.block hb, hc⟩

end Predecessors

theorem mem_foldl_filter (sets : BlockSets) (rest : List BlockId) (start : Finset BlockId)
    (x : BlockId) :
    x ∈ rest.foldl (fun next pred => next.filter (· ∈ sets.of pred)) start ↔
      x ∈ start ∧ ∀ p ∈ rest, x ∈ sets.of p := by
  induction rest generalizing start with
  | nil => simp
  | cons p rest ih =>
    rw [foldl_cons, ih, Finset.mem_filter]
    simp only [mem_cons, forall_eq_or_imp]
    tauto

variable {sets : BlockSets} {b : BlockId} {preds : List (List BlockId)}

theorem mem_nextDominators {x : BlockId} :
    x ∈ nextDominators preds sets b ↔
      x = b ∨ preds.getD b [] ≠ [] ∧ ∀ p ∈ preds.getD b [], x ∈ sets.of p := by
  unfold nextDominators
  rw [Finset.mem_insert]
  refine or_congr_right ?_
  cases hp : preds.getD b [] with
  | nil => simp
  | cons first rest =>
    simp only [mem_foldl_filter, mem_cons, forall_eq_or_imp]
    simp

theorem nextDominators_mono {sets' : BlockSets}
    (h : ∀ c, sets'.of c ⊆ sets.of c) : nextDominators preds sets' b ⊆ nextDominators preds sets b := by
  intro x hx
  rw [mem_nextDominators] at hx ⊢
  exact hx.imp id fun ⟨hne, hall⟩ => ⟨hne, fun p hp => h p (hall p hp)⟩

theorem getD_set {α : Type*} (table : List α) (i j : Nat) (x d : α) :
    (table.set i x).getD j d = if i = j ∧ j < table.length then x else table.getD j d := by
  by_cases hij : i = j
  · subst hij
    by_cases hi : i < table.length <;> simp [hi]
  · simp [hij]

/-- what a new set adds to the size of a table -/
theorem sum_card_set {α : Type*} {table : List (Finset α)} {i : Nat} (hi : i < table.length) (s : Finset α) :
    ((table.set i s).map Finset.card).sum + (table.getD i ∅).card = (table.map Finset.card).sum + s.card := by
  induction table generalizing i with
  | nil => exact absurd hi (Nat.not_lt_zero _)
  | cons head tail ih =>
    cases i with
    | zero =>
      simp only [set_cons_zero, map_cons, sum_cons, getD_cons_zero]
      omega
    | succ i =>
      have hrest := ih (Nat.lt_of_succ_lt_succ hi)
      simp only [set_cons_succ, map_cons, sum_cons, getD_cons_succ] at hrest ⊢
      omega

theorem BlockSets.of_set (sets : BlockSets) (b c : BlockId) (s : Finset BlockId) :
    BlockSets.of (sets.set b s) c = if b = c ∧ c < sets.length then s else sets.of c := getD_set sets b c s ∅

def BlockSets.card (sets : BlockSets) : Nat := (sets.map Finset.card).sum

theorem BlockSets.card_set_lt {s : Finset BlockId}
    (hb : b < sets.length) (h : s ⊂ sets.of b) : BlockSets.card (sets.set b s) < sets.card := by
  have hsum : BlockSets.card (sets.set b s) + (sets.of b).card = sets.card + s.card := sum_card_set hb s
  have hlt := Finset.card_lt_card h
  omega

/-- no block that the entry does not reach has an edge to one that it reaches -/
def Function.ReachablePreds (f : Function) : Prop :=
  ∀ {p c}, f.Edge p c → Reachable f.Edge f.entry c → Reachable f.Edge f.entry p

/-- What every state of the loop satisfies: a set only ever shrinks, and it keeps the dominators of a
reachable block as long as all predecessors of reachable blocks are reachable. -/
structure DominatorsInv (f : Function) (sets : BlockSets) : Prop where
  length : sets.length = f.blocks.length
  entry : sets.of f.entry = {f.entry}
  shrinks : ∀ b < f.blocks.length, b ≠ f.entry →
    nextDominators (predecessors f) sets b ⊆ sets.of b
  keeps : f.ReachablePreds → ∀ {b d}, b < f.blocks.length → d < f.blocks.length →
    Reachable f.Edge f.entry b → Dominates f.Edge f.entry d b → d ∈ sets.of b

section Loop

variable {f : Function} {sets : BlockSets}

theorem Function.Edge.lt {p c : BlockId} (h : f.Edge p c) : p < f.blocks.length := by
  obtain ⟨block, hb, -⟩ := h
  exact (List.getElem?_eq_some_iff.mp hb).1

variable {b d : BlockId}

/-- a kept dominator passes on to the new candidate set of a block -/
theorem DominatorsInv.mem_next (hf : f.Indexed) (h : DominatorsInv f sets) (hR : f.ReachablePreds)
    (hb : b < f.blocks.length) (hbe : b ≠ f.entry) (hd : d < f.blocks.length)
    (hr : Reachable f.Edge f.entry b) (hdom : Dominates f.Edge f.entry d b) :
    d ∈ nextDominators (predecessors f) sets b := by
  rw [mem_nextDominators]
  refine or_iff_not_imp_left.mpr fun hne => ⟨?_, fun p hp => ?_⟩
  · obtain ⟨l, hl⟩ := hr
    cases hl with
    | refl => exact absurd rfl hbe
    | snoc _ hE => exact ne_nil_of_mem ((mem_predecessors hf).mpr ⟨hb, hE⟩)
  · have hE := ((mem_predecessors hf).mp hp).2
    exact h.keeps hR hE.lt hd (hR hE hr) ((hdom.pred hE).resolve_left hne)

theorem DominatorsInv.set (hf : f.Indexed) (h : DominatorsInv f sets) (hb : b < f.blocks.length) (hbe : b ≠ f.entry) :
    DominatorsInv f (sets.set b (nextDominators (predecessors f) sets b)) := by
  have hsub : ∀ c, BlockSets.of (sets.set b (nextDominators (predecessors f) sets b)) c ⊆ sets.of c := by
    intro c
    rw [BlockSets.of_set]
    split_ifs with hc
    · rw [← hc.1]
      exact h.shrinks b hb hbe
    · exact Finset.Subset.refl _
  refine ⟨by rw [length_set, h.length], ?_, fun c hc hce => ?_, fun hR c d hc hd hr hdom => ?_⟩
  · rw [BlockSets.of_set, if_neg fun hc => hbe hc.1, h.entry]
  · refine (nextDominators_mono hsub).trans ?_
    rw [BlockSets.of_set]
    split_ifs with hbc
    · rw [hbc.1]
    · exact h.shrinks c hc hce
  · rw [BlockSets.of_set]
    split_ifs with hbc
    · obtain ⟨rfl, -⟩ := hbc
      exact h.mem_next hf hR hb hbe hd hr hdom
    · exact h.keeps hR hc hd hr hdom

variable {block : BasicBlock}

section

variable (hf : f.Indexed)

include hf

/-- a visit keeps the state, or removes a candidate and reports it -/
theorem dominatorsVisit_cases (h : DominatorsInv f sets) (changed : Bool)
    (hb : block.id < f.blocks.length) :
    (dominatorsVisit f (predecessors f) (sets, changed) block = (sets, changed) ∧
      (block.id = f.entry ∨ nextDominators (predecessors f) sets block.id = sets.of block.id)) ∨
    ∃ sets', dominatorsVisit f (predecessors f) (sets, changed) block = (sets', true) ∧
      DominatorsInv f sets' ∧ sets'.card < sets.card := by
  simp only [dominatorsVisit]
  split_ifs with hentry hsame
  · exact .inl ⟨rfl, .inl hentry⟩
  · exact .inl ⟨rfl, .inr hsame⟩
  · refine .inr ⟨_, rfl, h.set hf hb hentry, BlockSets.card_set_lt (h.length ▸ hb) ?_⟩
    exact Finset.ssubset_iff_subset_ne.mpr ⟨h.shrinks _ hb hentry, hsame⟩

theorem Function.Indexed.id_lt (h : block ∈ f.blocks) :
    block.id < f.blocks.length := by
  obtain ⟨i, hi⟩ := mem_iff_getElem?.mp h
  rw [hf.block hi]
  exact (List.getElem?_eq_some_iff.mp hi).1

theorem dominatorsVisit_fold (blocks : List BasicBlock)
    (hblocks : ∀ block ∈ blocks, block.id < f.blocks.length) (changed : Bool)
    (h : DominatorsInv f sets) {sets' : BlockSets} {changed' : Bool}
    (hfold : blocks.foldl (dominatorsVisit f (predecessors f)) (sets, changed) = (sets', changed')) :
    DominatorsInv f sets' ∧ sets'.card ≤ sets.card ∧
      (changed' = true → changed = true ∨ sets'.card < sets.card) ∧
      (changed' = false → changed = false ∧ sets' = sets ∧ ∀ block ∈ blocks,
        block.id = f.entry ∨ nextDominators (predecessors f) sets block.id = sets.of block.id) := by
  induction blocks generalizing sets changed with
  | nil =>
    obtain ⟨rfl, rfl⟩ := Prod.mk.inj hfold
    exact ⟨h, le_rfl, .inl, fun hc => ⟨hc, rfl, fun _ hb => absurd hb not_mem_nil⟩⟩
  | cons block blocks ih =>
    have hrest : ∀ b ∈ blocks, b.id < f.blocks.length :=
      fun b hb => hblocks b (mem_cons_of_mem _ hb)
    rw [foldl_cons] at hfold
    rcases dominatorsVisit_cases hf h changed (hblocks block mem_cons_self) with
      ⟨hvisit, hstable⟩ | ⟨sets₁, hvisit, h₁, hlt⟩
    · rw [hvisit] at hfold
      obtain ⟨hI, hle, htrue, hfalse⟩ := ih hrest changed h hfold
      refine ⟨hI, hle, htrue, fun hc => ?_⟩
      obtain ⟨hch, heq, hall⟩ := hfalse hc
      exact ⟨hch, heq, forall_mem_cons.mpr ⟨hstable, hall⟩⟩
    · rw [hvisit] at hfold
      obtain ⟨hI, hle, -, hfalse⟩ := ih hrest true h₁ hfold
      refine ⟨hI, hle.trans hlt.le, fun _ => .inr (hle.trans_lt hlt), fun hc => ?_⟩
      exact absurd (hfalse hc).1 (by simp)

theorem dominatorsInit_of (b : BlockId) :
    (dominatorsInit f).of b =
      if b = f.entry then {f.entry}
      else if b < f.blocks.length then (f.blocks.map BasicBlock.id).toFinset else ∅ := by
  rw [dominatorsInit, BlockSets.of_set]
  simp only [BlockSets.of, length_replicate, getD_eq_getElem?_getD,
    getElem?_replicate]
  by_cases hb : b = f.entry
  · subst hb
    simp [hf.entry]
  · have hb' : f.entry ≠ b := fun h => hb h.symm
    by_cases hlt : b < f.blocks.length <;> simp [hb, hb', hlt]

theorem mem_blockIds :
    b ∈ (f.blocks.map BasicBlock.id).toFinset ↔ b < f.blocks.length := by
  rw [mem_toFinset, mem_map]
  constructor
  · rintro ⟨block, hmem, rfl⟩
    exact hf.id_lt hmem
  · intro hb
    exact ⟨f.blocks[b], getElem_mem hb, hf.block (getElem?_eq_getElem hb)⟩

theorem dominatorsInit_inv : DominatorsInv f (dominatorsInit f) := by
  refine ⟨by simp [dominatorsInit], by rw [dominatorsInit_of hf, if_pos rfl], ?_, ?_⟩
  · intro b hb hbe x hx
    rw [dominatorsInit_of hf, if_neg hbe, if_pos hb, mem_blockIds hf]
    rw [mem_nextDominators] at hx
    rcases hx with rfl | ⟨hne, hall⟩
    · exact hb
    · obtain ⟨p, hp⟩ := exists_mem_of_ne_nil _ hne
      have hx := hall p hp
      rw [dominatorsInit_of hf] at hx
      split_ifs at hx with hpe hpl
      · rw [Finset.mem_singleton.mp hx]
        exact hf.entry
      · exact (mem_blockIds hf).mp hx
      · exact absurd hx (Finset.notMem_empty x)
  · intro _ b d hb hd _ hdom
    rw [dominatorsInit_of hf]
    split_ifs with hbe
    · subst hbe
      exact Finset.mem_singleton.mpr hdom.eq_entry
    · exact (mem_blockIds hf).mpr hd

theorem card_dominatorsInit :
    (dominatorsInit f).card ≤ f.blocks.length * f.blocks.length := by
  have hlen : (dominatorsInit f).length = f.blocks.length := by simp [dominatorsInit]
  have hcard : ∀ n ∈ (dominatorsInit f).map Finset.card, n ≤ f.blocks.length := by
    intro n hn
    obtain ⟨s, hs, rfl⟩ := mem_map.mp hn
    obtain ⟨b, hb⟩ := mem_iff_getElem?.mp hs
    have hof : (dominatorsInit f).of b = s := by simp [BlockSets.of, getD_eq_getElem?_getD, hb]
    rw [← hof, dominatorsInit_of hf]
    split_ifs
    · exact Nat.lt_of_le_of_lt (Nat.zero_le _) hf.entry
    · exact (toFinset_card_le _).trans (by simp)
    · simp
  have hsum := sum_le_card_nsmul _ _ hcard
  simpa [BlockSets.card, hlen] using hsum

/-- The loop ends: its result is unchanged by a further round. -/
theorem dominators_stable :
    DominatorsInv f (dominators f) ∧ ∀ b < f.blocks.length, b ≠ f.entry →
      nextDominators (predecessors f) (dominators f) b = (dominators f).of b := by
  have hids : ∀ block ∈ f.blocks, block.id < f.blocks.length := fun _ h => hf.id_lt h
  obtain ⟨sets, hinv, hstable, hres⟩ :=
    untilStable_spec (dominatorsRound f (predecessors f)) (DominatorsInv f) BlockSets.card
      (fun sets h => (dominatorsVisit_fold hf f.blocks hids false h rfl).1)
      (fun sets h hc => by
        have hlt := (dominatorsVisit_fold hf f.blocks hids false h rfl).2.2.1 hc
        exact hlt.resolve_left (by simp))
      (dominatorsInit_inv hf) (Nat.lt_succ_of_le (card_dominatorsInit hf))
  have hfold := (dominatorsVisit_fold hf f.blocks hids false hinv rfl).2.2.2 hstable
  have heq : dominators f = sets := hres.trans hfold.2.1
  rw [heq]
  refine ⟨hinv, fun b hb hbe => ?_⟩
  have hid : f.blocks[b].id = b := hf.block (getElem?_eq_getElem hb)
  have := hfold.2.2 f.blocks[b] (getElem_mem hb)
  rw [hid] at this
  exact this.resolve_left hbe

theorem dominators_closedTable :
    ClosedTable f.Edge f.entry fun b => ((dominators f).of b : Set BlockId) := by
  obtain ⟨hinv, hstable⟩ := dominators_stable hf
  refine ⟨fun x hx => ?_, fun {b c} hE hce x hx => ?_⟩
  · rw [hinv.entry] at hx
    exact Finset.mem_singleton.mp hx
  · by_cases hc : c < f.blocks.length
    · rw [Finset.mem_coe, ← hstable c hc hce, mem_nextDominators] at hx
      exact hx.imp id fun ⟨_, hall⟩ => hall b ((mem_predecessors hf).mpr ⟨hc, hE⟩)
    · have hnone : (dominators f)[c]? = none :=
        getElem?_eq_none (by rw [hinv.length]; exact Nat.le_of_not_lt hc)
      simp [BlockSets.of, getD_eq_getElem?_getD, hnone] at hx

/-- The computed sets name only blocks that every path from the entry passes. -/
theorem dominates_of_mem_dominators (h : d ∈ (dominators f).of b) : Dominates f.Edge f.entry d b :=
  (dominators_closedTable hf).dominates h

/-- They name all of them for a reachable block, unless an unreachable block has an edge to a
reachable one: such a block starts with itself as its only candidate. -/
theorem mem_dominators_of_dominates (hR : f.ReachablePreds)
    (hb : b < f.blocks.length) (hd : d < f.blocks.length) (hr : Reachable f.Edge f.entry b)
    (hdom : Dominates f.Edge f.entry d b) : d ∈ (dominators f).of b :=
  (dominators_stable hf).1.keeps hR hb hd hr hdom

end

end Loop

end Subscript.Lir
