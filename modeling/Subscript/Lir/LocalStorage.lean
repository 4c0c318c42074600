import Subscript.Lir.SuspendBoundary
import Subscript.Flow.Worklist
import Mathlib.Algebra.Order.BigOperators.Group.Finset

/-! Storage of locals across suspensions (`classify_local_storage`). A local stays in the activation
when no resumed path reads it before storing to it; the search that decides this stops at a block
that stores to the local, and so does not follow the handler edges that leave before the store. -/

namespace Subscript.Lir

open List Flow

/-- the local that an instruction loads or takes the address of -/
def InstructionKind.localRead? : InstructionKind → Option LocalId
  | loadLocal id | addressOfLocal id => some id
  | _ => none

def InstructionKind.localStore? : InstructionKind → Option LocalId
  | storeLocal id => some id
  | _ => none

/-- which comes first in a block: a read of the local (`some true`), a store (`some false`) or neither -/
def scanLocal (l : LocalId) : List Instruction → Option Bool
  | [] => none
  | i :: rest =>
    if i.kind.localRead? = some l then some true
    else if i.kind.localStore? = some l then some false
    else scanLocal l rest

/-- whether the search ends at block `b`, and which blocks it goes on to -/
def visitLocal (f : Function) (l : LocalId) (b : BlockId) : Bool × List BlockId :=
  match f.blocks[b]? with
  | none => (false, [])
  | some block =>
    match scanLocal l block.instructions with
    | some true => (true, [])
    | some false => (false, [])
    | none => (false, block.successors)

def searchFuel (f : Function) : Nat := (f.blocks.map (·.successors.length)).sum + 2

def localReadBeforeRedefinition (f : Function) (start : BlockId) (l : LocalId) : Bool :=
  search (visitLocal f l) (searchFuel f) [start] ∅

def storeBlocks (f : Function) (l : LocalId) : List BlockId :=
  (f.blocks.filter fun block => block.instructions.any (·.kind.localStore? = some l)).map
    BasicBlock.id

def localRequiresFrame (f : Function) (l : LocalId) : Bool :=
  l < f.locals.length &&
  f.blocks.any fun suspend =>
    match suspend.terminator.resume? with
    | none => false
    | some successor =>
      ((storeBlocks f l).any fun definition =>
        definition = suspend.id || definition ∈ (dominators f).of suspend.id) &&
      localReadBeforeRedefinition f successor l

def classifyLocalStorage (f : Function) : Function :=
  { f with
    locals := f.locals.map fun l =>
      { l with storage := if localRequiresFrame f l.id then .frame else .activation } }

def Function.localReadAt (f : Function) (p : Point) : Option LocalId :=
  (f.instructionAt p).bind (·.kind.localRead?)

/-- the local to which the event completes a store -/
def Function.storedLocal? (f : Function) : Event → Option LocalId
  | .done b k => (f.instructionAt ⟨b, k⟩).bind (·.kind.localStore?)
  | _ => none

def Function.stores (f : Function) (l : LocalId) (e : Event) : Prop := f.storedLocal? e = some l

instance (f : Function) (l : LocalId) (e : Event) : Decidable (f.stores l e) :=
  inferInstanceAs (Decidable (f.storedLocal? e = some l))

/-- one store lies on every path to each read of a local -/
def LocalReadsDominated (f : Function) : Prop :=
  ∀ q l, f.localReadAt q = some l →
    ∃ d j, f.stores l (.done d j) ∧ ∀ τ, Run f τ q → Event.done d j ∈ τ

/-- no read of a local in activation storage is reached after a suspension without a store between -/
def ActivationReadsStored (f : Function) : Prop :=
  ∀ τ q l, Run f τ q → Event.suspend ∈ τ → f.localReadAt q = some l →
    (∃ d ∈ (classifyLocalStorage f).locals, d.id = l ∧ d.storage = .activation) →
    ∃ e ∈ sinceSuspend τ, f.stores l e

/-- an edge out of a block that neither reads the local nor stores to it -/
def PassesLocal (f : Function) (l : LocalId) (a b : BlockId) : Prop :=
  ∃ block, f.blocks[a]? = some block ∧
    (∀ i ∈ block.instructions, i.kind.localRead? ≠ some l ∧ i.kind.localStore? ≠ some l) ∧ b ∈ block.successors

/-- the block reads the local, with no store to it in front of the read -/
def ReadsFirst (f : Function) (l : LocalId) (b : BlockId) : Prop :=
  ∃ (block : BasicBlock) (k : Nat) (i : Instruction), f.blocks[b]? = some block ∧ block.instructions[k]? = some i ∧
    i.kind.localRead? = some l ∧ ∀ i' ∈ block.instructions.take k, i'.kind.localStore? ≠ some l

/-- some suspension that a store to the local dominates leads, through blocks without the local, to a block that reads it
first -/
def ReadAcrossSuspension (f : Function) (l : LocalId) : Prop :=
  ∃ suspend ∈ f.blocks, ∃ c, suspend.terminator.resume? = some c ∧
    (∃ d ∈ storeBlocks f l, d = suspend.id ∨ d ∈ (dominators f).of suspend.id) ∧
    ∃ b, Relation.ReflTransGen (PassesLocal f l) c b ∧ ReadsFirst f l b

/-- On a resumed path, a handler edge that leaves a block before its store to a local does not lead on
to a read of the local without a store, unless some suspension keeps the local anyway. -/
def NoReadPastSkippedStore (f : Function) : Prop :=
  ∀ c l σ b site i h j τ q, l < f.locals.length → ResumedWalk f c σ ⟨b, site⟩ → (∀ e ∈ σ, ¬ f.stores l e) →
    f.instructionAt ⟨b, site⟩ = some i → i.handler = some h → site ≤ j → f.stores l (.done b j) →
    Walk f ⟨h, 0⟩ τ q → Event.suspend ∉ τ → f.localReadAt q = some l →
    (∃ e ∈ τ, f.stores l e) ∨ ReadAcrossSuspension f l

variable {f : Function} {p q : Point} {τ σ : List Event} {b c d h : BlockId} {j k : Nat} {l : LocalId}
  {block : BasicBlock}

theorem scanLocal_none {is : List Instruction} :
    scanLocal l is = none ↔ ∀ i ∈ is, i.kind.localRead? ≠ some l ∧ i.kind.localStore? ≠ some l := by
  induction is with
  | nil => exact iff_of_true rfl fun i hi => absurd hi not_mem_nil
  | cons i is ih =>
    unfold scanLocal
    split_ifs with hr hst
    · exact iff_of_false (by simp) fun h => (h i mem_cons_self).1 hr
    · exact iff_of_false (by simp) fun h => (h i mem_cons_self).2 hst
    · rw [ih, forall_mem_cons]
      exact (and_iff_right ⟨hr, hst⟩).symm

theorem scanLocal_true {is : List Instruction} :
    scanLocal l is = some true ↔ ∃ (k : Nat) (i : Instruction), is[k]? = some i ∧ i.kind.localRead? = some l ∧
      ∀ i' ∈ is.take k, i'.kind.localStore? ≠ some l := by
  induction is with
  | nil => simp [scanLocal]
  | cons i is ih =>
    unfold scanLocal
    split_ifs with hr hst
    · exact iff_of_true rfl ⟨0, i, rfl, hr, by simp⟩
    · refine iff_of_false (by simp) ?_
      rintro ⟨k, i', hk, hread, hfront⟩
      cases k with
      | zero =>
        obtain rfl : i = i' := by simpa using hk
        exact hr hread
      | succ k => exact hfront i (by simp) hst
    · rw [ih]
      constructor
      · rintro ⟨k, i', hk, hread, hfront⟩
        exact ⟨k + 1, i', hk, hread, forall_mem_cons.mpr ⟨hst, hfront⟩⟩
      · rintro ⟨k, i', hk, hread, hfront⟩
        cases k with
        | zero =>
          obtain rfl : i = i' := by simpa using hk
          exact absurd hread hr
        | succ k => exact ⟨k, i', hk, hread, (forall_mem_cons.mp hfront).2⟩

/-- a store comes first: there is no read before it -/
theorem scanLocal_false {is : List Instruction} (hs : scanLocal l is = some false) :
    ∃ (j : Nat) (i : Instruction), is[j]? = some i ∧ i.kind.localStore? = some l ∧
      ∀ (k : Nat) (i : Instruction), k ≤ j → is[k]? = some i → i.kind.localRead? ≠ some l := by
  induction is with
  | nil => exact absurd hs (by simp [scanLocal])
  | cons i is ih =>
    unfold scanLocal at hs
    split_ifs at hs with hr hst
    · exact absurd hs (by simp)
    · refine ⟨0, i, rfl, hst, fun k i' hk hi' => ?_⟩
      obtain rfl := Nat.le_zero.mp hk
      obtain rfl : i = i' := by simpa using hi'
      exact hr
    · obtain ⟨j, i', hj, hst', hall⟩ := ih hs
      refine ⟨j + 1, i', hj, hst', fun k i'' hk hi'' => ?_⟩
      cases k with
      | zero =>
        obtain rfl : i = i'' := by simpa using hi''
        exact hr
      | succ k => exact hall k i'' (Nat.le_of_succ_le_succ hk) hi''

theorem stores_done : f.stores l (.done b j) ↔
    ∃ block i, f.blocks[b]? = some block ∧ block.instructions[j]? = some i ∧
      i.kind.localStore? = some l := by
  simp only [Function.stores, Function.storedLocal?, Option.bind_eq_some_iff, instructionAt_eq_some]
  constructor
  · rintro ⟨i, ⟨block, hb, hi⟩, hs⟩
    exact ⟨block, i, hb, hi, hs⟩
  · rintro ⟨block, i, hb, hi, hs⟩
    exact ⟨i, ⟨block, hb, hi⟩, hs⟩

theorem localReadAt_eq_some : f.localReadAt q = some l ↔
    ∃ block i, f.blocks[q.block]? = some block ∧ block.instructions[q.index]? = some i ∧
      i.kind.localRead? = some l := by
  simp only [Function.localReadAt, Option.bind_eq_some_iff, instructionAt_eq_some]
  constructor
  · rintro ⟨i, ⟨block, hb, hi⟩, hs⟩
    exact ⟨block, i, hb, hi, hs⟩
  · rintro ⟨block, i, hb, hi, hs⟩
    exact ⟨i, ⟨block, hb, hi⟩, hs⟩

theorem sum_range_getD (l : List Nat) : ∑ b ∈ Finset.range l.length, l.getD b 0 = l.sum := by
  induction l with
  | nil => rfl
  | cons a l ih =>
    rw [length_cons, Finset.sum_range_succ', sum_cons]
    simpa [add_comm] using ih

/-- with enough fuel, the search decides whether the blocks it goes on to include one that reads -/
theorem localReadBeforeRedefinition_iff :
    localReadBeforeRedefinition f c l = true ↔
      ∃ b, Relation.ReflTransGen (Follows (visitLocal f l)) c b ∧ (visitLocal f l b).1 = true := by
  refine search_iff (U := Finset.range f.blocks.length) (fun b hb => ?_) ?_
  · rw [Finset.mem_range, not_lt] at hb
    simp [visitLocal, getElem?_eq_none hb]
  · have hle : ∀ b ∈ Finset.range f.blocks.length,
        (visitLocal f l b).2.length ≤ (f.blocks.map (·.successors.length)).getD b 0 := by
      intro b hb
      rw [Finset.mem_range] at hb
      simp only [visitLocal, getElem?_eq_getElem hb]
      split <;> simp [getD_eq_getElem?_getD, hb]
    have hsum := Finset.sum_le_sum hle
    have htotal := sum_range_getD (f.blocks.map (·.successors.length))
    rw [length_map] at htotal
    simp only [searchWork, Finset.sdiff_empty, length_singleton, searchFuel]
    omega

theorem visitLocal_reads : (visitLocal f l b).1 = true ↔ ReadsFirst f l b := by
  unfold visitLocal ReadsFirst
  cases hb : f.blocks[b]? with
  | none => simp
  | some block =>
    cases hs : scanLocal l block.instructions with
    | none =>
      refine iff_of_false (by simp [hs]) ?_
      rintro ⟨_, k, i, ⟨⟩, hi, hread, -⟩
      exact (scanLocal_none.mp hs i (mem_of_getElem? hi)).1 hread
    | some first =>
      have hfirst : scanLocal l block.instructions = some true ↔ _ := scanLocal_true
      rw [hs] at hfirst
      cases first with
      | true =>
        obtain ⟨k, i, hi⟩ := hfirst.mp rfl
        exact iff_of_true (by simp [hs]) ⟨block, k, i, rfl, hi⟩
      | false =>
        refine iff_of_false (by simp [hs]) ?_
        rintro ⟨_, k, i, ⟨⟩, hi⟩
        exact absurd (hfirst.mpr ⟨k, i, hi⟩) (by simp)

theorem follows_visitLocal (a b : BlockId) : Follows (visitLocal f l) a b ↔ PassesLocal f l a b := by
  unfold Follows visitLocal PassesLocal
  cases ha : f.blocks[a]? with
  | none => simp
  | some block =>
    cases hs : scanLocal l block.instructions with
    | none => simpa [hs] using fun _ => scanLocal_none.mp hs
    | some first =>
      have htouched : ¬ ∀ i ∈ block.instructions, i.kind.localRead? ≠ some l ∧ i.kind.localStore? ≠ some l := by
        rw [← scanLocal_none, hs]
        simp
      cases first <;> simpa [hs] using fun h => absurd h htouched

/-- what the pass decides -/
theorem localRequiresFrame_iff : localRequiresFrame f l = true ↔ l < f.locals.length ∧ ReadAcrossSuspension f l := by
  have hfollows : Follows (visitLocal f l) = PassesLocal f l := by
    funext a b
    exact propext (follows_visitLocal a b)
  simp only [localRequiresFrame, Bool.and_eq_true, decide_eq_true_eq]
  refine and_congr_right fun _ => any_eq_true.trans ⟨?_, ?_⟩
  · rintro ⟨suspend, hmem, hsuspend⟩
    cases hc : suspend.terminator.resume? with
    | none => simp [hc] at hsuspend
    | some c =>
      simp only [hc, Bool.and_eq_true, localReadBeforeRedefinition_iff, hfollows, visitLocal_reads] at hsuspend
      exact ⟨suspend, hmem, c, hc, by simpa using hsuspend.1, hsuspend.2⟩
  · rintro ⟨suspend, hmem, c, hc, hstore, hread⟩
    refine ⟨suspend, hmem, ?_⟩
    simp only [hc, Bool.and_eq_true, localReadBeforeRedefinition_iff, hfollows, visitLocal_reads]
    exact ⟨by simpa using hstore, hread⟩

/-- a store on every run to a suspension lies in a dominator of its block -/
theorem dominates_of_stores {r : Point} (hr : (f.terminatorAt r).isSome)
    (hall : ∀ ρ, Run f ρ r → Event.done d j ∈ ρ) : Dominates f.Edge f.entry d r.block := by
  intro l hl
  obtain ⟨t, ht⟩ := Option.isSome_iff_exists.mp hr
  obtain ⟨block, hb, hlen, -⟩ := terminatorAt_eq_some.mp ht
  obtain ⟨τ, hrun, he⟩ := Run.of_path hl
  obtain ⟨σ, hw, he'⟩ := Walk.to_index hb le_rfl
  have hend : Run f (σ ++ τ) r := by
    have := hrun.trans hw
    rwa [hlen] at this
  have henter := Walk.mem_entered.mpr (hend.enter_of_done (hall _ hend))
  have hentered : Walk.entered (σ ++ τ) = l ++ [f.entry] := by
    simp only [Walk.entered, filterMap_append] at he he' ⊢
    rw [he, he', nil_append]
  rw [hentered, mem_append, mem_singleton] at henter
  exact henter.symm

theorem mem_storeBlocks (hf : f.Indexed) (h : f.stores l (.done d j)) : d ∈ storeBlocks f l := by
  obtain ⟨block, i, hb, hi, hs⟩ := stores_done.mp h
  refine mem_map.mpr ⟨block, mem_filter.mpr ⟨mem_of_getElem? hb, ?_⟩, hf.block hb⟩
  exact any_eq_true.mpr ⟨i, mem_of_getElem? hi, by simpa using hs⟩

/-- the search from the resume block of a suspension fails for a local kept in the activation -/
theorem search_false_of_activation (hf : f.Indexed) (hlocal : l < f.locals.length)
    (hframe : localRequiresFrame f l = false) {r : Point} {t : Terminator}
    (ht : f.terminatorAt r = some t) (hc : t.resume? = some c) (hstore : f.stores l (.done d j))
    (hdom : d ∈ (dominators f).of r.block) : localReadBeforeRedefinition f c l = false := by
  obtain ⟨block, hb, -, rfl⟩ := terminatorAt_eq_some.mp ht
  by_contra hread
  rw [Bool.not_eq_false] at hread
  have hany : localRequiresFrame f l = true := by
    simp only [localRequiresFrame, Bool.and_eq_true, decide_eq_true_eq]
    refine ⟨hlocal, any_eq_true.mpr ⟨block, mem_of_getElem? hb, ?_⟩⟩
    simp only [hc, hread, Bool.and_true]
    refine any_eq_true.mpr ⟨d, mem_storeBlocks hf hstore, ?_⟩
    rw [hf.block hb]
    simp [hdom]
  rw [hframe] at hany
  exact absurd hany (by simp)

/-- what a visit of the search that found no read says about the block -/
theorem visitLocal_cases (hb : f.blocks[b]? = some block) (hv : (visitLocal f l b).1 = false) :
    (scanLocal l block.instructions = none ∧ (visitLocal f l b).2 = block.successors) ∨
      scanLocal l block.instructions = some false := by
  unfold visitLocal at hv ⊢
  rw [hb] at hv ⊢
  cases hs : scanLocal l block.instructions with
  | none => exact .inl ⟨rfl, by simp only [hs]⟩
  | some first =>
    cases first with
    | true => simp [hs] at hv
    | false => exact .inr rfl

/-- A walk without a store stays in blocks that the failed search visited, or has left one of them by
a handler edge before a store. -/
theorem Walk.search_or_skipped (hno : localReadBeforeRedefinition f c l = false)
    (hw : Walk f ⟨c, 0⟩ σ q) (hnot : ∀ e ∈ σ, ¬ f.stores l e) :
    Relation.ReflTransGen (Follows (visitLocal f l)) c q.block ∨
    ∃ b site i h j σ₁ σ₂, Walk f ⟨c, 0⟩ σ₁ ⟨b, site⟩ ∧ f.instructionAt ⟨b, site⟩ = some i ∧
      i.handler = some h ∧ site ≤ j ∧ f.stores l (.done b j) ∧ Walk f ⟨h, 0⟩ σ₂ q ∧
      σ = σ₂ ++ Event.enter h :: σ₁ := by
  induction hw with
  | refl => exact .inl .refl
  | @step σ ε q r hw hs ih =>
    have hnotσ : ∀ e ∈ σ, ¬ f.stores l e := fun e he => hnot e (mem_append_right _ he)
    rcases ih hnotσ with hreach | ⟨b, site, i, h, j, σ₁, σ₂, h₁, hi, hh, hle, hst, h₂, rfl⟩
    · have hmiss : (visitLocal f l q.block).1 = false := by
        by_contra hhit
        rw [Bool.not_eq_false] at hhit
        rw [localReadBeforeRedefinition_iff.mpr ⟨_, hreach, hhit⟩] at hno
        exact absurd hno (by simp)
      -- the current visit has completed no store
      have hahead : ∀ j, f.stores l (.done q.block j) → q.index ≤ j := fun j hj =>
        Nat.le_of_not_lt fun hlt => hnotσ _ (hw.done_of_lt hlt) hj
      rcases hs.cases_events with ⟨rfl, rfl, -⟩ | ⟨c', rfl, hE, -⟩
      · exact .inl hreach
      · obtain ⟨block, hb, hsucc⟩ := hE
        rcases visitLocal_cases hb hmiss with ⟨-, hnext⟩ | hfalse
        · exact .inl (hreach.tail ⟨hmiss, hnext ▸ hsucc⟩)
        · obtain ⟨j, i', hj, hst, -⟩ := scanLocal_false hfalse
          have hstj : f.stores l (.done q.block j) := stores_done.mpr ⟨block, i', hb, hj, hst⟩
          have hat : f.instructionAt ⟨q.block, j⟩ = some i' := instructionAt_eq_some.mpr ⟨block, hb, hj⟩
          cases hs with
          | @raise i h hi hh =>
            exact .inr ⟨q.block, q.index, i, c', j, σ, [], hw, hi, hh, hahead j hstj, hstj, .refl, rfl⟩
          | jump ht _ _ =>
            rw [instructionAt_none_of_terminatorAt ht (hahead j hstj)] at hat
            exact absurd hat (by simp)
          | suspend ht _ =>
            rw [instructionAt_none_of_terminatorAt ht (hahead j hstj)] at hat
            exact absurd hat (by simp)
    · exact .inr ⟨b, site, i, h, j, σ₁, ε ++ σ₂, h₁, hi, hh, hle, hst, h₂.step hs, by simp⟩

/-- the declaration of a local that keeps activation storage -/
theorem activation_of_classify (hf : f.Indexed)
    (h : ∃ d ∈ (classifyLocalStorage f).locals, d.id = l ∧ d.storage = .activation) :
    l < f.locals.length ∧ localRequiresFrame f l = false := by
  obtain ⟨d, hd, rfl, hact⟩ := h
  obtain ⟨d', hd', rfl⟩ := mem_map.mp hd
  obtain ⟨k, hk⟩ := mem_iff_getElem?.mp hd'
  refine ⟨?_, ?_⟩
  · rw [show d'.id = k from hf.localId hk]
    exact (List.getElem?_eq_some_iff.mp hk).1
  · by_contra hframe
    simp [hframe] at hact

theorem activationReadsStored_of_noReadPastSkippedStore (hf : f.Indexed)
    (hdom : LocalReadsDominated f) (hpreds : f.ReachablePreds) (hskip : NoReadPastSkippedStore f) :
    ActivationReadsStored f := by
  intro τ q l hrun hsus hread hact
  obtain ⟨hlocal, hframe⟩ := activation_of_classify hf hact
  obtain ⟨c, σ, hw, hsince⟩ := hrun.last_suspend hsus
  rw [hsince]
  by_contra hnone
  have hnot : ∀ e ∈ σ, ¬ f.stores l e := fun e he hst => hnone ⟨e, mem_append_left _ he, hst⟩
  obtain ⟨d, j, hstore, hall⟩ := hdom q l hread
  obtain ⟨ρ, r, t, hr, ht, hc⟩ := hw.1
  -- the store that dominates the read comes before the suspension, on every run that reaches it
  have hbefore : ∀ ρ, Run f ρ r → Event.done d j ∈ ρ := by
    intro ρ hρ
    have hd := hall _ ((hρ.step (.suspend ht hc)).trans hw.2.1)
    rcases mem_append.mp hd with hd | hd
    · exact absurd hstore (hnot _ hd)
    · simpa using hd
  have hlt : d < f.blocks.length := by
    obtain ⟨block, -, hb, -, -⟩ := stores_done.mp hstore
    exact (List.getElem?_eq_some_iff.mp hb).1
  have hrlt : r.block < f.blocks.length := by
    obtain ⟨block, hb, -, -⟩ := terminatorAt_eq_some.mp ht
    exact (List.getElem?_eq_some_iff.mp hb).1
  have hmem : d ∈ (dominators f).of r.block :=
    mem_dominators_of_dominates hf hpreds hrlt hlt hr.reachable
      (dominates_of_stores (by rw [ht]; rfl) hbefore)
  have hno := search_false_of_activation hf hlocal hframe ht hc hstore hmem
  rcases hw.2.1.search_or_skipped hno hnot with
    hreach | ⟨b, site, i, h, j', σ₁, σ₂, h₁, hi, hh, hle, hst, h₂, rfl⟩
  · obtain ⟨block, i, hb, hi, hri⟩ := localReadAt_eq_some.mp hread
    have hmiss : (visitLocal f l q.block).1 = false := by
      by_contra hhit
      rw [Bool.not_eq_false] at hhit
      rw [localReadBeforeRedefinition_iff.mpr ⟨_, hreach, hhit⟩] at hno
      exact absurd hno (by simp)
    rcases visitLocal_cases hb hmiss with ⟨hscan, -⟩ | hscan
    · exact (scanLocal_none.mp hscan i (mem_of_getElem? hi)).1 hri
    · obtain ⟨n, i', hn, hst, hfirst⟩ := scanLocal_false hscan
      have hlate : n < q.index := Nat.lt_of_not_le fun hle => hfirst q.index i hle hi hri
      exact hnot _ (hw.2.1.done_of_lt hlate) (stores_done.mpr ⟨block, i', hb, hn, hst⟩)
  · have hsus₁ : Event.suspend ∉ σ₁ := fun h => hw.2.2 (by simp [h])
    have hsus₂ : Event.suspend ∉ σ₂ := fun h => hw.2.2 (by simp [h])
    have hnot₁ : ∀ e ∈ σ₁, ¬ f.stores l e := fun e he => hnot e (by simp [he])
    rcases hskip c l σ₁ b site i h j' σ₂ q hlocal ⟨hw.1, h₁, hsus₁⟩ hnot₁ hi hh hle hst h₂ hsus₂ hread with
      ⟨e, he, hse⟩ | hkept
    · exact hnot e (mem_append_left _ he) hse
    · rw [localRequiresFrame_iff.mpr ⟨hlocal, hkept⟩] at hframe
      exact absurd hframe (by simp)

/-- A local that the pass leaves in the activation is stored to behind the handler edge, or the walk is one more way to
read it. -/
theorem noReadPastSkippedStore_of_activationReadsStored (hf : f.Indexed) (hstored : ActivationReadsStored f) :
    NoReadPastSkippedStore f := by
  intro c l σ b site i h j τ q hlocal hw hnot hi hh _ _ hτ hsus hread
  by_contra hnone
  rw [not_or] at hnone
  obtain ⟨hnostore, hkept⟩ := hnone
  have hframe : localRequiresFrame f l = false := by
    rw [Bool.eq_false_iff, Ne, localRequiresFrame_iff]
    exact fun h => hkept h.2
  have hact : ∃ d ∈ (classifyLocalStorage f).locals, d.id = l ∧ d.storage = .activation := by
    have hd := getElem?_eq_getElem hlocal
    have hid : f.locals[l].id = l := hf.localId hd
    refine ⟨_, mem_map.mpr ⟨f.locals[l], getElem_mem hlocal, rfl⟩, hid, ?_⟩
    simp [hid, hframe]
  have hwalk : ResumedWalk f c (τ ++ ([.enter h] ++ σ)) q := by
    refine ⟨hw.1, (hw.2.1.step (.raise hi hh)).trans hτ, ?_⟩
    simp [hsus, hw.2.2]
  obtain ⟨ρ, hrun, hρ, hsince⟩ := hwalk.run
  obtain ⟨e, he, hstores⟩ := hstored ρ q l hrun hρ hread hact
  rw [hsince] at he
  simp only [append_assoc, mem_append, mem_singleton] at he
  rcases he with he | rfl | he | rfl
  · exact hnostore ⟨e, he, hstores⟩
  · simp [Function.stores, Function.storedLocal?] at hstores
  · exact hnot e he hstores
  · simp [Function.stores, Function.storedLocal?] at hstores

/-- As long as no unreachable block leads into reachable ones, locals in activation storage are stored to before each read
after a suspension just when no handler edge skips such a store. -/
theorem activationReadsStored_iff_noReadPastSkippedStore (hf : f.Indexed) (hdom : LocalReadsDominated f)
    (hpreds : f.ReachablePreds) : ActivationReadsStored f ↔ NoReadPastSkippedStore f :=
  ⟨noReadPastSkippedStore_of_activationReadsStored hf, activationReadsStored_of_noReadPastSkippedStore hf hdom hpreds⟩

def storeOne (l : LocalId) : Instruction where
  kind := .storeLocal l
  operands := [one]

/-- The local is stored before the suspension. After the resume the call raises, or the local is
stored again; the handler loads it. -/
def skippedStore : Function where
  id := 0
  sourceName := "skipped"
  isAsync := true
  locals := [{ id := 0, ty := .data .i32 }]
  values := [⟨0, .data .i32, false⟩]
  blocks := [
    { id := 0, instructions := [storeOne 0], terminator := suspendTo 1 },
    { id := 1, instructions := [raisingCall 2, storeOne 0], terminator := .return none },
    { id := 2
      instructions := [{ kind := .catchEntry }, { result := some 0, kind := .loadLocal 0 }]
      terminator := .return none }]

/-- the same function with a load in front of the call, for which the local is kept in the frame -/
def loadedFirst : Function where
  id := 0
  sourceName := "loaded"
  isAsync := true
  locals := [{ id := 0, ty := .data .i32 }]
  values := [⟨0, .data .i32, false⟩, ⟨1, .data .i32, false⟩]
  blocks := [
    { id := 0, instructions := [storeOne 0], terminator := suspendTo 1 },
    { id := 1
      instructions := [{ result := some 1, kind := .loadLocal 0 }, raisingCall 2, storeOne 0]
      terminator := .return none },
    { id := 2
      instructions := [{ kind := .catchEntry }, { result := some 0, kind := .loadLocal 0 }]
      terminator := .return none }]

/-- the first instruction of a function is completed on every walk that leaves it -/
theorem Walk.first_done {i : Instruction} (hi : f.instructionAt ⟨b, 0⟩ = some i) (hh : i.handler = none)
    (h : Walk f ⟨b, 0⟩ τ q) : q = ⟨b, 0⟩ ∨ Event.done b 0 ∈ τ := by
  induction h with
  | refl => exact .inl rfl
  | @step τ ε q r hw hs ih =>
    refine .inr ?_
    rcases ih with rfl | ih
    · cases hs with
      | next _ => exact mem_append_left _ (mem_singleton.mpr rfl)
      | raise hi' hh' =>
        obtain rfl := Option.mem_unique hi hi'
        rw [hh] at hh'
        cases hh'
      | jump ht =>
        rw [instructionAt_none_of_terminatorAt ht le_rfl] at hi
        cases hi
      | suspend ht =>
        rw [instructionAt_none_of_terminatorAt ht le_rfl] at hi
        cases hi
    · exact mem_append_right _ ih

theorem loadedFirst_read (h : loadedFirst.localReadAt q = some l) : q ≠ ⟨0, 0⟩ ∧ l = 0 := by
  obtain ⟨block, i, hb, hi, hread⟩ := localReadAt_eq_some.mp h
  have hall : ∀ block ∈ loadedFirst.blocks, ∀ i ∈ block.instructions, ∀ l ∈ i.kind.localRead?, l = 0 := by decide
  refine ⟨?_, hall block (mem_of_getElem? hb) i (mem_of_getElem? hi) l hread⟩
  rintro rfl
  cases h

theorem loadedFirst_reachablePreds : loadedFirst.ReachablePreds := by
  intro p c hE _
  obtain ⟨block, hb, hc⟩ := hE
  rcases p with _ | _ | _ | p
  · exact ⟨[], .refl⟩
  · exact ⟨[1], .snoc .refl ⟨_, rfl, by decide⟩⟩
  · obtain rfl := Option.some.inj hb
    exact absurd hc not_mem_nil
  · exact absurd hb (by simp [loadedFirst])

theorem loadedFirst_readAcrossSuspension : ReadAcrossSuspension loadedFirst 0 :=
  ⟨_, mem_cons_self, 1, rfl, ⟨0, by decide, .inl rfl⟩, 1, .refl, _, 0, _, rfl, rfl, rfl, by simp⟩

/-- The walk over the handler edge reads the local that block 1 would store to; the load in front keeps it in the frame. -/
theorem activationReadsStored_loadedFirst :
    Walk loadedFirst ⟨1, 0⟩ [.done 2 0, .enter 2, .done 1 0] ⟨2, 1⟩ ∧ ActivationReadsStored loadedFirst := by
  have hindexed : loadedFirst.Indexed :=
    (accepted_of_verify (m := { functions := [loadedFirst, raisingFunction] }) (by decide)).toIndexed
  have hdom : LocalReadsDominated loadedFirst := by
    intro q l hq
    obtain ⟨hne, rfl⟩ := loadedFirst_read hq
    refine ⟨0, 0, rfl, ?_⟩
    rintro τ ⟨σ, hw, rfl⟩
    exact mem_append_left _ ((Walk.first_done rfl rfl hw).resolve_left hne)
  have hskip : NoReadPastSkippedStore loadedFirst := by
    intro c l σ b site i h j τ q _ _ _ _ _ _ _ _ _ hread
    obtain ⟨-, rfl⟩ := loadedFirst_read hread
    exact .inr loadedFirst_readAcrossSuspension
  have hwalk : Walk loadedFirst ⟨1, 0⟩ [.done 2 0, .enter 2, .done 1 0] ⟨2, 1⟩ :=
    ((Walk.refl.step (.next rfl)).step (.raise rfl rfl)).step (.next rfl)
  exact ⟨hwalk,
    (activationReadsStored_iff_noReadPastSkippedStore hindexed hdom loadedFirst_reachablePreds).mpr hskip⟩

theorem skippedStore_read (h : skippedStore.localReadAt q = some l) : q = ⟨2, 1⟩ ∧ l = 0 := by
  obtain ⟨b, k⟩ := q
  rcases b with _ | _ | _ | b <;> rcases k with _ | _ | k <;>
    simp_all [Function.localReadAt, Function.instructionAt, skippedStore, storeOne, raisingCall,
      InstructionKind.localRead?]

theorem skippedStore_run :
    Run skippedStore [.done 2 0, .enter 2, .enter 1, .suspend, .done 0 0, .enter 0, .start]
      ⟨2, 1⟩ := by
  have h₁ : Walk skippedStore ⟨0, 0⟩ [.done 0 0] ⟨0, 1⟩ := Walk.refl.step (.next rfl)
  have h₂ : Walk skippedStore ⟨0, 0⟩ [.enter 1, .suspend, .done 0 0] ⟨1, 0⟩ :=
    h₁.step (.suspend rfl rfl)
  have h₃ : Walk skippedStore ⟨0, 0⟩ [.enter 2, .enter 1, .suspend, .done 0 0] ⟨2, 0⟩ :=
    h₂.step (.raise rfl rfl)
  have h₄ : Walk skippedStore ⟨0, 0⟩ [.done 2 0, .enter 2, .enter 1, .suspend, .done 0 0] ⟨2, 1⟩ :=
    h₃.step (.next rfl)
  exact ⟨_, h₄, rfl⟩

theorem skippedStore_not_activationReadsStored :
    verifyFunction { functions := [skippedStore, raisingFunction] } skippedStore = [] ∧
      LocalReadsDominated skippedStore ∧ ¬ ActivationReadsStored skippedStore := by
  refine ⟨by decide, fun q l hq => ?_, fun h => ?_⟩
  · obtain ⟨rfl, rfl⟩ := skippedStore_read hq
    refine ⟨0, 0, rfl, fun τ hrun => ?_⟩
    obtain ⟨σ, hw, rfl⟩ := hrun
    rcases Walk.first_done rfl rfl hw with hq | hd
    · exact absurd hq (by decide)
    · exact mem_append_left _ hd
  · have hkept : ∃ d ∈ (classifyLocalStorage skippedStore).locals,
        d.id = 0 ∧ d.storage = .activation := by decide
    have hread := h _ _ 0 skippedStore_run (by decide) rfl hkept
    exact absurd hread (by decide)

end Subscript.Lir
