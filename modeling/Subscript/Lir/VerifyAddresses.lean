import Subscript.Flow.Worklist
import Subscript.Lir.DefinedReads
import Subscript.Lir.Exec

/-! Element addresses (`verify_address_invalidation`). An address into an array declares the value that it was taken from as
its base, and an instruction or a suspension lists the array values whose elements may move. The check follows each address
from its definition, by its base alone; here it is compared with runs that know which array an address points into. -/

namespace Subscript.Lir

open List

/-- the block, the next instruction, and whether the base was invalidated on the way -/
abbrev AddressNode := BlockId × Nat × Bool

def definitionPosition (f : Function) (v : ValueId) : Option Point :=
  if f.parameters.any (·.value = v) then some ⟨f.entry, 0⟩
  else f.blocks.findSome? fun block =>
    if v ∈ block.parameters then some ⟨block.id, 0⟩
    else (block.instructions.findIdx? (·.result = some v)).map fun index => ⟨block.id, index + 1⟩

/-- the array values that a terminator invalidates -/
def Terminator.invalidated : Terminator → List ValueId
  | .suspend s => s.invalidates
  | _ => []

section Track

variable (f : Function) (v base : ValueId)

/-- A back edge executes the definition again, and the new address starts valid. -/
def flagBefore (i : Instruction) (invalidated : Bool) : Bool := if i.result = some v then false else invalidated

def flagAfter (i : Instruction) (invalidated : Bool) : Bool := flagBefore v i invalidated || base ∈ i.invalidates

/-- the findings in the rest of a block, the handler edges that leave it, and whether the base is invalidated at its end -/
def trackInstructions (block : BlockId) : List Instruction → Bool → List VerifyError × List AddressNode × Bool
  | [], invalidated => ([], [], invalidated)
  | i :: rest, invalidated =>
    if flagBefore v i invalidated && v ∈ i.valueUses then
      ([finding f s!"address value {v} is used in block {block} after array value {base} was invalidated"], [],
        flagBefore v i invalidated)
    else
      let (errors, handlers, last) := trackInstructions block rest (flagAfter v base i invalidated)
      -- a handler edge leaves after the raise site
      (errors, i.handler.toList.map (·, 0, flagAfter v base i invalidated) ++ handlers, last)

def trackAddress : AddressNode → List VerifyError × List AddressNode
  | (block, index, invalidated) =>
    match f.blocks[block]? with
    | none => ([], [])
    | some b =>
      let (errors, handlers, invalidated) := trackInstructions f v base block (b.instructions.drop index) invalidated
      (errors ++ require f (!(invalidated && v ∈ b.terminator.valueUses))
          s!"address value {v} reaches block {block} terminator after array value {base} was invalidated",
        handlers ++ b.terminator.successors.map (·, 0, invalidated || base ∈ b.terminator.invalidated))

/-- every place that the search can come to -/
def addressNodes (start : AddressNode) : Finset AddressNode :=
  insert start ((f.blocks.flatMap BasicBlock.successors).toFinset ×ˢ {0} ×ˢ {false, true})

def followAddress (start : AddressNode) : List VerifyError :=
  let visit := trackAddress f v base
  Flow.report visit (Flow.searchWork (fun x => (false, (visit x).2)) (addressNodes f start) [start] ∅ + 1) [start] ∅

end Track

def verifyAddressInvalidation (f : Function) : List VerifyError :=
  f.values.flatMap fun value =>
    match value.ty with
    | .address ⟨_, some base⟩ =>
      match definitionPosition f value.id with
      | none => []
      | some start => followAddress f value.id base (start.block, start.index, false)
    | _ => []

/-- the base that an address value declares -/
def arrayBase (f : Function) (v : ValueId) : Option ValueId :=
  match valueType f v with
  | some (.address ty) => ty.arrayBase
  | _ => none

section Runs

variable {A : Type} [DecidableEq A]

/-- what a value is at run time, as far as arrays go: an address is stale once its array was invalidated -/
inductive Holding (A : Type) where
  | other
  | array (a : A)
  | address (a : A) (stale : Bool)
  deriving DecidableEq

/-- a definition gives a valid address -/
def Holding.fresh : Holding A → Holding A
  | .address a _ => .address a false
  | held => held

/-- the array is the one that a value of the list holds -/
def Moves (values : List ValueId) (env : ValueId → Holding A) (a : A) : Prop := ∃ y ∈ values, env y = .array a

instance (values : List ValueId) (env : ValueId → Holding A) (a : A) : Decidable (Moves values env a) :=
  inferInstanceAs (Decidable (∃ y ∈ values, env y = .array a))

/-- every address into one of the arrays turns stale, under whatever name it is kept -/
def invalidate (values : List ValueId) (env : ValueId → Holding A) (v : ValueId) : Holding A :=
  match env v with
  | .address a stale => .address a (stale || decide (Moves values env a))
  | held => held

def noConstant (_ : Constant) : Holding A := .other

/-- one step: an instruction invalidates after it stored its result, also when it raises, and a suspension before it passes
its arguments -/
def addressStep (f : Function) (c : Config (Holding A)) : Choice (Holding A) → Option (Config (Holding A))
  | .done x =>
    (f.instructionAt c.point).map fun i =>
      ⟨⟨c.point.block, c.point.index + 1⟩, invalidate i.invalidates (storeResult c.env i.result x.fresh)⟩
  | .raise =>
    (f.instructionAt c.point).bind fun i => i.handler.map fun h => f.enter (invalidate i.invalidates c.env) h []
  | .edge k =>
    (f.terminatorAt c.point).bind fun t =>
      match t.resume? with
      | some _ => none
      | none => t.targets[k]?.map fun target =>
        f.enter c.env target.block (target.arguments.map (Operand.eval noConstant c.env))
  | .resume x =>
    match f.terminatorAt c.point with
    | some (.suspend s) =>
      let env := invalidate s.invalidates c.env
      some (f.enter env s.successor (s.passed noConstant env x.fresh))
    | _ => none

/-- the start of a function whose parameters hold what was passed -/
def addressStart (f : Function) (passed : List (Holding A)) : Config (Holding A) :=
  ⟨⟨f.entry, 0⟩, assign (fun _ => .other) (f.parameters.map Parameter.value) (passed.map Holding.fresh)⟩

/-- a run whose steps all satisfy `keeps` -/
inductive AddressRun (f : Function) (keeps : Config (Holding A) → Choice (Holding A) → Prop) : Config (Holding A) → Prop
  | start (passed : List (Holding A)) : AddressRun f keeps (addressStart f passed)
  | step {c c' : Config (Holding A)} {choice : Choice (Holding A)} : AddressRun f keeps c →
      addressStep f c choice = some c' → keeps c choice → AddressRun f keeps c'

/-- no stale address is read in any of these runs -/
def ReadsValid (f : Function) (keeps : Config (Holding A) → Choice (Holding A) → Prop) : Prop :=
  ∀ c, AddressRun f keeps c → ∀ v ∈ f.readsAt c.point, ∀ a, c.env v ≠ .address a true

/-- the list names the base of each address into an array that it invalidates -/
def NamesBases (f : Function) (values : List ValueId) (env : ValueId → Holding A) : Prop :=
  ∀ v a stale, env v = .address a stale → Moves values env a → ∃ base ∈ values, arrayBase f v = some base

/-- What the check relies on in a step. -/
def StepKept (f : Function) (c : Config (Holding A)) : Choice (Holding A) → Prop
  | .done x => ∀ i, f.instructionAt c.point = some i →
    let env := storeResult c.env i.result x.fresh
    NamesBases f i.invalidates env ∧ ∀ r a stale, i.result = some r → env r = .address a stale → ¬ Moves i.invalidates env a
  | .raise => ∀ i, f.instructionAt c.point = some i →
    NamesBases f i.invalidates c.env ∧ ∀ r, i.result = some r → arrayBase f r = none
  | .edge _ => True
  | .resume _ => ∀ s, f.terminatorAt c.point = some (.suspend s) →
    NamesBases f s.invalidates c.env ∧
      ∀ v a stale, Operand.value v ∈ s.arguments → c.env v = .address a stale → ¬ Moves s.invalidates c.env a

end Runs

section Search

variable {f : Function} {v base : ValueId}

theorem handlers_of_trackInstructions {block : BlockId} {rest : List Instruction} {invalidated : Bool} {n : AddressNode}
    (h : n ∈ (trackInstructions f v base block rest invalidated).2.1) :
    ∃ i ∈ rest, i.handler = some n.1 ∧ n.2.1 = 0 := by
  induction rest generalizing invalidated with
  | nil => exact absurd h not_mem_nil
  | cons i rest ih =>
    unfold trackInstructions at h
    split at h
    · exact absurd h not_mem_nil
    · rcases mem_append.mp h with h | h
      · obtain ⟨handler, hh, rfl⟩ := mem_map.mp h
        exact ⟨i, mem_cons_self, Option.mem_toList.mp hh, rfl⟩
      · obtain ⟨j, hj, hn⟩ := ih h
        exact ⟨j, mem_cons_of_mem _ hj, hn⟩

theorem trackAddress_mem_addressNodes {start x y : AddressNode} (h : y ∈ (trackAddress f v base x).2) :
    y ∈ addressNodes f start := by
  obtain ⟨b, index, invalidated⟩ := x
  unfold trackAddress at h
  dsimp only at h
  split at h
  · exact absurd h not_mem_nil
  · rename_i block hb
    have found : y.1 ∈ block.successors ∧ y.2.1 = 0 := by
      rcases mem_append.mp h with h | h
      · obtain ⟨i, hi, hh, hzero⟩ := handlers_of_trackInstructions h
        exact ⟨mem_append_left _ (mem_filterMap.mpr ⟨i, mem_of_mem_drop hi, hh⟩), hzero⟩
      · obtain ⟨c, hc, rfl⟩ := mem_map.mp h
        exact ⟨mem_append_right _ hc, rfl⟩
    obtain ⟨c, k, flag⟩ := y
    obtain ⟨hc, rfl⟩ : c ∈ block.successors ∧ k = 0 := found
    have known : c ∈ (f.blocks.flatMap BasicBlock.successors).toFinset :=
      mem_toFinset.mpr (mem_flatMap.mpr ⟨block, mem_of_getElem? hb, hc⟩)
    exact Finset.mem_insert_of_mem (by simp [known])

/-- a place to which the search from the definition of `v` comes -/
def Followed (f : Function) (v base : ValueId) (n : AddressNode) : Prop :=
  ∃ start, definitionPosition f v = some start ∧
    Relation.ReflTransGen (fun a b => b ∈ (trackAddress f v base a).2) (start.block, start.index, false) n

/-- nothing is found from `p` to the end of its block, and the search goes on from there -/
structure Clear (f : Function) (v base : ValueId) (p : Point) (invalidated : Bool) (b : BasicBlock) : Prop where
  none : (trackInstructions f v base p.block (b.instructions.drop p.index) invalidated).1 = []
  terminator : (trackInstructions f v base p.block (b.instructions.drop p.index) invalidated).2.2 = true →
    v ∉ b.terminator.valueUses
  handlers : ∀ n ∈ (trackInstructions f v base p.block (b.instructions.drop p.index) invalidated).2.1, Followed f v base n
  successors : ∀ c ∈ b.terminator.successors, Followed f v base (c, 0,
    (trackInstructions f v base p.block (b.instructions.drop p.index) invalidated).2.2 || base ∈ b.terminator.invalidated)

/-- the check is past `p` with this flag and has found nothing -/
def Passed (f : Function) (v base : ValueId) (p : Point) (invalidated : Bool) : Prop :=
  ∀ b, f.blocks[p.block]? = some b → Clear f v base p invalidated b

section Accepted

variable (accepted : verifyAddressInvalidation f = []) (declared : arrayBase f v = some base)
include accepted declared

theorem Followed.clean {n : AddressNode} (h : Followed f v base n) : (trackAddress f v base n).1 = [] := by
  obtain ⟨start, hstart, reached⟩ := h
  obtain ⟨value, hmem, rfl, hty⟩ : ∃ value ∈ f.values, value.id = v ∧ ∃ pointee, value.ty = .address ⟨pointee, some base⟩ := by
    unfold arrayBase at declared
    cases hty : valueType f v with
    | none => simp [hty] at declared
    | some ty =>
      rw [hty] at declared
      obtain ⟨value, hvalue, rfl⟩ := Option.map_eq_some_iff.mp hty
      obtain ⟨hvalue, hid⟩ := Option.filter_eq_some_iff.mp hvalue
      refine ⟨value, mem_of_getElem? hvalue, by simpa using hid, ?_⟩
      cases hv : value.ty with
      | address ty =>
        rw [hv] at declared
        exact ⟨ty.pointee, by rw [← declared]⟩
      | _ => simp [hv] at declared
  obtain ⟨pointee, hty⟩ := hty
  have silent := flatMap_eq_nil_iff.mp accepted value hmem
  simp only [hty, hstart] at silent
  have closed : ∀ x ∈ addressNodes f (start.block, start.index, false),
      ∀ y ∈ (trackAddress f value.id base x).2, y ∈ addressNodes f (start.block, start.index, false) :=
    fun x _ y hy => trackAddress_mem_addressNodes hy
  exact Flow.report_eq_nil closed (Finset.mem_insert_self _ _) (Nat.lt_succ_self _) silent reached

theorem Followed.passed {p : Point} {invalidated : Bool} (h : Followed f v base (p.block, p.index, invalidated)) :
    Passed f v base p invalidated := by
  intro b hb
  have clean := h.clean accepted declared
  have next : ∀ n ∈ (trackAddress f v base (p.block, p.index, invalidated)).2, Followed f v base n := by
    intro n hn
    obtain ⟨start, hstart, reached⟩ := h
    exact ⟨start, hstart, reached.tail hn⟩
  simp only [trackAddress, hb, append_eq_nil_iff, require_eq_nil] at clean next
  refine ⟨clean.1, fun last => ?_, fun n hn => next n (mem_append_left _ hn), fun c hc => ?_⟩
  · simpa [last] using clean.2
  · exact next _ (mem_append_right _ (mem_map.mpr ⟨c, hc, rfl⟩))

theorem passed_start {p : Point} (h : definitionPosition f v = some p) : Passed f v base p false :=
  Followed.passed accepted declared ⟨p, h, .refl⟩

end Accepted

variable {p : Point} {invalidated : Bool}

theorem flagAfter_of_ne {i : Instruction} (other : i.result ≠ some v) :
    flagAfter v base i invalidated = (invalidated || base ∈ i.invalidates) := by
  rw [flagAfter, flagBefore, if_neg other]

theorem Passed.instruction (h : Passed f v base p invalidated) {i : Instruction} (hi : f.instructionAt p = some i) :
    (invalidated = true → i.result ≠ some v → v ∉ i.valueUses) ∧
      Passed f v base ⟨p.block, p.index + 1⟩ (flagAfter v base i invalidated) ∧
      ∀ c, i.handler = some c → Followed f v base (c, 0, flagAfter v base i invalidated) := by
  obtain ⟨b, hb, hk⟩ := instructionAt_eq_some.mp hi
  have split : b.instructions.drop p.index = i :: b.instructions.drop (p.index + 1) := by
    obtain ⟨hlt, rfl⟩ := List.getElem?_eq_some_iff.mp hk
    exact drop_eq_getElem_cons hlt
  obtain ⟨none, terminator, handlers, successors⟩ := h b hb
  rw [split, trackInstructions] at none terminator handlers successors
  split at none
  · exact absurd none (by simp)
  · rename_i unread
    rw [if_neg unread] at terminator handlers successors
    refine ⟨fun set other used => unread (by simp [flagBefore, set, other, used]), fun b' hb' => ?_, fun c hc => ?_⟩
    · obtain rfl : b = b' := Option.mem_unique hb hb'
      exact ⟨none, terminator, fun n hn => handlers n (mem_append_right _ hn), successors⟩
    · exact handlers _ (mem_append_left _ (mem_map.mpr ⟨c, Option.mem_toList.mpr hc, rfl⟩))

theorem Passed.terminator (h : Passed f v base p invalidated) {t : Terminator} (ht : f.terminatorAt p = some t) :
    (invalidated = true → v ∉ t.valueUses) ∧
      ∀ c ∈ t.successors, Followed f v base (c, 0, invalidated || base ∈ t.invalidated) := by
  obtain ⟨b, hb, hlen, rfl⟩ := terminatorAt_eq_some.mp ht
  obtain ⟨-, terminator, -, successors⟩ := h b hb
  have last : b.instructions.drop p.index = [] := drop_eq_nil_of_le hlen.le
  rw [last] at terminator successors
  exact ⟨terminator, successors⟩

end Search

section Definition

variable {f : Function} {v : ValueId}

/-- where a definition is complete -/
def DefinitionSite.position (f : Function) : DefinitionSite → Point
  | .entry => ⟨f.entry, 0⟩
  | .blockEntry b => ⟨b, 0⟩
  | .instruction b k => ⟨b, k + 1⟩

theorem site_of_definitionPosition (hf : f.Indexed) {p : Point} (h : definitionPosition f v = some p) :
    ∃ s, (v, s) ∈ definitionSites f ∧ p = s.position f := by
  unfold definitionPosition at h
  split at h
  · rename_i found
    obtain ⟨parameter, hmem, hv⟩ := any_eq_true.mp found
    refine ⟨.entry, (mem_definitionSites hf).mpr (.inl ⟨mem_map.mpr ⟨parameter, hmem, by simpa using hv⟩, rfl⟩), ?_⟩
    exact (Option.some.inj h).symm
  · obtain ⟨block, hmem, h⟩ := exists_of_findSome?_eq_some h
    obtain ⟨b, hb⟩ := mem_iff_getElem?.mp hmem
    rw [hf.block hb] at h
    split at h
    · rename_i hv
      exact ⟨.blockEntry b, (mem_definitionSites hf).mpr (.inr ⟨b, block, hb, .inl ⟨hv, rfl⟩⟩), (Option.some.inj h).symm⟩
    · obtain ⟨k, hk, rfl⟩ := Option.map_eq_some_iff.mp h
      obtain ⟨hlt, hresult, -⟩ := findIdx?_eq_some_iff_getElem.mp hk
      have at_k : block.instructions[k]? = some block.instructions[k] := getElem?_eq_getElem hlt
      exact ⟨.instruction b k, (mem_definitionSites hf).mpr (.inr ⟨b, block, hb, .inr ⟨k, _, at_k, by simpa using hresult, rfl⟩⟩),
        rfl⟩

theorem definitionPosition_isSome (hf : f.Indexed) {s : DefinitionSite} (h : (v, s) ∈ definitionSites f) :
    (definitionPosition f v).isSome := by
  unfold definitionPosition
  split
  · rfl
  · rename_i absent
    rw [findSome?_isSome_iff]
    rcases (mem_definitionSites hf).mp h with ⟨hv, -⟩ | ⟨b, block, hb, ⟨hv, -⟩ | ⟨k, i, hi, hv, -⟩⟩
    · obtain ⟨parameter, hmem, hv⟩ := mem_map.mp hv
      exact absurd (any_eq_true.mpr ⟨parameter, hmem, by simpa using hv⟩) absent
    · exact ⟨block, mem_of_getElem? hb, by rw [if_pos hv]; rfl⟩
    · refine ⟨block, mem_of_getElem? hb, ?_⟩
      split
      · rfl
      · rw [Option.isSome_map, findIdx?_isSome, any_eq_true]
        exact ⟨i, mem_of_getElem? hi, by simpa using hv⟩

theorem definitionPosition_eq (hf : f.Structured) {s : DefinitionSite} (h : (v, s) ∈ definitionSites f) :
    definitionPosition f v = some (s.position f) := by
  obtain ⟨p, hp⟩ := Option.isSome_iff_exists.mp (definitionPosition_isSome hf.toIndexed h)
  obtain ⟨s', h', rfl⟩ := site_of_definitionPosition hf.toIndexed hp
  rw [hp, hf.unique (hf.declared h) h h']

end Definition

section Invariant

variable {A : Type} [DecidableEq A] {f : Function} {env : ValueId → Holding A} {values : List ValueId}
  {v : ValueId} {a : A} {stale : Bool} {c c' : Config (Holding A)}

omit [DecidableEq A] in
theorem address_of_fresh {x : Holding A} (h : x.fresh = .address a stale) : stale = false := by
  cases x with
  | address b s => cases h; rfl
  | _ => exact absurd h (by simp [Holding.fresh])

theorem address_of_invalidate (h : invalidate values env v = .address a stale) :
    ∃ was, env v = .address a was ∧ stale = (was || decide (Moves values env a)) := by
  unfold invalidate at h
  split at h
  · rename_i b was held
    cases h
    exact ⟨was, held, rfl⟩
  · rename_i other
    exact absurd h (other a stale)

/-- an address that turns stale has its base in the list -/
theorem NamesBases.turned (names : NamesBases f values env) (h : invalidate values env v = .address a true) :
    env v = .address a true ∨ ∃ base ∈ values, arrayBase f v = some base := by
  obtain ⟨was, held, set⟩ := address_of_invalidate h
  rcases Bool.or_eq_true_iff.mp set.symm with rfl | moved
  · exact .inl held
  · exact .inr (names v a was held (of_decide_eq_true moved))

theorem assign_cases {V : Type*} (env : ValueId → V) (parameters : List ValueId) (passed : List V) (v : ValueId) :
    assign env parameters passed v = env v ∨ v ∈ parameters ∧ assign env parameters passed v ∈ passed := by
  induction parameters generalizing env passed with
  | nil => exact .inl rfl
  | cons p parameters ih =>
    cases passed with
    | nil => exact .inl rfl
    | cons x passed =>
      rw [assign_cons]
      rcases ih (Function.update env p x) passed with h | ⟨hv, h⟩
      · rw [h]
        by_cases hp : v = p
        · subst hp
          rw [Function.update_self]
          exact .inr ⟨mem_cons_self, mem_cons_self⟩
        · exact .inl (Function.update_of_ne hp _ _)
      · exact .inr ⟨mem_cons_of_mem _ hv, mem_cons_of_mem _ h⟩

/-- Every address is followed by the check, which knows at least of what made it stale. -/
structure Watched (f : Function) (c : Config (Holding A)) : Prop where
  followed : ∀ v a stale base, c.env v = .address a stale → arrayBase f v = some base →
    ∃ invalidated, Passed f v base c.point invalidated ∧ (stale = true → invalidated = true)
  based : ∀ v a, c.env v = .address a true → ∃ base, arrayBase f v = some base

omit [DecidableEq A] in
theorem Watched.reads (h : Watched f c) (hf : f.Accepted) (hv : v ∈ f.readsAt c.point) :
    c.env v ≠ .address a true := by
  intro held
  obtain ⟨base, declared⟩ := h.based v a held
  obtain ⟨invalidated, passed, flag⟩ := h.followed v a true base held declared
  obtain rfl := flag rfl
  have hread := hv
  unfold Function.readsAt at hread
  cases hi : f.instructionAt c.point with
  | some i =>
    rw [hi] at hread
    refine (passed.instruction hi).1 rfl (fun own => ?_) hread
    -- a value is not read by the instruction that defines it
    have site : (v, .instruction c.point.block c.point.index) ∈ definitionSites f :=
      (mem_defines hf.toIndexed).mp (by simp [DefinitionSite.event, Function.defines, hi, own])
    exact absurd (hf.dominated hv site) (by simp [definitionDominatesDefinition])
  | none =>
    rw [hi] at hread
    cases ht : f.terminatorAt c.point with
    | none => simp [ht] at hread
    | some t => exact (passed.terminator ht).1 rfl (by simpa [ht] using hread)

/-- what the check knows of an address that an invalidation has passed over -/
theorem Watched.invalidated (h : Watched f c) (names : NamesBases f values env) (same : env v = c.env v) {base : ValueId}
    (held : invalidate values env v = .address a stale) (declared : arrayBase f v = some base) :
    ∃ invalidated, Passed f v base c.point invalidated ∧ (stale = true → (invalidated || base ∈ values) = true) := by
  obtain ⟨was, before, -⟩ := address_of_invalidate held
  obtain ⟨invalidated, passed, flag⟩ := h.followed v a was base (same ▸ before) declared
  refine ⟨invalidated, passed, fun set => ?_⟩
  subst set
  rcases names.turned held with old | ⟨base', listed, declared'⟩
  · cases before.symm.trans old
    rw [flag rfl, Bool.true_or]
  · cases declared.symm.trans declared'
    rw [decide_eq_true listed, Bool.or_true]

omit [DecidableEq A] in
theorem passed_value {arguments : List Operand} {x : Holding A} (hx : x ∈ arguments.map (Operand.eval noConstant env))
    (held : x = .address a stale) : ∃ v, Operand.value v ∈ arguments ∧ env v = .address a stale := by
  obtain ⟨operand, hmem, rfl⟩ := mem_map.mp hx
  cases operand with
  | value v => exact ⟨v, hmem, held⟩
  | constant k => exact absurd held (by simp [Operand.eval, noConstant])

theorem mem_readsAt_of_argument {p : Point} {t : Terminator} {target : BlockTarget} (ht : f.terminatorAt p = some t)
    (htarget : target ∈ t.targets) (hv : Operand.value v ∈ target.arguments) : v ∈ f.readsAt p := by
  have none : f.instructionAt p = none := instructionAt_none_of_terminatorAt ht le_rfl
  unfold Function.readsAt
  rw [none, ht]
  exact argument_mem_valueUses htarget hv

section Steps

variable (hf : f.Accepted) (accepted : verifyAddressInvalidation f = [])
include hf accepted

omit [DecidableEq A] in
theorem watched_start (passed : List (Holding A)) : Watched f (addressStart f passed) := by
  have fresh : ∀ v a stale, (addressStart f passed).env v = .address a stale →
      stale = false ∧ v ∈ f.parameters.map Parameter.value := by
    intro v a stale held
    rcases assign_cases (fun _ => .other) (f.parameters.map Parameter.value) (passed.map Holding.fresh) v with h | ⟨hv, h⟩
    · exact absurd (h.symm.trans held) (by simp)
    · obtain ⟨x, -, hx⟩ := mem_map.mp h
      exact ⟨address_of_fresh (hx.trans held), hv⟩
  refine ⟨fun v a stale base held declared => ?_, fun v a held => absurd (fresh v a true held).1 (by simp)⟩
  obtain ⟨rfl, hv⟩ := fresh v a stale held
  have site : (v, .entry) ∈ definitionSites f := (mem_definitionSites hf.toIndexed).mpr (.inl ⟨hv, rfl⟩)
  exact ⟨false, passed_start accepted declared (definitionPosition_eq hf.toStructured site), fun h => h⟩

theorem watched_done (h : Watched f c) {i : Instruction} (hi : f.instructionAt c.point = some i)
    {x : Holding A} (names : NamesBases f i.invalidates (storeResult c.env i.result x.fresh))
    (kept : ∀ r a stale, i.result = some r → storeResult c.env i.result x.fresh r = .address a stale →
      ¬ Moves i.invalidates (storeResult c.env i.result x.fresh) a) :
    Watched f ⟨⟨c.point.block, c.point.index + 1⟩, invalidate i.invalidates (storeResult c.env i.result x.fresh)⟩ := by
  have defined : ∀ v a stale, i.result = some v →
      invalidate i.invalidates (storeResult c.env i.result x.fresh) v = .address a stale → stale = false := by
    intro v a stale own held
    obtain ⟨was, stored, rfl⟩ := address_of_invalidate held
    have unmoved := kept v a was own stored
    have valid : was = false := by
      rw [own, storeResult, Function.update_self] at stored
      exact address_of_fresh stored
    rw [valid, decide_eq_false unmoved, Bool.or_self]
  have same : ∀ v, i.result ≠ some v → storeResult c.env i.result x.fresh v = c.env v := by
    intro v other
    cases hr : i.result with
    | none => rfl
    | some r => exact Function.update_of_ne (fun heq => other (by rw [hr, heq])) _ _
  refine ⟨fun v a stale base held declared => ?_, fun v a held => ?_⟩
  · by_cases own : i.result = some v
    · have site : (v, .instruction c.point.block c.point.index) ∈ definitionSites f :=
        (mem_defines hf.toIndexed).mp (by simp [DefinitionSite.event, Function.defines, hi, own])
      obtain rfl := defined v a stale own held
      exact ⟨false, passed_start accepted declared (definitionPosition_eq hf.toStructured site), fun h => h⟩
    · obtain ⟨invalidated, passed, flag⟩ := h.invalidated names (same v own) held declared
      exact ⟨_, (passed.instruction hi).2.1, fun set => by rw [flagAfter_of_ne own, flag set]⟩
  · by_cases own : i.result = some v
    · exact absurd (defined v a true own held) (by simp)
    · rcases names.turned held with old | ⟨base, -, declared⟩
      · exact h.based v a (same v own ▸ old)
      · exact ⟨base, declared⟩

omit [DecidableEq A] in
/-- entering a block: the parameters take valid addresses, and the search goes along the edge -/
theorem watched_enter {b : BlockId} {passed : List (Holding A)}
    (followed : ∀ v a stale base, env v = .address a stale → arrayBase f v = some base →
      ∃ invalidated, Followed f v base (b, 0, invalidated) ∧ (stale = true → invalidated = true))
    (based : ∀ v a, env v = .address a true → ∃ base, arrayBase f v = some base)
    (valid : ∀ x ∈ passed, ∀ a, x ≠ .address a true) : Watched f (f.enter env b passed) := by
  refine ⟨fun v a stale base held declared => ?_, fun v a held => ?_⟩
  · rcases assign_cases env (f.parametersOf b) passed v with same | ⟨hv, new⟩
    · obtain ⟨invalidated, reached, flag⟩ := followed v a stale base (same.symm.trans held) declared
      exact ⟨invalidated, reached.passed accepted declared, flag⟩
    · have site : (v, .blockEntry b) ∈ definitionSites f := (mem_defines hf.toIndexed).mp hv
      refine ⟨false, passed_start accepted declared (definitionPosition_eq hf.toStructured site), fun set => ?_⟩
      subst set
      exact absurd held (valid _ new a)
  · rcases assign_cases env (f.parametersOf b) passed v with same | ⟨-, new⟩
    · exact based v a (same.symm.trans held)
    · exact absurd held (valid _ new a)

theorem watched_step (h : Watched f c) {choice : Choice (Holding A)}
    (hs : addressStep f c choice = some c') (kept : StepKept f c choice) : Watched f c' := by
  have unread := fun v a (hv : v ∈ f.readsAt c.point) => h.reads (a := a) hf hv
  cases choice with
  | done x =>
    obtain ⟨i, hi, rfl⟩ := Option.map_eq_some_iff.mp hs
    obtain ⟨names, fresh⟩ := kept i hi
    exact watched_done hf accepted h hi names fresh
  | raise =>
    obtain ⟨i, hi, hs⟩ := Option.bind_eq_some_iff.mp hs
    obtain ⟨handler, hh, rfl⟩ := Option.map_eq_some_iff.mp hs
    obtain ⟨names, undefined⟩ := kept i hi
    refine watched_enter hf accepted (fun v a stale base held declared => ?_) (fun v a held => ?_)
      fun x hx => absurd hx not_mem_nil
    · have other : i.result ≠ some v := fun own => by simp [undefined v own] at declared
      obtain ⟨invalidated, passed, flag⟩ := h.invalidated names rfl held declared
      exact ⟨_, (passed.instruction hi).2.2 handler hh, fun set => by rw [flagAfter_of_ne other, flag set]⟩
    · exact (names.turned held).elim (h.based v a) fun ⟨base, _, declared⟩ => ⟨base, declared⟩
  | edge k =>
    obtain ⟨t, ht, hs⟩ := Option.bind_eq_some_iff.mp hs
    cases hr : t.resume? with
    | some s => simp [hr] at hs
    | none =>
      simp only [hr] at hs
      obtain ⟨target, htarget, rfl⟩ := Option.map_eq_some_iff.mp hs
      refine watched_enter hf accepted (fun v a stale base held declared => ?_) h.based fun x hx a stale => ?_
      · obtain ⟨invalidated, passed, flag⟩ := h.followed v a stale base held declared
        refine ⟨_, (passed.terminator ht).2 _ (mem_successors_of_target htarget), fun set => ?_⟩
        rw [flag set, Bool.true_or]
      · obtain ⟨v, hv, held⟩ := passed_value hx stale
        exact unread v a (mem_readsAt_of_argument ht (mem_of_getElem? htarget) hv) held
  | resume x =>
    simp only [addressStep] at hs
    split at hs
    · rename_i s ht
      obtain rfl := Option.some.inj hs
      obtain ⟨names, unmoved⟩ := kept s ht
      refine watched_enter hf accepted (fun v a stale base held declared => ?_) (fun v a held => ?_) fun y hy a stale => ?_
      · obtain ⟨invalidated, passed, flag⟩ := h.invalidated names rfl held declared
        exact ⟨_, (passed.terminator ht).2 _ (mem_singleton.mpr rfl), flag⟩
      · exact (names.turned held).elim (h.based v a) fun ⟨base, _, declared⟩ => ⟨base, declared⟩
      · rcases mem_append.mp hy with hy | hy
        · obtain ⟨-, -, hy⟩ := mem_map.mp hy
          exact absurd (address_of_fresh (hy.trans stale)) (by simp)
        · obtain ⟨v, hv, held⟩ := passed_value hy stale
          obtain ⟨was, before, set⟩ := address_of_invalidate held
          have old : was = true := by simpa [unmoved v a was hv before] using set.symm
          exact unread v a (mem_readsAt_of_argument ht (mem_singleton.mpr rfl) hv) (old ▸ before)
    · exact absurd hs (by simp)

end Steps

/-- Whenever every step names the bases of what it invalidates, does not invalidate what it defines or passes, and does not
raise out of the definition of an address, no stale address is read. -/
theorem readsValid_of_stepKept {m : Module} (h : verifyFunction m f = []) (accepted : verifyAddressInvalidation f = []) :
    ReadsValid f (StepKept (A := A) f) := by
  have hf := accepted_of_verify h
  intro c run v hv a
  have watched : Watched f c := by
    clear hv
    induction run with
    | start passed => exact watched_start hf accepted passed
    | step _ hs kept ih => exact watched_step hf accepted ih hs kept
  exact watched.reads hf hv

end Invariant

def elementAddress (result array : ValueId) : Instruction where
  result := some result
  kind := .addressOfIndex true
  operands := [.value array, one]
  traps := [⟨.devOnlyLifetime 0, samplePos⟩, ⟨.indexRead, samplePos⟩]

def loadInto (result address : ValueId) : Instruction where
  result := some result
  kind := .loadAddress
  operands := [.value address]

/-- a loop that reads an element and then lets the array grow -/
def growingLoop : Function where
  id := 0
  sourceName := "grow"
  parameters := [{ value := 0 }]
  values := [⟨0, .data (.array .i32), false⟩, ⟨1, .address ⟨.i32, some 0⟩, false⟩, ⟨2, .data .i32, false⟩]
  blocks := [
    { id := 0, terminator := .branch { block := 1 } },
    { id := 1
      instructions := [elementAddress 1 0, loadInto 2 1,
        { kind := .call ⟨.builtinMethod .arrayPush, [], none⟩, operands := [.value 0, one], invalidates := [0]
          traps := [⟨.devOnlyLifetime 0, samplePos⟩] }]
      terminator := .branch { block := 1 } }]

theorem readsValid_growingLoop : verifyFunction { functions := [growingLoop] } growingLoop = [] ∧
    verifyAddressInvalidation growingLoop = [] ∧ ReadsValid growingLoop (StepKept (A := Nat) growingLoop) := by
  have h : verifyFunction { functions := [growingLoop] } growingLoop = [] := by decide
  have accepted : verifyAddressInvalidation growingLoop = [] := by decide
  exact ⟨h, accepted, readsValid_of_stepKept h accepted⟩

/-- The suspension lets the array move and passes the address of an element on. The resumed block reads through its
parameter, which the check follows from there as if it were new. -/
def resumedAddress : Function where
  id := 0
  sourceName := "resumed"
  isAsync := true
  parameters := [{ value := 0 }]
  values := [⟨0, .data (.array .i32), false⟩, ⟨1, .address ⟨.i32, some 0⟩, false⟩, ⟨2, .address ⟨.i32, some 0⟩, false⟩,
    ⟨3, .data .i32, false⟩]
  blocks := [
    { id := 0
      instructions := [elementAddress 1 0]
      terminator := .suspend {
        kind := .async
        pos := samplePos
        successor := 1
        arguments := [.value 1]
        ownership := [false]
        invalidates := [0] } },
    { id := 1, parameters := [2], instructions := [loadInto 3 2], terminator := .return none }]

theorem resumedAddress_accepted_not_readsValid : verifyFunction { functions := [resumedAddress] } resumedAddress = [] ∧
    verifyAddressInvalidation resumedAddress = [] ∧
    ¬ ReadsValid (A := Nat) resumedAddress (fun _ _ => True) := by
  refine ⟨by decide, by decide, fun valid => ?_⟩
  have taken := @AddressRun.step Nat _ resumedAddress (fun _ _ => True) _ _ (.done (.address 7 false))
    (.start [.array 7]) rfl trivial
  have resumed := @AddressRun.step Nat _ resumedAddress (fun _ _ => True) _ _ (.resume .other) taken rfl trivial
  exact valid _ resumed 2 (by decide) 7 rfl

end Subscript.Lir
