import Mathlib.Data.Fintype.Fin
import Subscript.Reload.Padding

/-! The layout pass of the checker (`check/layout.rs`) computes in 64 bits and reports what is too large. It follows the
same rules as the builder, so what it accepts is built. -/

namespace Subscript.Reload

open List

inductive Outcome where
  | layout (size align : Nat)
  | tooLarge
  | invalid
  deriving DecidableEq

inductive Rejection where
  | classFieldLayoutLimit (name : String) (field : Ty)
  | classAlignmentBelowNatural (requested natural : Nat) (name : String)
  | classFinalAlignmentLimit (name : String)
  | storedAggregateLayoutLimit (ty : Ty)

namespace Validator

def roundUp (value align : Nat) : Outcome :=
  if align = 0 then .invalid
  else
    let mask := align - 1
    let sum := value + mask
    if sum < 2 ^ 64 then
      -- the bits of the sum outside of the mask
      let rounded := sum - (sum &&& mask)
      if rounded > maxAggregateBytes then .tooLarge else .layout rounded align
    else .tooLarge

def arrayLayout (elem : Outcome) (length : Nat) : Outcome :=
  match elem with
  | .layout size align =>
    match roundUp size align with
    | .layout stride _ =>
      if stride * length < 2 ^ 64 then
        if stride * length > maxAggregateBytes then .tooLarge else .layout (stride * length) align
      else .tooLarge
    | _ => .tooLarge
  | other => other

def iterResultLayout (value : Outcome) : Outcome :=
  match value with
  | .layout size align =>
    match roundUp 1 (max align 1) with
    | .layout offset _ => if offset + size < 2 ^ 64 then roundUp (offset + size) (max align 1) else .tooLarge
    | _ => .tooLarge
  | other => other

def independentTypeLayout : Ty → Outcome
  | .fixedArray elem length => arrayLayout (independentTypeLayout elem) length
  | .iterResult value => iterResultLayout (independentTypeLayout value)
  | ty =>
    match scalarSizeAlign ty with
    | .ok (size, align) => .layout size align
    | .error _ => .invalid

/-- the outcomes so far and what was reported -/
structure Pass where
  states : List (Option Outcome)
  diagnostics : List Rejection

def Pass.reject (p : Pass) (r : Rejection) : Pass := { p with diagnostics := p.diagnostics ++ [r] }

variable (shapes : List ClassShape)

/-- `none` is a bound on the nesting that was met -/
def typeLayout (classLayout : ClassId → Pass → Option (Outcome × Pass)) : Ty → Pass → Option (Outcome × Pass)
  | .cls id, p =>
    match shapes[id]? with
    | none => some (.invalid, p)
    | some c => if c.isValue then classLayout id p else some (.layout 8 8, p)
  | .fixedArray elem length, p => do
    let (o, p) ← typeLayout classLayout elem p
    return (arrayLayout o length, p)
  | .iterResult value, p => do
    let (o, p) ← typeLayout classLayout value p
    return (iterResultLayout o, p)
  | ty, p => some (independentTypeLayout ty, p)

/-- the loop over the fields; without a size and an alignment it was left -/
def placeFields (typeLayout : Ty → Pass → Option (Outcome × Pass)) (name : String) :
    List Ty → Nat → Nat → Pass → Option (Option (Nat × Nat) × Pass)
  | [], size, align, p => some (some (size, align), p)
  | field :: fields, size, align, p => do
    let (o, p) ← typeLayout field p
    match o with
    | .layout fs fa =>
      match roundUp size fa with
      | .layout aligned _ =>
        if aligned + fs < 2 ^ 64 ∧ aligned + fs ≤ maxAggregateBytes then
          placeFields typeLayout name fields (aligned + fs) (max align fa) p
        else return (none, p.reject (.classFieldLayoutLimit name field))
      | _ => return (none, p.reject (.classFieldLayoutLimit name field))
    | _ => return (none, p)

/-- the report on an alignment below the natural one -/
def checkOverride (c : ClassShape) (natural : Nat) (p : Pass) : Pass :=
  match c.alignment with
  | some requested =>
    if requested < natural then p.reject (.classAlignmentBelowNatural requested natural c.name) else p
  | none => p

/-- the outcome of a class whose fields are placed -/
def finish (c : ClassShape) (placed : Option (Nat × Nat)) (p : Pass) : Outcome × Pass :=
  match placed with
  | none => (.invalid, p)
  | some (size, natural) =>
    let p := checkOverride c natural p
    match roundUp (max size 1) (withOverride natural c.alignment) with
    | .layout size align => (.layout size align, p)
    | _ => (.tooLarge, p.reject (.classFinalAlignmentLimit c.name))

def classLayout : Nat → List ClassId → ClassId → Pass → Option (Outcome × Pass)
  | 0, _, _, _ => none
  | fuel + 1, visiting, id, p =>
    match p.states[id]? with
    | some (some o) => some (o, p)
    | _ =>
      match shapes[id]? with
      | none => some (.invalid, p)
      | some c =>
        if id ∈ visiting then some (.invalid, p)
        else do
          let nested := typeLayout shapes (classLayout fuel (id :: visiting))
          let (placed, p) ← placeFields nested c.name c.fields 0 1 p
          let (o, p) := finish c placed p
          return (o, { p with states := p.states.set id (some o) })

/-- the arrays whose layout waits for the classes -/
def validatePending : List Ty → Pass → Option Pass
  | [], p => some p
  | ty :: pending, p => do
    let (o, p) ← typeLayout shapes (classLayout shapes (shapes.length + 1) []) ty p
    validatePending pending (if o = .tooLarge then p.reject (.storedAggregateLayoutLimit ty) else p)

def validateClasses : List ClassId → Pass → Option Pass
  | [], p => some p
  | id :: ids, p => do
    let (_, p) ← classLayout shapes (shapes.length + 1) [] id p
    validateClasses ids p

def validate (pending : List Ty) : Option Pass := do
  let p ← validatePending shapes pending ⟨List.replicate shapes.length none, []⟩
  validateClasses shapes (List.range shapes.length) p

end Validator

/-- a value of the class lies in a value of the type -/
def Embeds (shapes : List ClassShape) : Ty → ClassId → Prop
  | .cls id, c => c = id ∧ ∃ s, shapes[id]? = some s ∧ s.isValue = true
  | .fixedArray elem _, c => Embeds shapes elem c
  | .iterResult value, c => Embeds shapes value c
  | _, _ => False

def Contains (shapes : List ClassShape) (id c : ClassId) : Prop :=
  ∃ s, shapes[id]? = some s ∧ ∃ field ∈ s.fields, Embeds shapes field c

/-- The type of a field as it comes out of type resolution: classes exist, an array that is too large by itself was
replaced, one that depends on a class waits for the pass, and the result of an iterator is not a field. -/
def Resolved (shapes : List ClassShape) (pending : List Ty) : Ty → Prop
  | .cls id => id < shapes.length
  | .fixedArray elem n => Resolved shapes pending elem ∧
    match Validator.independentTypeLayout (.fixedArray elem n) with
    | .layout _ _ => True
    | .tooLarge => False
    | .invalid => .fixedArray elem n ∈ pending
  | .iterResult _ => False
  | _ => True

/-- the classes of a checked module, with the alignments that the decorator takes -/
structure CheckedClasses where
  shapes : List ClassShape
  pending : List Ty
  resolved : ∀ c ∈ shapes, ∀ field ∈ c.fields, Resolved shapes pending field
  overrides : ∀ c ∈ shapes, ∀ requested ∈ c.alignment, requested ∈ [2, 4, 8, 16]

section Rules

variable {shapes : List ClassShape} {pending : List Ty}

/-- the alignments are small powers of two -/
structure SmallOverrides (shapes : List ClassShape) : Prop where
  mem : ∀ {id : ClassId} {c : ClassShape}, shapes[id]? = some c → ∀ requested ∈ c.alignment, requested ∈ [2, 4, 8, 16]

variable {id : ClassId}

theorem SmallOverrides.withOverride (h : SmallOverrides shapes) {c : ClassShape} (hc : shapes[id]? = some c)
    {align : Nat} (hp : align.isPowerOfTwo) (hle : align ≤ 16) :
    (Reload.withOverride align c.alignment).isPowerOfTwo ∧ Reload.withOverride align c.alignment ≤ 16 := by
  cases hover : c.alignment with
  | none => exact ⟨hp, hle⟩
  | some requested =>
    have small : requested.isPowerOfTwo ∧ requested ≤ 16 := by
      have mem := h.mem hc requested hover
      simp only [mem_cons, not_mem_nil, or_false] at mem
      rcases mem with rfl | rfl | rfl | rfl <;> decide
    exact ⟨isPowerOfTwo_max hp small.1, Nat.max_le.2 ⟨hle, small.2⟩⟩

theorem scalarSizeAlign_small {ty : Ty} {s a : Nat} (h : scalarSizeAlign ty = .ok (s, a)) : a ≤ 16 := by
  revert h
  unfold scalarSizeAlign
  split <;> intro h <;> first | (cases h; decide) | (cases h)

mutual

theorem Sized.small (ho : SmallOverrides shapes) {ty : Ty} {s a : Nat} : Sized shapes ty s a → a ≤ 16
  | .scalar h => scalarSizeAlign_small h
  | .reference _ _ => by decide
  | .value _ _ hl => hl.small ho
  | .fixedArray he _ _ => he.small ho
  | .iterResult hv _ _ _ => Nat.max_le.2 ⟨hv.small ho, by decide⟩

theorem Placed.small (ho : SmallOverrides shapes) {fields : List Ty} {size align s a : Nat} {offsets : List Nat} :
    Placed shapes fields size align offsets s a → align ≤ 16 → a ≤ 16
  | .nil, h => h
  | .cons hf _ _ hrest, h => hrest.small ho (Nat.max_le.2 ⟨h, hf.small ho⟩)

theorem LaidOut.small (ho : SmallOverrides shapes) {id : ClassId} {l : ClassLayout} : LaidOut shapes id l → l.align ≤ 16
  | .intro hc hp _ => (ho.withOverride hc (hp.spec ⟨0, rfl⟩).2.1.1 (hp.small ho (by decide))).2

end

mutual

theorem Sized.acc {ty : Ty} {s a : Nat} {c : ClassId} :
    Sized shapes ty s a → Embeds shapes ty c → Acc (fun x y => Contains shapes y x) c
  | .scalar h, hc => by cases ty <;> first | exact hc.elim | cases h
  | .reference hs href, hc => by
    obtain ⟨-, s, hs', hval⟩ := hc
    rw [hs] at hs'
    cases hs'
    rw [href] at hval
    cases hval
  | .value _ _ hl, hc => hc.1 ▸ hl.acc
  | .fixedArray he _ _, hc => he.acc hc
  | .iterResult hv _ _ _, hc => hv.acc hc

theorem Placed.acc {fields : List Ty} {size align s a : Nat} {offsets : List Nat} {c : ClassId} :
    Placed shapes fields size align offsets s a → ∀ field ∈ fields, Embeds shapes field c →
      Acc (fun x y => Contains shapes y x) c
  | .nil, _, hf, _ => absurd hf not_mem_nil
  | .cons hfield _ _ hrest, f, hf, hc => by
    have first := hfield.acc (c := c)
    have rest := hrest.acc f (c := c)
    rcases mem_cons.1 hf with rfl | hf
    · exact first hc
    · exact rest hf hc

theorem LaidOut.acc {id : ClassId} {l : ClassLayout} : LaidOut shapes id l → Acc (fun x y => Contains shapes y x) id
  | .intro hc hp _ => by
    have fields := fun c => hp.acc (c := c)
    refine Acc.intro _ fun c hcontains => ?_
    obtain ⟨s, hs, field, hf, hembeds⟩ := hcontains
    obtain rfl := Option.mem_unique hs hc
    exact fields c field hf hembeds

end

/-- a class with a layout is not inside of itself -/
theorem LaidOut.not_contains {l : ClassLayout} (h : LaidOut shapes id l) :
    ¬ Relation.TransGen (Contains shapes) id id := by
  intro hcycle
  have hacc := acc_transGen_iff.2 h.acc
  have hswap : Relation.TransGen (fun x y => Contains shapes y x) id id := Relation.transGen_swap.2 hcycle
  clear h hcycle
  induction hacc with
  | intro x _ ih => exact ih x hswap hswap

/-- the classes in progress contain what the innermost one contains -/
theorem contains_path {visiting : List ClassId} {child : ClassId}
    (hpath : ∀ v ∈ visiting, Relation.TransGen (Contains shapes) v id) (h : Contains shapes id child) :
    ∀ v ∈ id :: visiting, Relation.TransGen (Contains shapes) v child := by
  intro v hv
  rcases mem_cons.1 hv with rfl | hv
  · exact .single h
  · exact (hpath v hv).tail h

end Rules

section Arithmetic

variable {value align n s a : Nat}

theorem roundUp_eq_ok (hp : align.isPowerOfTwo) (hs : align ≤ 16) :
    roundUp value align = .ok n ↔ n = roundedUp value align ∧ n ≤ maxAggregateBytes := by
  refine ⟨fun h => (of_roundUp h).2, ?_⟩
  rintro ⟨rfl, hle⟩
  have hpos := Nat.pos_of_isPowerOfTwo hp
  have hmod := Nat.div_add_mod (value + (align - 1)) align
  have hlt := Nat.mod_lt (value + (align - 1)) hpos
  have hsum : value + (align - 1) < 2 ^ 32 := by
    unfold roundedUp maxAggregateBytes at hle
    rw [Nat.mul_comm] at hle
    omega
  simp only [roundUp, isPowerOfTwo_iff, hp, if_true, hsum]
  exact ensureSupportedSize_eq_ok.2 ⟨rfl, hle⟩

theorem Validator.roundUp_eq (hp : align.isPowerOfTwo) (hs : align ≤ 16) : Validator.roundUp value align =
    if roundedUp value align ≤ maxAggregateBytes then .layout (roundedUp value align) align else .tooLarge := by
  have hpos := Nat.pos_of_isPowerOfTwo hp
  have hmod := Nat.div_add_mod (value + (align - 1)) align
  have hlt := Nat.mod_lt (value + (align - 1)) hpos
  -- clearing the low bits is rounding down
  have hmask : value + (align - 1) - (value + (align - 1) &&& align - 1) = roundedUp value align := by
    obtain ⟨k, rfl⟩ := hp
    rw [Nat.and_two_pow_sub_one_eq_mod, roundedUp, Nat.mul_comm]
    omega
  unfold Validator.roundUp
  rw [if_neg (Nat.pos_iff_ne_zero.1 hpos)]
  dsimp only
  rw [hmask]
  split
  case isTrue => split <;> split <;> first | rfl | omega
  case isFalse large =>
    rw [if_neg]
    unfold roundedUp maxAggregateBytes
    rw [Nat.mul_comm]
    omega

end Arithmetic

section Spec

variable {shapes : List ClassShape}

/-- the outcome is the layout that the rules give, if they give one -/
def Fits (shapes : List ClassShape) (ty : Ty) (o : Outcome) : Prop := ∀ s a, o = .layout s a ↔ Sized shapes ty s a

variable {o : Outcome}

theorem Fits.array (ho : SmallOverrides shapes) {elem : Ty} (h : Fits shapes elem o) (n : Nat) :
    Fits shapes (.fixedArray elem n) (Validator.arrayLayout o n) := by
  intro s a
  constructor
  · intro heq
    cases o with
    | tooLarge | invalid => cases heq
    | layout es ea =>
      have he := (h es ea).1 rfl
      have hp := he.aligned.1
      have hsmall := he.small ho
      simp only [Validator.arrayLayout, Validator.roundUp_eq hp hsmall] at heq
      split at heq
      case h_2 => cases heq
      case h_1 stride _ hstride =>
        split at hstride <;> cases hstride
        split at heq
        case isFalse => cases heq
        case isTrue =>
          split at heq <;> cases heq
          exact .fixedArray he ((roundUp_eq_ok hp hsmall).2 ⟨rfl, ‹_›⟩) (checkedMulSize_eq_ok.2 ⟨rfl, by omega⟩)
  · intro hsized
    cases hsized with
    | scalar h => cases h
    | fixedArray he hr hm =>
      obtain ⟨hp, rfl, hle⟩ := of_roundUp hr
      obtain ⟨rfl, hle'⟩ := checkedMulSize_eq_ok.1 hm
      rw [(h _ _).2 he]
      simp only [Validator.arrayLayout, Validator.roundUp_eq hp (he.small ho), if_pos hle]
      rw [if_pos, if_neg (Nat.not_lt.2 hle')]
      unfold maxAggregateBytes at hle'
      omega

theorem Fits.iterResult (ho : SmallOverrides shapes) {v : Ty} {o : Outcome} (h : Fits shapes v o) :
    Fits shapes (.iterResult v) (Validator.iterResultLayout o) := by
  intro s a
  constructor
  · intro heq
    cases o with
    | tooLarge | invalid => cases heq
    | layout vs va =>
      have hv := (h vs va).1 rfl
      have hp : (max va 1).isPowerOfTwo := isPowerOfTwo_max hv.aligned.1 ⟨0, rfl⟩
      have hsmall : max va 1 ≤ 16 := Nat.max_le.2 ⟨hv.small ho, by decide⟩
      simp only [Validator.iterResultLayout, Validator.roundUp_eq hp hsmall] at heq
      split at heq
      case h_2 => cases heq
      case h_1 offset _ hoffset =>
        split at hoffset <;> cases hoffset
        split at heq
        case isFalse => cases heq
        case isTrue =>
          split at heq <;> cases heq
          refine .iterResult hv ((roundUp_eq_ok hp hsmall).2 ⟨rfl, ‹_›⟩) (checkedAddSize_eq_ok.2 ⟨rfl, ?_⟩)
            ((roundUp_eq_ok hp hsmall).2 ⟨rfl, ‹_›⟩)
          exact (le_roundedUp (Nat.pos_of_isPowerOfTwo hp)).trans ‹_›
  · intro hsized
    cases hsized with
    | scalar h => cases h
    | iterResult hv hoff hadd hr =>
      have hsmall : max _ 1 ≤ 16 := Nat.max_le.2 ⟨hv.small ho, by decide⟩
      obtain ⟨hp, rfl, hle⟩ := of_roundUp hoff
      obtain ⟨rfl, hle'⟩ := checkedAddSize_eq_ok.1 hadd
      obtain ⟨-, rfl, hle''⟩ := of_roundUp hr
      rw [(h _ _).2 hv]
      simp only [Validator.iterResultLayout, Validator.roundUp_eq hp hsmall, if_pos hle, if_pos hle'']
      rw [if_pos]
      unfold maxAggregateBytes at hle'
      omega

variable {ty : Ty}

theorem fits_scalar (h : ∀ s a, o = .layout s a ↔ scalarSizeAlign ty = .ok (s, a))
    (hty : (∀ id, ty ≠ .cls id) ∧ (∀ e n, ty ≠ .fixedArray e n) ∧ ∀ v, ty ≠ .iterResult v) : Fits shapes ty o := by
  intro s a
  rw [h]
  refine ⟨.scalar, fun hsized => ?_⟩
  cases hsized with
  | scalar h => exact h
  | reference => exact absurd rfl (hty.1 _)
  | value => exact absurd rfl (hty.1 _)
  | fixedArray => exact absurd rfl (hty.2.1 _ _)
  | iterResult => exact absurd rfl (hty.2.2 _)

variable {s a : Nat}

theorem Fits.of_sized (h : Sized shapes ty s a) : Fits shapes ty (.layout s a) := by
  intro s' a'
  constructor
  · rintro ⟨⟩
    exact h
  · intro h'
    obtain ⟨rfl, rfl⟩ := h.agree (.refl shapes) h'
    rfl

/-- an array that fits without the classes fits -/
theorem sized_of_independent (ho : SmallOverrides shapes)
    (h : Validator.independentTypeLayout ty = .layout s a) : Sized shapes ty s a := by
  fun_induction Validator.independentTypeLayout ty generalizing s a with
  | case1 elem length ih =>
    cases he : Validator.independentTypeLayout elem with
    | tooLarge | invalid =>
      rw [he] at h
      cases h
    | layout es ea =>
      rw [he] at h
      exact ((Fits.of_sized (ih he)).array ho length s a).1 h
  | case2 value ih =>
    cases hv : Validator.independentTypeLayout value with
    | tooLarge | invalid =>
      rw [hv] at h
      cases h
    | layout vs va =>
      rw [hv] at h
      exact ((Fits.of_sized (ih hv)).iterResult ho s a).1 h
  | case3 ty _ _ size align hok =>
    cases h
    exact .scalar hok
  | case4 => cases h

/-- the outcome of a class -/
def FitsClass (shapes : List ClassShape) (id : ClassId) (o : Outcome) : Prop :=
  ∀ s a, o = .layout s a ↔ ∃ l, LaidOut shapes id l ∧ l.size = s ∧ l.align = a

/-- a class without a layout was reported, or a field has none -/
def Blamed (shapes : List ClassShape) (p : Validator.Pass) (id : ClassId) : Prop :=
  p.diagnostics ≠ [] ∨ ∃ c, shapes[id]? = some c ∧ ∃ field ∈ c.fields, ∀ s a, ¬ Sized shapes field s a

/-- the pass remembers only what the rules give, and why they give nothing -/
structure Sound (shapes : List ClassShape) (p : Validator.Pass) : Prop where
  length : p.states.length = shapes.length
  fits : ∀ {id : ClassId} {o : Outcome}, p.states[id]? = some (some o) → FitsClass shapes id o
  blamed : ∀ {id : ClassId} {o : Outcome}, p.states[id]? = some (some o) → (∀ s a, o ≠ .layout s a) → Blamed shapes p id

/-- what a step of the pass keeps -/
structure Grows (p p' : Validator.Pass) : Prop where
  states : ∀ {id : ClassId} {o : Outcome}, p.states[id]? = some (some o) → p'.states[id]? = some (some o)
  diagnostics : p'.diagnostics = [] → p.diagnostics = []

theorem Grows.refl (p : Validator.Pass) : Grows p p := ⟨id, id⟩

variable {p q : Validator.Pass}

theorem Grows.trans {r : Validator.Pass} (h : Grows p q) (h' : Grows q r) : Grows p r :=
  ⟨fun hs => h'.states (h.states hs), fun hd => h.diagnostics (h'.diagnostics hd)⟩

theorem Grows.reject (p : Validator.Pass) (r : Rejection) : Grows p (p.reject r) :=
  ⟨id, fun h => absurd h (by simp [Validator.Pass.reject])⟩

theorem reject_ne_nil (p : Validator.Pass) (r : Rejection) : (p.reject r).diagnostics ≠ [] := by
  simp [Validator.Pass.reject]

variable {id : ClassId}

theorem Blamed.mono {p' : Validator.Pass} (h : Blamed shapes p id)
    (hd : p'.diagnostics = [] → p.diagnostics = []) : Blamed shapes p' id :=
  h.imp_left (mt hd)

theorem Sound.reject (h : Sound shapes p) (r : Rejection) : Sound shapes (p.reject r) :=
  ⟨h.length, h.fits, fun hs ho => (h.blamed hs ho).mono (Grows.reject p r).diagnostics⟩

/-- a call of the pass that answers as the rules do -/
def Answers (shapes : List ClassShape) {α : Type} (call : Validator.Pass → Option (α × Validator.Pass))
    (Q : α → Validator.Pass → Prop) : Prop :=
  ∀ p, Sound shapes p → ∃ x p', call p = some (x, p') ∧ Sound shapes p' ∧ Grows p p' ∧ Q x p'

theorem typeLayout_answers (ho : SmallOverrides shapes) {layoutOf : ClassId → Validator.Pass → Option (Outcome × Validator.Pass)}
    (hlayout : ∀ id, Embeds shapes ty id → Answers shapes (layoutOf id) fun o _ => FitsClass shapes id o) :
    Answers shapes (Validator.typeLayout shapes layoutOf ty) fun o _ => Fits shapes ty o := by
  intro p hp
  fun_induction Validator.typeLayout shapes layoutOf ty p with
  | case1 id p hnone =>
    refine ⟨_, _, rfl, hp, .refl p, fun s a => iff_of_false (by simp) fun h => ?_⟩
    cases h with
    | scalar h => cases h
    | reference hc _ => simp [hnone] at hc
    | value hc _ _ => simp [hnone] at hc
  | case2 id p c hc hval =>
    obtain ⟨o, p', hcall, hsound, hgrows, hfits⟩ := hlayout id ⟨rfl, c, hc, hval⟩ p hp
    refine ⟨o, p', hcall, hsound, hgrows, fun s a => (hfits s a).trans ⟨?_, fun h => ?_⟩⟩
    · rintro ⟨l, hl, rfl, rfl⟩
      exact .value hc hval hl
    · cases h with
      | scalar h => cases h
      | reference hc' href => simp [Option.mem_unique hc hc', href] at hval
      | value _ _ hl => exact ⟨_, hl, rfl, rfl⟩
  | case3 id p c hc href =>
    exact ⟨_, _, rfl, hp, .refl p, .of_sized (.reference hc (by simpa using href))⟩
  | case4 elem length p ih =>
    obtain ⟨o, p', hcall, hsound, hgrows, hfits⟩ := ih hlayout hp
    exact ⟨_, p', by rw [hcall]; rfl, hsound, hgrows, hfits.array ho length⟩
  | case5 value p ih =>
    obtain ⟨o, p', hcall, hsound, hgrows, hfits⟩ := ih hlayout hp
    exact ⟨_, p', by rw [hcall]; rfl, hsound, hgrows, hfits.iterResult ho⟩
  | case6 ty p hcls harr hiter =>
    refine ⟨_, _, rfl, hp, .refl p, fits_scalar (fun s a => ?_) ⟨hcls, harr, hiter⟩⟩
    unfold Validator.independentTypeLayout
    split
    · exact absurd rfl (harr _ _)
    · exact absurd rfl (hiter _)
    · cases scalarSizeAlign ty <;> simp [Prod.ext_iff]

variable {fields : List Ty}

/-- the placement of a field whose size is known -/
theorem placed_cons_iff {field : Ty} {size align fs fa : Nat} (hf : Sized shapes field fs fa)
    (hsmall : fa ≤ 16) : (∃ offsets, Placed shapes (field :: fields) size align offsets s a) ↔
      roundedUp size fa ≤ maxAggregateBytes ∧ roundedUp size fa + fs ≤ maxAggregateBytes ∧
      ∃ offsets, Placed shapes fields (roundedUp size fa + fs) (max align fa) offsets s a := by
  constructor
  · rintro ⟨_, hplaced⟩
    cases hplaced with
    | cons hf' hoff hadd hrest =>
      obtain ⟨rfl, rfl⟩ := hf'.agree (.refl shapes) hf
      obtain ⟨-, rfl, hle⟩ := of_roundUp hoff
      obtain ⟨rfl, hle'⟩ := checkedAddSize_eq_ok.1 hadd
      exact ⟨hle, hle', _, hrest⟩
  · rintro ⟨hle, hle', offsets, hrest⟩
    exact ⟨_, .cons hf ((roundUp_eq_ok hf.aligned.1 hsmall).2 ⟨rfl, hle⟩) (checkedAddSize_eq_ok.2 ⟨rfl, hle'⟩) hrest⟩

theorem placeFields_answers (ho : SmallOverrides shapes) {measure : Ty → Validator.Pass → Option (Outcome × Validator.Pass)}
    (name : String) (hm : ∀ f ∈ fields, Answers shapes (measure f) fun o _ => Fits shapes f o)
    (size align : Nat) :
    Answers shapes (Validator.placeFields measure name fields size align) fun r p =>
      (∀ s a, r = some (s, a) ↔ ∃ offsets, Placed shapes fields size align offsets s a) ∧
      (r = none → p.diagnostics ≠ [] ∨ ∃ f ∈ fields, ∀ s a, ¬ Sized shapes f s a) := by
  induction fields generalizing size align with
  | nil =>
    intro p hp
    refine ⟨_, _, rfl, hp, .refl p, fun s a => ⟨?_, ?_⟩, by simp⟩
    · rintro ⟨⟩
      exact ⟨[], .nil⟩
    · rintro ⟨_, ⟨⟩⟩
      rfl
  | cons field fields ih =>
    intro p hp
    obtain ⟨o, p₁, hcall, hp₁, hg₁, hfits⟩ := hm field mem_cons_self p hp
    cases o with
    | tooLarge | invalid =>
      have unsized : ∀ s a, ¬ Sized shapes field s a := fun s a h => by cases (hfits s a).2 h
      refine ⟨none, p₁, by simp [Validator.placeFields, hcall], hp₁, hg₁, fun s a => iff_of_false (by simp) ?_,
        fun _ => .inr ⟨field, mem_cons_self, unsized⟩⟩
      rintro ⟨_, ⟨⟩⟩
      exact unsized _ _ ‹_›
    | layout fs fa =>
      have hf := (hfits fs fa).1 rfl
      have hsmall := hf.small ho
      have hround : Validator.roundUp size fa = _ := Validator.roundUp_eq hf.aligned.1 hsmall
      have hreject := hp₁.reject (.classFieldLayoutLimit name field)
      have hgrows := hg₁.trans (.reject p₁ (.classFieldLayoutLimit name field))
      by_cases hle : roundedUp size fa ≤ maxAggregateBytes
      · by_cases hadd : roundedUp size fa + fs ≤ maxAggregateBytes
        · have hin : roundedUp size fa + fs < 2 ^ 64 ∧ roundedUp size fa + fs ≤ maxAggregateBytes :=
            ⟨by unfold maxAggregateBytes at hadd; omega, hadd⟩
          obtain ⟨r, p₂, hcall₂, hp₂, hg₂, hr, hwhy⟩ :=
            ih (fun f hmem => hm f (mem_cons_of_mem _ hmem)) (roundedUp size fa + fs) (max align fa) p₁ hp₁
          refine ⟨r, p₂, ?_, hp₂, hg₁.trans hg₂, fun s a => ?_, fun hnone => ?_⟩
          · simp only [Validator.placeFields, hcall, hround, if_pos hle, Option.bind_eq_bind, Option.bind_some]
            rw [if_pos hin, hcall₂]
          · rw [hr, placed_cons_iff hf hsmall]
            exact ⟨fun h => ⟨hle, hadd, h⟩, fun h => h.2.2⟩
          · refine (hwhy hnone).imp_right ?_
            rintro ⟨f, hmem, h⟩
            exact ⟨f, mem_cons_of_mem _ hmem, h⟩
        · exact ⟨none, _, by simp [Validator.placeFields, hcall, hround, if_pos hle, hadd], hreject, hgrows,
            fun s a => iff_of_false (by simp) fun h => hadd ((placed_cons_iff hf hsmall).1 h).2.1,
            fun _ => .inl (reject_ne_nil _ _)⟩
      · exact ⟨none, _, by simp [Validator.placeFields, hcall, hround, hle], hreject, hgrows,
          fun s a => iff_of_false (by simp) fun h => hle ((placed_cons_iff hf hsmall).1 h).1,
          fun _ => .inl (reject_ne_nil _ _)⟩

theorem Grows.checkOverride (c : ClassShape) (natural : Nat) (p : Validator.Pass) :
    Grows p (Validator.checkOverride c natural p) := by
  unfold Validator.checkOverride
  split
  · split
    exacts [.reject _ _, .refl p]
  · exact .refl p

theorem Sound.checkOverride (h : Sound shapes p) (c : ClassShape) (natural : Nat) :
    Sound shapes (Validator.checkOverride c natural p) := by
  unfold Validator.checkOverride
  split
  · split
    exacts [h.reject _, h]
  · exact h

variable {c : ClassShape}

theorem laidOut_iff (hc : shapes[id]? = some c) :
    (∃ l, LaidOut shapes id l ∧ l.size = s ∧ l.align = a) ↔ ∃ offsets size align, Placed shapes c.fields 0 1 offsets size align ∧
      roundUp (max size 1) (withOverride align c.alignment) = .ok s ∧ a = withOverride align c.alignment := by
  constructor
  · rintro ⟨_, ⟨hc', hp, hr⟩, rfl, rfl⟩
    obtain rfl := Option.mem_unique hc' hc
    exact ⟨_, _, _, hp, hr, rfl⟩
  · rintro ⟨_, _, _, hp, hr, rfl⟩
    exact ⟨_, .intro hc hp hr, rfl, rfl⟩

/-- the last step for a class -/
theorem finish_spec (ho : SmallOverrides shapes) (hc : shapes[id]? = some c)
    {placed : Option (Nat × Nat)} (hp : Sound shapes p)
    (hplaced : ∀ s a, placed = some (s, a) ↔ ∃ offsets, Placed shapes c.fields 0 1 offsets s a)
    (hwhy : placed = none → p.diagnostics ≠ [] ∨ ∃ f ∈ c.fields, ∀ s a, ¬ Sized shapes f s a) :
    Sound shapes (Validator.finish c placed p).2 ∧ Grows p (Validator.finish c placed p).2 ∧
      FitsClass shapes id (Validator.finish c placed p).1 ∧
      ((∀ s a, (Validator.finish c placed p).1 ≠ .layout s a) → Blamed shapes (Validator.finish c placed p).2 id) := by
  cases placed with
  | none =>
    refine ⟨hp, .refl p, fun s a => iff_of_false (by simp [Validator.finish]) fun h => ?_, fun _ => ?_⟩
    · obtain ⟨_, _, _, hplaced', -⟩ := (laidOut_iff hc).1 h
      cases (hplaced _ _).2 ⟨_, hplaced'⟩
    · exact (hwhy rfl).imp_right fun h => ⟨c, hc, h⟩
  | some r =>
    obtain ⟨size, natural⟩ := r
    obtain ⟨offsets, hfields⟩ := (hplaced size natural).1 rfl
    obtain ⟨htop, hsmall⟩ := ho.withOverride hc (hfields.spec ⟨0, rfl⟩).2.1.1 (hfields.small ho (by decide))
    have hround : Validator.roundUp (max size 1) _ = _ := Validator.roundUp_eq htop hsmall
    have unique {s a : Nat} (h : ∃ l, LaidOut shapes id l ∧ l.size = s ∧ l.align = a) :
        s = roundedUp (max size 1) (withOverride natural c.alignment) ∧ s ≤ maxAggregateBytes ∧
          a = withOverride natural c.alignment := by
      obtain ⟨_, _, _, hfields', hr, rfl⟩ := (laidOut_iff hc).1 h
      obtain ⟨rfl, rfl, rfl⟩ := hfields'.agree (.refl shapes) hfields
      exact ⟨(of_roundUp hr).2.1, (of_roundUp hr).2.2, rfl⟩
    simp only [Validator.finish, hround]
    by_cases hle : roundedUp (max size 1) (withOverride natural c.alignment) ≤ maxAggregateBytes
    · simp only [if_pos hle]
      refine ⟨hp.checkOverride c natural, .checkOverride c natural p, fun s a => ⟨?_, fun h => ?_⟩, by simp⟩
      · rintro ⟨⟩
        exact (laidOut_iff hc).2 ⟨_, _, _, hfields, (roundUp_eq_ok htop hsmall).2 ⟨rfl, hle⟩, rfl⟩
      · obtain ⟨rfl, -, rfl⟩ := unique h
        rfl
    · simp only [if_neg hle]
      refine ⟨(hp.checkOverride c natural).reject _, (Grows.checkOverride c natural p).trans (.reject _ _),
        fun s a => iff_of_false (by simp) fun h => ?_, fun _ => .inl (reject_ne_nil _ _)⟩
      obtain ⟨rfl, hle', -⟩ := unique h
      exact hle hle'

/-- what the pass remembers of one more class -/
theorem Sound.set (hq : Sound shapes q) (hg : Grows p q)
    (hfits : FitsClass shapes id o) (hblamed : (∀ s a, o ≠ .layout s a) → Blamed shapes q id) (hlt : id < shapes.length)
    (hnew : ∀ o, p.states[id]? ≠ some (some o)) :
    Sound shapes { q with states := q.states.set id (some o) } ∧ Grows p { q with states := q.states.set id (some o) } ∧
      (q.states.set id (some o))[id]? = some (some o) := by
  have hself : (q.states.set id (some o))[id]? = some (some o) := by
    rw [getElem?_set_self (hq.length.symm ▸ hlt)]
  have entry {j : ClassId} {o' : Outcome} (h : (q.states.set id (some o))[j]? = some (some o')) :
      j = id ∧ o' = o ∨ q.states[j]? = some (some o') := by
    by_cases hj : j = id
    · subst hj
      rw [hself] at h
      cases h
      exact .inl ⟨rfl, rfl⟩
    · exact .inr (by rwa [getElem?_set_ne (Ne.symm hj)] at h)
  refine ⟨⟨by simpa using hq.length, fun h => ?_, fun h hbad => ?_⟩, ⟨fun {j o'} h => ?_, hg.diagnostics⟩, hself⟩
  · rcases entry h with ⟨rfl, rfl⟩ | h
    exacts [hfits, hq.fits h]
  · rcases entry h with ⟨rfl, rfl⟩ | h
    exacts [hblamed hbad, hq.blamed h hbad]
  · have hj : id ≠ j := fun hj => hnew o' (hj ▸ h)
    rw [getElem?_set_ne hj]
    exact hg.states h

theorem classLayout_answers (ho : SmallOverrides shapes) {fuel : Nat} {visiting : List ClassId} (hnodup : visiting.Nodup)
    (hrange : ∀ id ∈ visiting, id < shapes.length) (hfuel : fuel + visiting.length = shapes.length + 1)
    (hpath : ∀ v ∈ visiting, Relation.TransGen (Contains shapes) v id) :
    Answers shapes (Validator.classLayout shapes fuel visiting id) fun o p =>
      FitsClass shapes id o ∧ (id ∉ visiting → id < shapes.length → p.states[id]? = some (some o)) := by
  induction fuel generalizing visiting id with
  | zero =>
    have hsub : visiting ⊆ List.range shapes.length := fun id hid => mem_range.mpr (hrange id hid)
    have hle := (subperm_of_subset hnodup hsub).length_le
    rw [length_range] at hle
    omega
  | succ fuel ih =>
    intro p hp
    rw [Validator.classLayout]
    split
    next o hmemo => exact ⟨o, p, rfl, hp, .refl p, hp.fits hmemo, fun _ _ => hmemo⟩
    next hnew =>
      split
      next hnone =>
        refine ⟨_, p, rfl, hp, .refl p, fun s a => iff_of_false (by simp) ?_, fun _ hlt => ?_⟩
        · rintro ⟨_, ⟨hc, -, -⟩, -⟩
          simp [hnone] at hc
        · exact absurd hlt (Nat.not_lt.2 (getElem?_eq_none_iff.1 hnone))
      next c hc =>
        have hlt : id < shapes.length := (List.getElem?_eq_some_iff.mp hc).1
        split
        next hvisit =>
          -- a class in progress has come back to itself
          refine ⟨_, p, rfl, hp, .refl p, fun s a => iff_of_false (by simp) ?_, fun h => absurd hvisit h⟩
          rintro ⟨l, hl, -⟩
          exact hl.not_contains (hpath id hvisit)
        next hvisit =>
          have hfields : ∀ f ∈ c.fields, Answers shapes
              (Validator.typeLayout shapes (Validator.classLayout shapes fuel (id :: visiting)) f) fun o _ => Fits shapes f o := by
            intro f hf
            refine typeLayout_answers ho fun child hembeds => ?_
            have hcontains : Contains shapes id child := ⟨c, hc, f, hf, hembeds⟩
            intro q hq
            obtain ⟨o, q', hcall, hq', hg, hfits, -⟩ :=
              ih (nodup_cons.2 ⟨hvisit, hnodup⟩) (by simpa using ⟨hlt, hrange⟩) (by simp; omega)
                (contains_path hpath hcontains) q hq
            exact ⟨o, q', hcall, hq', hg, hfits⟩
          obtain ⟨placed, q, hcall, hq, hg, hplaced, hwhy⟩ := placeFields_answers ho c.name hfields 0 1 p hp
          obtain ⟨hsound, hgrows, hfits, hblamed⟩ := finish_spec ho hc hq hplaced hwhy
          obtain ⟨hset, hkeep, hself⟩ := hsound.set (hg.trans hgrows) hfits hblamed hlt hnew
          exact ⟨_, _, by simp [hcall], hset, hkeep, hfits, fun _ _ => hself⟩

end Spec

end Subscript.Reload
