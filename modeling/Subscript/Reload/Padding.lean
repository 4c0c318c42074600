import Mathlib.Tactic.Ring
import Subscript.Memory.Gaps
import Subscript.Reload.LayoutRules

/-! What a built table of layouts gives: fields and elements lie at multiples of their alignment and do not overlap, and
`padding_ranges` lists the bytes that belong to no scalar leaf. -/

namespace Subscript.Reload

namespace Layouts

variable (table : List ClassLayout)

def classAt (id : ClassId) : Layout ClassLayout :=
  match table[id]? with
  | some l => .ok l
  | none => internal s!"class id {id} out of range"

def sizeAlign : Ty → Layout (Nat × Nat)
  | .cls id => do
    let l ← classAt table id
    return if l.isValue then (l.size, l.align) else (8, 8)
  | .fixedArray elem n => do
    let (es, ea) ← sizeAlign elem
    let stride ← roundUp es ea
    return (← checkedMulSize stride n "FixedArray byte size", ea)
  | .iterResult v => do
    let (vs, va) ← sizeAlign v
    let a := max va 1
    let valueOffset ← roundUp 1 a
    let stop ← checkedAddSize valueOffset vs "IterResult layout"
    return (← roundUp stop a, a)
  | other => scalarSizeAlign other

def stride (elem : Ty) : Layout Nat := do
  let (s, a) ← sizeAlign table elem
  roundUp s a

/-- the range before a field -/
def paddingGap (base cursor offset : Nat) : Layout (List (Nat × Nat)) :=
  if cursor < offset then do
    let start ← checkedAddSize base cursor "padding range start"
    return [(start, ← checkedAddSize base offset "padding range end")]
  else return []

/-- the loop over the fields: the ranges before and inside each one, and the end of the last -/
def paddingFields (nested : Ty → Nat → Layout (List (Nat × Nat))) (base : Nat) :
    List (Ty × Nat) → Nat → Layout (List (Nat × Nat) × Nat)
  | [], cursor => .ok ([], cursor)
  | (field, offset) :: fields, cursor => do
    let gap ← paddingGap base cursor offset
    let fieldBase ← checkedAddSize base offset "padding field base"
    let inner ← nested field fieldBase
    let (fieldSize, _) ← sizeAlign table field
    let cursor ← checkedAddSize offset fieldSize "padding field end"
    let (ranges, cursor) ← paddingFields nested base fields cursor
    return (gap ++ (inner ++ ranges), cursor)

def paddingElements (element : Nat → Layout (List (Nat × Nat))) (base stride : Nat) : List Nat → Layout (List (Nat × Nat))
  | [] => .ok []
  | index :: rest => do
    let offset ← checkedMulSize index stride "padding array offset"
    let elementBase ← checkedAddSize base offset "padding element base"
    let inner ← element elementBase
    return inner ++ (← paddingElements element base stride rest)

/-- one level of classes; `nested` is for the fields -/
def paddingOf (nested : Ty → Nat → Layout (List (Nat × Nat))) : Ty → Nat → Layout (List (Nat × Nat))
  | .cls id, base => do
    let l ← classAt table id
    if l.isValue then do
      let (ranges, cursor) ← paddingFields table nested base (l.fieldTypes.zip l.fieldOffsets) 0
      if cursor < l.size then do
        let start ← checkedAddSize base cursor "padding tail start"
        return ranges ++ [(start, ← checkedAddSize base l.size "padding tail end")]
      else return ranges
    else return []
  | .fixedArray element length, base => do
    let stride ← stride table element
    paddingElements (paddingOf nested element) base stride (List.range length)
  | _, _ => return []

def collectPaddingRanges : Nat → Ty → Nat → Layout (List (Nat × Nat))
  | 0, _, _ => .error .outOfFuel
  | fuel + 1, ty, base => paddingOf table (collectPaddingRanges fuel) ty base

/-! The rules of the C layout for the table. -/

/-- neither a value class nor a fixed array -/
def IsLeaf : Ty → Prop
  | .cls id => ∃ l, table[id]? = some l ∧ l.isValue = false
  | .fixedArray _ _ => False
  | _ => True

/-- the byte at the offset belongs to a scalar leaf of a value of the type -/
inductive LeafByte : Ty → Nat → Prop where
  | leaf {ty : Ty} {s a b : Nat} (h : IsLeaf table ty) (hs : sizeAlign table ty = .ok (s, a)) (hb : b < s) : LeafByte ty b
  | field {id : ClassId} {l : ClassLayout} {field : Ty} {offset b : Nat} (hl : table[id]? = some l)
    (hv : l.isValue = true) (hf : (field, offset) ∈ l.fieldTypes.zip l.fieldOffsets) (hb : LeafByte field b) :
    LeafByte (.cls id) (offset + b)
  | element {elem : Ty} {n i d b : Nat} (hi : i < n) (hd : stride table elem = .ok d) (hb : LeafByte elem b) :
    LeafByte (.fixedArray elem n) (i * d + b)

/-- the sizes of a class and of what is in it -/
structure WellPlaced (l : ClassLayout) : Prop where
  length : l.fieldOffsets.length = l.fieldTypes.length
  size : l.align ∣ l.size
  field : ∀ p ∈ l.fieldTypes.zip l.fieldOffsets, ∃ s a, sizeAlign table p.1 = .ok (s, a) ∧
    a ∣ s ∧ a ∣ p.2 ∧ a ∣ l.align ∧ p.2 + s ≤ l.size
  apart : (l.fieldTypes.zip l.fieldOffsets).Pairwise fun p q =>
    ∀ s a, sizeAlign table p.1 = .ok (s, a) → p.2 + s ≤ q.2

/-- the layout is of the class: its kind, its fields, and the greatest alignment among them and the override -/
structure Of (c : ClassShape) (l : ClassLayout) : Prop where
  isValue : l.isValue = c.isValue
  fieldTypes : l.fieldTypes = c.fields
  align : ∃ aligns, List.Forall₂ (fun field a => ∃ s, sizeAlign table field = .ok (s, a)) c.fields aligns ∧
    l.align = withOverride (aligns.foldl max 1) c.alignment

end Layouts

section Arithmetic

variable {value align left right n size : Nat} {context : String}

theorem isPowerOfTwo_iff : isPowerOfTwo n = true ↔ n.isPowerOfTwo := by
  rw [← Nat.ne_zero_and_sub_one_eq_zero_iff_isPowerOfTwo]
  simp [isPowerOfTwo]

theorem ensureSupportedSize_eq_ok : ensureSupportedSize size context = .ok n ↔ n = size ∧ size ≤ maxAggregateBytes := by
  unfold ensureSupportedSize internal
  split
  case isTrue h => simp [h, eq_comm]
  case isFalse h => simp [h]

theorem checkedAddSize_eq_ok :
    checkedAddSize left right context = .ok n ↔ n = left + right ∧ left + right ≤ maxAggregateBytes := by
  unfold checkedAddSize
  split
  case isTrue h => exact ensureSupportedSize_eq_ok
  case isFalse h =>
    have large : ¬ left + right ≤ maxAggregateBytes := by
      unfold maxAggregateBytes
      omega
    simp [internal, large]

theorem checkedMulSize_eq_ok :
    checkedMulSize left right context = .ok n ↔ n = left * right ∧ left * right ≤ maxAggregateBytes := by
  unfold checkedMulSize
  split
  case isTrue h => exact ensureSupportedSize_eq_ok
  case isFalse h =>
    have large : ¬ left * right ≤ maxAggregateBytes := by
      unfold maxAggregateBytes
      omega
    simp [internal, large]

/-- `value` rounded up to a multiple of `align` -/
def roundedUp (value align : Nat) : Nat := (value + (align - 1)) / align * align

theorem of_roundUp (h : roundUp value align = .ok n) :
    align.isPowerOfTwo ∧ n = roundedUp value align ∧ n ≤ maxAggregateBytes := by
  simp only [roundUp, isPowerOfTwo_iff] at h
  split at h
  case isFalse => cases h
  case isTrue hp =>
    split at h
    case isFalse => cases h
    case isTrue =>
      obtain ⟨rfl, hle⟩ := ensureSupportedSize_eq_ok.1 h
      exact ⟨hp, rfl, hle⟩

theorem le_roundedUp (h : 0 < align) : value ≤ roundedUp value align := by
  have := Nat.div_add_mod (value + (align - 1)) align
  have := Nat.mod_lt (value + (align - 1)) h
  unfold roundedUp
  rw [Nat.mul_comm]
  omega

theorem dvd_roundedUp : align ∣ roundedUp value align := Nat.dvd_mul_left _ _

theorem roundedUp_of_dvd (h : 0 < align) (hd : align ∣ value) : roundedUp value align = value := by
  obtain ⟨k, rfl⟩ := hd
  unfold roundedUp
  rw [Nat.mul_add_div h, Nat.div_eq_of_lt (by omega), Nat.add_zero, Nat.mul_comm]

/-- of two powers of two the smaller one divides the larger -/
theorem dvd_of_le (hl : left.isPowerOfTwo) (hr : right.isPowerOfTwo) (h : left ≤ right) : left ∣ right := by
  obtain ⟨i, rfl⟩ := hl
  obtain ⟨j, rfl⟩ := hr
  exact Nat.pow_dvd_pow 2 ((Nat.pow_le_pow_iff_right (by decide)).1 h)

theorem isPowerOfTwo_max (hl : left.isPowerOfTwo) (hr : right.isPowerOfTwo) : (max left right).isPowerOfTwo := by
  rcases Nat.le_total left right with h | h
  · rwa [Nat.max_eq_right h]
  · rwa [Nat.max_eq_left h]

theorem le_withOverride (align : Nat) (alignment : Option Nat) : align ≤ withOverride align alignment := by
  cases alignment
  exacts [Nat.le_refl _, Nat.le_max_left _ _]

end Arithmetic

section Placement

variable {shapes : List ClassShape} {table : List ClassLayout} {ty : Ty} {s a : Nat}

theorem scalarSizeAlign_aligned (h : scalarSizeAlign ty = .ok (s, a)) : a.isPowerOfTwo ∧ a ∣ s := by
  have table : (s, a) ∈ [(1, 1), (2, 2), (4, 4), (8, 8), (16, 8), (0, 1)] := by
    revert h
    unfold scalarSizeAlign
    split <;> intro h <;> first | (cases h; decide) | (cases h)
  revert table
  simp only [List.mem_cons, List.not_mem_nil, or_false, Prod.mk.injEq]
  rintro (⟨rfl, rfl⟩ | ⟨rfl, rfl⟩ | ⟨rfl, rfl⟩ | ⟨rfl, rfl⟩ | ⟨rfl, rfl⟩ | ⟨rfl, rfl⟩) <;> decide

variable {id : ClassId} {l : ClassLayout}

theorem LaidOut.aligned : LaidOut shapes id l → l.align.isPowerOfTwo ∧ l.align ∣ l.size
  | .intro _ _ hr => by
    obtain ⟨hp, rfl, -⟩ := of_roundUp hr
    exact ⟨hp, dvd_roundedUp⟩

theorem Sized.aligned {ty : Ty} {s a : Nat} : Sized shapes ty s a → a.isPowerOfTwo ∧ a ∣ s
  | .scalar h => scalarSizeAlign_aligned h
  | .reference _ _ => by decide
  | .value _ _ hl => hl.aligned
  | .fixedArray _ hr hm => by
    obtain ⟨hp, rfl, -⟩ := of_roundUp hr
    obtain ⟨rfl, -⟩ := checkedMulSize_eq_ok.1 hm
    exact ⟨hp, Nat.dvd_mul_right_of_dvd dvd_roundedUp _⟩
  | .iterResult _ _ _ hr => by
    obtain ⟨hp, rfl, -⟩ := of_roundUp hr
    exact ⟨hp, dvd_roundedUp⟩

theorem Placed.le {fields : List Ty} {size align s a : Nat} {offsets : List Nat} :
    Placed shapes fields size align offsets s a → size ≤ s
  | .nil => Nat.le_refl _
  | .cons _ ho hn hrest => by
    obtain ⟨hfa, rfl, -⟩ := of_roundUp ho
    obtain ⟨rfl, -⟩ := checkedAddSize_eq_ok.1 hn
    exact (le_roundedUp (Nat.pos_of_isPowerOfTwo hfa)).trans ((Nat.le_add_right _ _).trans hrest.le)

/-- the fields between the size before them and the size after them -/
theorem Placed.spec {fields : List Ty} {size align s a : Nat} {offsets : List Nat} (hp : align.isPowerOfTwo) :
    Placed shapes fields size align offsets s a →
      offsets.length = fields.length ∧ (a.isPowerOfTwo ∧ align ∣ a) ∧
      (∀ p ∈ fields.zip offsets, ∃ fs fa, Sized shapes p.1 fs fa ∧ fa ∣ p.2 ∧ fa ∣ a ∧ size ≤ p.2 ∧ p.2 + fs ≤ s) ∧
      (fields.zip offsets).Pairwise fun p q => ∃ fs fa, Sized shapes p.1 fs fa ∧ p.2 + fs ≤ q.2
  | .nil => ⟨rfl, ⟨hp, Nat.dvd_refl _⟩, by simp, by simp⟩
  | .cons hf ho hn hrest => by
    obtain ⟨hfa, rfl, -⟩ := of_roundUp ho
    obtain ⟨rfl, -⟩ := checkedAddSize_eq_ok.1 hn
    have hmax := isPowerOfTwo_max hp hfa
    have hleft := dvd_of_le hp hmax (Nat.le_max_left _ _)
    have hright := dvd_of_le hfa hmax (Nat.le_max_right _ _)
    obtain ⟨hlen, ⟨ha, hd⟩, hfields, hapart⟩ := hrest.spec hmax
    have hstart : size ≤ _ := le_roundedUp (Nat.pos_of_isPowerOfTwo hfa)
    refine ⟨by simp [hlen], ⟨ha, Nat.dvd_trans hleft hd⟩, ?_, ?_⟩
    · intro p hmem
      rcases List.mem_cons.1 hmem with rfl | hmem
      · exact ⟨_, _, hf, dvd_roundedUp, Nat.dvd_trans hright hd, hstart, hrest.le⟩
      · obtain ⟨fs, fa, hsized, h₁, h₂, h₃, h₄⟩ := hfields p hmem
        exact ⟨fs, fa, hsized, h₁, h₂, by omega, h₄⟩
    · refine List.pairwise_cons.2 ⟨fun q hq => ?_, hapart⟩
      obtain ⟨-, -, -, -, -, h, -⟩ := hfields q hq
      exact ⟨_, _, hf, h⟩

/-- the alignment behind the fields -/
theorem Placed.aligns {fields : List Ty} {size align s a : Nat} {offsets : List Nat} :
    Placed shapes fields size align offsets s a →
      ∃ aligns, List.Forall₂ (fun field a => ∃ s, Sized shapes field s a) fields aligns ∧ a = aligns.foldl max align
  | .nil => ⟨[], .nil, rfl⟩
  | .cons hf _ _ hrest => by
    obtain ⟨aligns, hall, rfl⟩ := hrest.aligns
    exact ⟨_ :: aligns, .cons ⟨_, hf⟩ hall, rfl⟩

/-- a table with the layout of the rules for each class -/
structure Built (shapes : List ClassShape) (table : List ClassLayout) : Prop where
  length : table.length = shapes.length
  laidOut : ∀ {id : ClassId} {l : ClassLayout}, table[id]? = some l → LaidOut shapes id l

theorem Built.entry (hb : Built shapes table) {c : ClassShape} (hc : shapes[id]? = some c) :
    ∃ l, table[id]? = some l ∧ LaidOut shapes id l ∧ l.isValue = c.isValue ∧ l.fieldTypes = c.fields := by
  have hlt := hb.length ▸ (List.getElem?_eq_some_iff.1 hc).1
  have hget := List.getElem?_eq_getElem hlt
  refine ⟨_, hget, hb.laidOut hget, ?_⟩
  generalize hl : table[id] = l at hget
  cases hb.laidOut hget with
  | intro hc' _ _ =>
    obtain rfl := Option.mem_unique hc' hc
    exact ⟨rfl, rfl⟩

theorem Built.get (hb : Built shapes table) (h : LaidOut shapes id l) :
    table[id]? = some l := by
  obtain ⟨c, hc⟩ : ∃ c, shapes[id]? = some c := by
    cases h with
    | intro hc _ _ => exact ⟨_, hc⟩
  obtain ⟨l', hget, hlaid, -⟩ := hb.entry hc
  rw [hget, hlaid.agree (.refl shapes) h]

theorem Built.sizeAlign (hb : Built shapes table) {ty : Ty} {s a : Nat} :
    Sized shapes ty s a → Layouts.sizeAlign table ty = .ok (s, a)
  | .scalar h => by cases ty <;> first | exact h | cases h
  | .reference hc href => by
    obtain ⟨l, hget, -, hval, -⟩ := hb.entry hc
    simp [Layouts.sizeAlign, Layouts.classAt, hget, hval, href]
  | .value hc hval hl => by
    obtain ⟨l, hget, hl', hval', -⟩ := hb.entry hc
    obtain rfl := hl'.agree (.refl shapes) hl
    simp [Layouts.sizeAlign, Layouts.classAt, hget, hval', hval]
  | .fixedArray he hr hm => by
    simp [Layouts.sizeAlign, hb.sizeAlign he, hr, hm]
  | .iterResult hv ho hs hr => by
    simp [Layouts.sizeAlign, hb.sizeAlign hv, ho, hs, hr]

theorem Built.wellPlaced (hb : Built shapes table) (h : table[id]? = some l) :
    Layouts.WellPlaced table l := by
  have hlaid := hb.laidOut h
  obtain ⟨-, hsize⟩ := hlaid.aligned
  cases hlaid with
  | @intro _ c offsets size align total hc hp hr =>
    obtain ⟨hlen, ⟨ha, -⟩, hfields, hapart⟩ := hp.spec ⟨0, rfl⟩
    obtain ⟨htop, rfl, -⟩ := of_roundUp hr
    have hend : size ≤ roundedUp (max size 1) (withOverride align c.alignment) :=
      (Nat.le_max_left _ _).trans (le_roundedUp (Nat.pos_of_isPowerOfTwo htop))
    have hover := dvd_of_le ha htop (le_withOverride align c.alignment)
    refine ⟨hlen, hsize, fun p hmem => ?_, hapart.imp fun hpq s a hs => ?_⟩
    · obtain ⟨fs, fa, hsized, h₁, h₂, -, h₃⟩ := hfields p hmem
      exact ⟨fs, fa, hb.sizeAlign hsized, hsized.aligned.2, h₁, Nat.dvd_trans h₂ hover, h₃.trans hend⟩
    · obtain ⟨fs, fa, hsized, hle⟩ := hpq
      rw [hb.sizeAlign hsized] at hs
      cases hs
      exact hle

theorem Built.of (hb : Built shapes table) {c : ClassShape} (hc : shapes[id]? = some c) :
    ∃ l, table[id]? = some l ∧ Layouts.Of table c l := by
  obtain ⟨l, hget, hlaid, hval, hfields⟩ := hb.entry hc
  refine ⟨l, hget, hval, hfields, ?_⟩
  cases hlaid with
  | intro hc' hp _ =>
    obtain rfl := Option.mem_unique hc' hc
    obtain ⟨aligns, hall, rfl⟩ := hp.aligns
    exact ⟨aligns, hall.imp fun _ _ ⟨s, hs⟩ => ⟨s, hb.sizeAlign hs⟩, rfl⟩

end Placement

section Padding

open Layouts Memory

variable {shapes : List ClassShape} {table : List ClassLayout}

/-- with enough nesting the ranges of a value at the base are listed, and they are its gaps -/
def Lists (table : List ClassLayout) (ty : Ty) (base s : Nat) : Prop :=
  ∃ ranges, (∃ need, ∀ fuel ≥ need, collectPaddingRanges table fuel ty base = .ok ranges) ∧
    Gaps base (base + s) {x | ∃ b, LeafByte table ty b ∧ x = base + b} ranges

variable {base : Nat}

theorem Lists.of_leaf {ty : Ty} {s a : Nat} (h : IsLeaf table ty) (hs : Layouts.sizeAlign table ty = .ok (s, a)) :
    Lists table ty base s := by
  refine ⟨[], ⟨1, fun fuel hfuel => ?_⟩, ?_⟩
  · obtain ⟨fuel, rfl⟩ := Nat.exists_eq_add_of_le' hfuel
    rw [collectPaddingRanges]
    unfold paddingOf
    split
    · obtain ⟨l, hl, hval⟩ := h
      simp [classAt, hl, hval]
    · exact h.elim
    · rfl
  · have bytes : {x | ∃ b, LeafByte table ty b ∧ x = base + b} = Set.Ico base (base + s) := by
      ext x
      constructor
      · rintro ⟨b, hb, rfl⟩
        have hlt : b < s := by
          cases hb with
          | leaf _ hs' hb =>
            rw [hs] at hs'
            cases hs'
            exact hb
          | field hl hv _ _ =>
            obtain ⟨l, hl', hval⟩ := h
            rw [hl] at hl'
            cases hl'
            rw [hv] at hval
            cases hval
          | element _ _ _ => exact h.elim
        exact ⟨Nat.le_add_right _ _, Nat.add_lt_add_left hlt _⟩
      · rintro ⟨hle, hlt⟩
        exact ⟨x - base, .leaf h hs (by omega), by omega⟩
    rw [bytes]
    exact Gaps.full _ _

/-- the elements from one index on -/
theorem elements_padding {elem : Ty} {d : Nat} (he : ∀ base, base + d ≤ maxAggregateBytes → Lists table elem base d)
    (k i : Nat) (hk : base + (i + k) * d ≤ maxAggregateBytes) :
    ∃ ranges, (∃ need, ∀ fuel ≥ need,
        paddingElements (paddingOf table (collectPaddingRanges table fuel) elem) base d (List.range' i k) = .ok ranges) ∧
      Gaps (base + i * d) (base + (i + k) * d)
        {x | ∃ j b, (i ≤ j ∧ j < i + k) ∧ LeafByte table elem b ∧ x = base + (j * d + b)} ranges := by
  induction k generalizing i with
  | zero =>
    refine ⟨[], ⟨0, fun _ _ => rfl⟩, ?_⟩
    have none : {x | ∃ j b, (i ≤ j ∧ j < i + 0) ∧ LeafByte table elem b ∧ x = base + (j * d + b)} = ∅ := by
      ext x
      simp only [Set.mem_ofPred_eq, Set.mem_empty_iff_false, iff_false]
      rintro ⟨j, b, hj, -⟩
      omega
    rw [none]
    simpa using Gaps.upTo (Nat.le_refl (base + i * d))
  | succ k ih =>
    have split : (i + (k + 1)) * d = i * d + d + k * d := by ring
    have next : (i + 1) * d = i * d + d := by ring
    have last : (i + 1 + k) * d = (i + (k + 1)) * d := by ring
    obtain ⟨first, ⟨need₁, h₁⟩, gaps₁⟩ := he (base + i * d) (by omega)
    obtain ⟨rest, ⟨need₂, h₂⟩, gaps₂⟩ := ih (i + 1) (by omega)
    refine ⟨first ++ rest, ⟨max need₁ need₂, fun fuel hfuel => ?_⟩, ?_⟩
    · have hmul : checkedMulSize i d "padding array offset" = .ok (i * d) :=
        checkedMulSize_eq_ok.2 ⟨rfl, by omega⟩
      have hadd : checkedAddSize base (i * d) "padding element base" = .ok (base + i * d) :=
        checkedAddSize_eq_ok.2 ⟨rfl, by omega⟩
      have hfirst := h₁ (fuel + 1) (by omega)
      rw [collectPaddingRanges] at hfirst
      simp [List.range'_succ, paddingElements, hmul, hadd, hfirst, h₂ fuel (by omega)]
    · rw [next, last, ← Nat.add_assoc] at gaps₂
      have whole := gaps₁.append gaps₂ (by omega) (by omega)
      convert whole using 1
      ext x
      constructor
      · rintro ⟨j, b, hj, hb, rfl⟩
        rcases Nat.eq_or_lt_of_le hj.1 with rfl | hlt
        · exact .inl ⟨b, hb, by omega⟩
        · exact .inr ⟨j, b, by omega, hb, rfl⟩
      · rintro (⟨b, hb, rfl⟩ | ⟨j, b, hj, hb, rfl⟩)
        · exact ⟨i, b, by omega, hb, by omega⟩
        · exact ⟨j, b, by omega, hb, rfl⟩

/-- a class is listed when its fields are -/
theorem class_padding {id : ClassId} {l : ClassLayout} {size : Nat} (hget : table[id]? = some l)
    (hval : l.isValue = true) (hsize : size ≤ l.size) (hbase : base + l.size ≤ maxAggregateBytes)
    (hfields : ∃ ranges, (∃ need, ∀ fuel ≥ need, paddingFields table (collectPaddingRanges table fuel) base
        (l.fieldTypes.zip l.fieldOffsets) 0 = .ok (ranges, size)) ∧
      Gaps (base + 0) (base + size)
        {x | ∃ p ∈ l.fieldTypes.zip l.fieldOffsets, ∃ b, LeafByte table p.1 b ∧ x = base + (p.2 + b)} ranges) :
    Lists table (.cls id) base l.size := by
  obtain ⟨ranges, ⟨need, h⟩, gaps⟩ := hfields
  have tail : Gaps (base + size) (base + l.size) ∅ _ := Gaps.upTo (by omega)
  refine ⟨ranges ++ (if base + size < base + l.size then [(base + size, base + l.size)] else []),
    ⟨need + 1, fun fuel hfuel => ?_⟩, ?_⟩
  · obtain ⟨fuel, rfl⟩ := Nat.exists_eq_add_of_le' (Nat.le_of_add_left_le hfuel)
    have hstart : checkedAddSize base size "padding tail start" = .ok (base + size) :=
      checkedAddSize_eq_ok.2 ⟨rfl, by omega⟩
    have hstop : checkedAddSize base l.size "padding tail end" = .ok (base + l.size) :=
      checkedAddSize_eq_ok.2 ⟨rfl, hbase⟩
    simp only [collectPaddingRanges, paddingOf, classAt, hget, hval, h fuel (by omega), hstart, hstop, ok_bind,
      pure_eq_ok, if_true, Nat.add_lt_add_iff_left]
    split <;> simp
  · have whole := gaps.append tail (by omega) (by omega)
    rw [Set.union_empty, Nat.add_zero] at whole
    convert whole using 1
    ext x
    constructor
    · rintro ⟨_, hbyte, rfl⟩
      cases hbyte with
      | leaf hleaf _ _ =>
        obtain ⟨l', hl', hval'⟩ := hleaf
        rw [hget] at hl'
        cases hl'
        rw [hval] at hval'
        cases hval'
      | @field _ l' field offset b hl' _ hf hb =>
        rw [hget] at hl'
        cases hl'
        exact ⟨(field, offset), hf, b, hb, rfl⟩
    · rintro ⟨p, hp, b, hb, rfl⟩
      exact ⟨p.2 + b, .field hget hval hp hb, rfl⟩

mutual

theorem Sized.padding (hb : Built shapes table) {ty : Ty} {s a : Nat} :
    Sized shapes ty s a → ∀ base, base + s ≤ maxAggregateBytes → Lists table ty base s
  | .scalar h, base, _ => by
    have hs := hb.sizeAlign (.scalar h)
    refine Lists.of_leaf ?_ hs
    cases ty <;> first | exact trivial | cases h
  | .reference hc href, base, _ => by
    obtain ⟨l, hget, -, hval, -⟩ := hb.entry hc
    exact Lists.of_leaf ⟨l, hget, hval.trans href⟩ (hb.sizeAlign (.reference hc href))
  | .iterResult hv ho hs hr, base, _ => Lists.of_leaf trivial (hb.sizeAlign (.iterResult hv ho hs hr))
  | @Sized.fixedArray _ elem n es ea d _ he hr hm, base, hbase => by
    have ih := he.padding hb
    have hd : stride table elem = .ok d := by
      simp [stride, hb.sizeAlign he, hr]
    obtain ⟨hp, hstride, -⟩ := of_roundUp hr
    rw [roundedUp_of_dvd (Nat.pos_of_isPowerOfTwo hp) he.aligned.2] at hstride
    obtain ⟨rfl, -⟩ := checkedMulSize_eq_ok.1 hm
    subst hstride
    have hend : (0 + n) * d = d * n := by ring
    obtain ⟨ranges, ⟨need, h⟩, gaps⟩ := elements_padding ih n 0 (hend ▸ hbase)
    refine ⟨ranges, ⟨need + 1, fun fuel hfuel => ?_⟩, ?_⟩
    · obtain ⟨fuel, rfl⟩ := Nat.exists_eq_add_of_le' (Nat.le_of_add_left_le hfuel)
      simp [collectPaddingRanges, paddingOf, hd, List.range_eq_range', h fuel (by omega)]
    · rw [hend, Nat.zero_mul, Nat.add_zero] at gaps
      convert gaps using 1
      ext x
      constructor
      · rintro ⟨_, hbyte, rfl⟩
        cases hbyte with
        | leaf h _ _ => exact h.elim
        | @element _ _ i d' b hi hd' hb =>
          rw [hd] at hd'
          cases hd'
          exact ⟨i, b, by omega, hb, rfl⟩
      · rintro ⟨i, b, hi, hb, rfl⟩
        exact ⟨i * d + b, .element (by omega) hd hb, rfl⟩
  | .value hc hval hl, base, hbase => hl.padding hb hc hval base hbase

theorem LaidOut.padding (hb : Built shapes table) {id : ClassId} {c : ClassShape} {l : ClassLayout} :
    LaidOut shapes id l → shapes[id]? = some c → c.isValue = true → ∀ base, base + l.size ≤ maxAggregateBytes →
      Lists table (.cls id) base l.size
  | @LaidOut.intro _ _ _ offsets size align _ hc' hp hr, hc, hval, base, hbase => by
    have ih := hp.padding hb base
    have hget := hb.get (.intro hc' hp hr)
    obtain rfl := Option.mem_unique hc' hc
    obtain ⟨htop, htotal, -⟩ := of_roundUp hr
    have hend : size ≤ _ := (Nat.le_max_left _ 1).trans (htotal ▸ le_roundedUp (Nat.pos_of_isPowerOfTwo htop))
    exact class_padding hget hval hend hbase (ih (by dsimp only at hbase; omega))

theorem Placed.padding (hb : Built shapes table) {fields : List Ty} {size align s a : Nat} {offsets : List Nat} :
    Placed shapes fields size align offsets s a → ∀ base, base + s ≤ maxAggregateBytes →
      ∃ ranges, (∃ need, ∀ fuel ≥ need,
          paddingFields table (collectPaddingRanges table fuel) base (fields.zip offsets) size = .ok (ranges, s)) ∧
        Gaps (base + size) (base + s)
          {x | ∃ p ∈ fields.zip offsets, ∃ b, LeafByte table p.1 b ∧ x = base + (p.2 + b)} ranges
  | .nil, base, _ => by
    refine ⟨[], ⟨0, fun _ _ => rfl⟩, ?_⟩
    simpa using Gaps.upTo (Nat.le_refl _)
  | @Placed.cons _ field fields size align fs fa offset next offsets s _ hf ho hn hrest, base, hbase => by
    have ih₁ := hf.padding hb (base + offset)
    have ih₂ := hrest.padding hb base hbase
    obtain ⟨hfa, hoffset, -⟩ := of_roundUp ho
    obtain ⟨rfl, hnext⟩ := checkedAddSize_eq_ok.1 hn
    have hle : offset + fs ≤ s := hrest.le
    have hstart : size ≤ offset := hoffset ▸ le_roundedUp (Nat.pos_of_isPowerOfTwo hfa)
    obtain ⟨inner, ⟨need₁, h₁⟩, gaps₁⟩ := ih₁ (by omega)
    obtain ⟨ranges, ⟨need₂, h₂⟩, gaps₂⟩ := ih₂
    have before : Gaps (base + size) (base + offset) ∅ _ := Gaps.upTo (by omega)
    refine ⟨(if base + size < base + offset then [(base + size, base + offset)] else []) ++ (inner ++ ranges),
      ⟨max need₁ need₂, fun fuel hfuel => ?_⟩, ?_⟩
    · have hgap : paddingGap base size offset =
          .ok (if base + size < base + offset then [(base + size, base + offset)] else []) := by
        have hs : checkedAddSize base size "padding range start" = .ok (base + size) :=
          checkedAddSize_eq_ok.2 ⟨rfl, by omega⟩
        have ht : checkedAddSize base offset "padding range end" = .ok (base + offset) :=
          checkedAddSize_eq_ok.2 ⟨rfl, by omega⟩
        simp only [paddingGap, hs, ht, Nat.add_lt_add_iff_left, ok_bind, pure_eq_ok]
        split <;> rfl
      have hbase' : checkedAddSize base offset "padding field base" = .ok (base + offset) :=
        checkedAddSize_eq_ok.2 ⟨rfl, by omega⟩
      have hend : checkedAddSize offset fs "padding field end" = .ok (offset + fs) :=
        checkedAddSize_eq_ok.2 ⟨rfl, hnext⟩
      simp only [List.zip_cons_cons, paddingFields, hgap, hbase', h₁ fuel (by omega), hb.sizeAlign hf, hend, h₂ fuel (by omega),
        ok_bind, pure_eq_ok]
    · have whole := before.append (gaps₁.append (by rwa [← Nat.add_assoc] at gaps₂) (by omega) (by omega)) (by omega) (by omega)
      rw [Set.empty_union] at whole
      convert whole using 1
      ext x
      simp only [List.zip_cons_cons, List.exists_mem_cons_iff, Set.mem_union, Set.mem_ofPred_eq, Nat.add_assoc]

end

end Padding

end Subscript.Reload
