import Mathlib.Data.List.Perm.Subperm
import Subscript.Reload.Layout

/-! The layout rules as relations, which the builder follows: what it builds is what the rules give, and the
rules give one layout. -/

namespace Subscript.Reload

section Rules

variable (shapes : List ClassShape)

mutual

/-- the size and the alignment of a type -/
inductive Sized : Ty → Nat → Nat → Prop where
  | scalar {ty : Ty} {s a : Nat} (h : scalarSizeAlign ty = .ok (s, a)) : Sized ty s a
  | reference {id : ClassId} {c : ClassShape} (hc : shapes[id]? = some c) (href : c.isValue = false) :
    Sized (.cls id) 8 8
  | value {id : ClassId} {c : ClassShape} {l : ClassLayout} (hc : shapes[id]? = some c)
    (hval : c.isValue = true) (hl : LaidOut id l) : Sized (.cls id) l.size l.align
  | fixedArray {elem : Ty} {n es ea stride s : Nat} (he : Sized elem es ea) (hr : roundUp es ea = .ok stride)
    (hm : checkedMulSize stride n "FixedArray byte size" = .ok s) : Sized (.fixedArray elem n) s ea
  | iterResult {v : Ty} {vs va offset stop s : Nat} (hv : Sized v vs va)
    (ho : roundUp 1 (max va 1) = .ok offset) (hs : checkedAddSize offset vs "IterResult layout" = .ok stop)
    (hr : roundUp stop (max va 1) = .ok s) : Sized (.iterResult v) s (max va 1)

/-- the fields placed from a size and an alignment on: their offsets, the size and the alignment after them -/
inductive Placed : List Ty → Nat → Nat → List Nat → Nat → Nat → Prop where
  | nil {size align : Nat} : Placed [] size align [] size align
  | cons {field : Ty} {fields : List Ty} {size align fs fa offset next : Nat} {offsets : List Nat}
    {size' align' : Nat} (hf : Sized field fs fa) (ho : roundUp size fa = .ok offset)
    (hn : checkedAddSize offset fs "class field layout" = .ok next)
    (hrest : Placed fields next (max align fa) offsets size' align') :
    Placed (field :: fields) size align (offset :: offsets) size' align'

inductive LaidOut : ClassId → ClassLayout → Prop where
  | intro {id : ClassId} {c : ClassShape} {offsets : List Nat} {size align total : Nat}
    (hc : shapes[id]? = some c) (hp : Placed c.fields 0 1 offsets size align)
    (hr : roundUp (max size 1) (withOverride align c.alignment) = .ok total) :
    LaidOut id {
      size := total, align := withOverride align c.alignment, fieldOffsets := offsets, fieldTypes := c.fields,
      isValue := c.isValue }

end

end Rules

section Agree

variable {shapes₁ shapes₂ : List ClassShape}

/-- the same classes, up to their names and alignment overrides, which come to the same alignment wherever
the fields are placed alike -/
structure Congruent (shapes₁ shapes₂ : List ClassShape) : Prop where
  same : ∀ {id : ClassId} {c₁ c₂ : ClassShape}, shapes₁[id]? = some c₁ → shapes₂[id]? = some c₂ →
    c₁.isValue = c₂.isValue ∧ c₁.fields = c₂.fields
  align : ∀ {id : ClassId} {c₁ c₂ : ClassShape}, shapes₁[id]? = some c₁ → shapes₂[id]? = some c₂ →
    ∀ {offsets} size {align}, Placed shapes₁ c₁.fields 0 1 offsets size align →
      Placed shapes₂ c₂.fields 0 1 offsets size align →
      withOverride align c₁.alignment = withOverride align c₂.alignment

variable {r : Nat × Nat} {id : ClassId}

theorem scalarSizeAlign_cls : scalarSizeAlign (.cls id) ≠ .ok r := by
  simp [scalarSizeAlign, internal]

theorem scalarSizeAlign_fixedArray {e : Ty} {n : Nat} :
    scalarSizeAlign (.fixedArray e n) ≠ .ok r := by
  simp [scalarSizeAlign, internal]

theorem scalarSizeAlign_iterResult {v : Ty} : scalarSizeAlign (.iterResult v) ≠ .ok r := by
  simp [scalarSizeAlign, internal]

mutual

theorem Sized.agree (h : Congruent shapes₁ shapes₂) {ty : Ty} {s a s' a' : Nat} :
    Sized shapes₁ ty s a → Sized shapes₂ ty s' a' → s = s' ∧ a = a'
  | .scalar hs, .scalar hs' => by
    rw [hs] at hs'
    exact Prod.mk.inj (Except.ok.inj hs')
  | .reference _ _, .reference _ _ => ⟨rfl, rfl⟩
  | .value _ _ hl, .value _ _ hl' => by
    obtain rfl := LaidOut.agree h hl hl'
    exact ⟨rfl, rfl⟩
  | .fixedArray he hr hm, .fixedArray he' hr' hm' => by
    obtain ⟨rfl, rfl⟩ := Sized.agree h he he'
    rw [hr] at hr'
    obtain rfl := Except.ok.inj hr'
    rw [hm] at hm'
    exact ⟨Except.ok.inj hm', rfl⟩
  | .iterResult hv ho hs hr, .iterResult hv' ho' hs' hr' => by
    obtain ⟨rfl, rfl⟩ := Sized.agree h hv hv'
    rw [ho] at ho'
    obtain rfl := Except.ok.inj ho'
    rw [hs] at hs'
    obtain rfl := Except.ok.inj hs'
    rw [hr] at hr'
    exact ⟨Except.ok.inj hr', rfl⟩
  | .reference hc href, .value hc' hval _ => by simp [← (h.same hc hc').1, href] at hval
  | .value hc hval _, .reference hc' href => by simp [(h.same hc hc').1, href] at hval
  | .scalar hs, .reference _ _ | .scalar hs, .value _ _ _ | .reference _ _, .scalar hs | .value _ _ _, .scalar hs =>
    absurd hs scalarSizeAlign_cls
  | .scalar hs, .fixedArray _ _ _ | .fixedArray _ _ _, .scalar hs => absurd hs scalarSizeAlign_fixedArray
  | .scalar hs, .iterResult _ _ _ _ | .iterResult _ _ _ _, .scalar hs => absurd hs scalarSizeAlign_iterResult

theorem Placed.agree (h : Congruent shapes₁ shapes₂) {fields : List Ty} {size align : Nat}
    {offsets offsets' : List Nat} {s a s' a' : Nat} :
    Placed shapes₁ fields size align offsets s a → Placed shapes₂ fields size align offsets' s' a' →
      offsets = offsets' ∧ s = s' ∧ a = a'
  | .nil, .nil => ⟨rfl, rfl, rfl⟩
  | .cons hf ho hn hrest, .cons hf' ho' hn' hrest' => by
    obtain ⟨rfl, rfl⟩ := Sized.agree h hf hf'
    rw [ho] at ho'
    obtain rfl := Except.ok.inj ho'
    rw [hn] at hn'
    obtain rfl := Except.ok.inj hn'
    obtain ⟨rfl, hends⟩ := Placed.agree h hrest hrest'
    exact ⟨rfl, hends⟩

theorem LaidOut.agree (h : Congruent shapes₁ shapes₂) {id : ClassId} {l l' : ClassLayout} :
    LaidOut shapes₁ id l → LaidOut shapes₂ id l' → l = l'
  | .intro hc hp hr, .intro hc' hp' hr' => by
    obtain ⟨hval, hfields⟩ := h.same hc hc'
    have hp₂ := hfields ▸ hp'
    obtain ⟨rfl, rfl, rfl⟩ := Placed.agree h hp hp₂
    have hoverride := h.align hc hc' _ hp hp'
    rw [← hoverride, hr] at hr'
    obtain rfl := Except.ok.inj hr'
    rw [hoverride, hval, hfields]

end

theorem Congruent.refl (shapes : List ClassShape) : Congruent shapes shapes where
  same := fun hc hc' => by
    obtain rfl := Option.mem_unique hc hc'
    exact ⟨rfl, rfl⟩
  align := fun hc hc' _ _ _ _ _ => by
    obtain rfl := Option.mem_unique hc hc'
    rfl

variable {shapes : List ClassShape}

theorem Placed.unique {fields : List Ty} {size align s a s' a' : Nat}
    {offsets offsets' : List Nat} (h : Placed shapes fields size align offsets s a)
    (h' : Placed shapes fields size align offsets' s' a') : a = a' :=
  (Placed.agree (.refl shapes) h h').2.2

theorem Placed.align_le {shapes : List ClassShape} {fields : List Ty} {size align s a : Nat}
    {offsets : List Nat} : Placed shapes fields size align offsets s a → align ≤ a
  | .nil => Nat.le_refl _
  | .cons _ _ _ hrest => Nat.le_trans (Nat.le_max_left _ _) hrest.align_le

/-- a laid out class has its fields placed, and its alignment is theirs with the override -/
theorem LaidOut.placed {c : ClassShape} {l : ClassLayout}
    (hc : shapes[id]? = some c) : LaidOut shapes id l →
    ∃ offsets size align, Placed shapes c.fields 0 1 offsets size align ∧ l.align = withOverride align c.alignment
  | .intro hc' hp _ => by
    obtain rfl := Option.mem_unique hc hc'
    exact ⟨_, _, _, hp, rfl⟩

end Agree

section Sound

variable {shapes : List ClassShape}

/-- one slot for each class, and what it holds is the layout of the class -/
structure SlotsLaidOut (shapes : List ClassShape) (slots : Slots) : Prop where
  length : slots.length = shapes.length
  laidOut : ∀ {id : ClassId} {l : ClassLayout}, slots[id]? = some (some l) → LaidOut shapes id l

theorem bind_eq_ok {α β : Type} {x : Layout α} {f : α → Layout β} {b : β} (h : (x >>= f) = .ok b) :
    ∃ a, x = .ok a ∧ f a = .ok b := by
  cases x with
  | error e => cases h
  | ok a => exact ⟨a, rfl, h⟩

/-- what a call of the builder for a nested class keeps and gives -/
def Follows (shapes : List ClassShape) (layoutOf : ClassId → Slots → Layout (ClassLayout × Slots)) : Prop :=
  ∀ {id slots l slots'}, SlotsLaidOut shapes slots → layoutOf id slots = .ok (l, slots') →
    LaidOut shapes id l ∧ SlotsLaidOut shapes slots'

variable {slots slots' : Slots} {layoutOf : ClassId → Slots → Layout (ClassLayout × Slots)}

theorem sizeAlign_sized (hlayout : Follows shapes layoutOf) {ty : Ty} {s a : Nat}
    (hslots : SlotsLaidOut shapes slots) (h : sizeAlign shapes layoutOf ty slots = .ok ((s, a), slots')) :
    Sized shapes ty s a ∧ SlotsLaidOut shapes slots' := by
  fun_induction sizeAlign shapes layoutOf ty slots generalizing s a slots' with
  | case1 slots id hid => cases h
  | case2 slots id c hc hval =>
    obtain ⟨⟨l, next⟩, hl, hret⟩ := bind_eq_ok h
    obtain ⟨hlaid, hnext⟩ := hlayout hslots hl
    cases hret
    exact ⟨.value hc hval hlaid, hnext⟩
  | case3 slots id c hc href =>
    cases h
    exact ⟨.reference hc (by simpa using href), hslots⟩
  | case4 slots elem n ih =>
    obtain ⟨⟨⟨es, ea⟩, next⟩, he, h⟩ := bind_eq_ok h
    obtain ⟨stride, hr, h⟩ := bind_eq_ok h
    obtain ⟨bytes, hm, hret⟩ := bind_eq_ok h
    cases hret
    obtain ⟨helem, hnext⟩ := ih hslots he
    exact ⟨.fixedArray helem hr hm, hnext⟩
  | case5 slots v ih =>
    obtain ⟨⟨⟨vs, va⟩, next⟩, hv, h⟩ := bind_eq_ok h
    obtain ⟨offset, ho, h⟩ := bind_eq_ok h
    obtain ⟨stop, hs, h⟩ := bind_eq_ok h
    obtain ⟨bytes, hr, hret⟩ := bind_eq_ok h
    cases hret
    obtain ⟨hvalue, hnext⟩ := ih hslots hv
    exact ⟨.iterResult hvalue ho hs hr, hnext⟩
  | case6 ty slots =>
    obtain ⟨⟨s, a⟩, hscalar, hret⟩ := bind_eq_ok h
    cases hret
    exact ⟨.scalar hscalar, hslots⟩

theorem placeFields_placed
    (hlayout : Follows shapes layoutOf) {fields : List Ty} {size align s a : Nat} {offsets : List Nat}
    (hslots : SlotsLaidOut shapes slots)
    (h : placeFields (sizeAlign shapes layoutOf) fields size align slots = .ok ((s, a, offsets), slots')) :
    Placed shapes fields size align offsets s a ∧ SlotsLaidOut shapes slots' := by
  induction fields generalizing size align offsets slots with
  | nil =>
    cases h
    exact ⟨.nil, hslots⟩
  | cons field fields ih =>
    obtain ⟨⟨⟨fs, fa⟩, next⟩, hf, h⟩ := bind_eq_ok h
    obtain ⟨offset, ho, h⟩ := bind_eq_ok h
    obtain ⟨after, hn, h⟩ := bind_eq_ok h
    obtain ⟨⟨⟨s', a', rest⟩, last⟩, hrest, hret⟩ := bind_eq_ok h
    cases hret
    obtain ⟨hfield, hnext⟩ := sizeAlign_sized hlayout hslots hf
    obtain ⟨hplaced, hlast⟩ := ih hnext hrest
    exact ⟨.cons hfield ho hn hplaced, hlast⟩

theorem classLayout_follows (fuel : Nat) (visiting : List ClassId) :
    Follows shapes (classLayout shapes fuel visiting) := by
  induction fuel generalizing visiting with
  | zero =>
    intro id slots l slots' _ h
    cases h
  | succ fuel ih =>
    intro id slots l slots' hslots h
    simp only [classLayout] at h
    split at h
    next memo hmemo =>
      cases h
      exact ⟨hslots.laidOut hmemo, hslots⟩
    next =>
      split at h
      next => cases h
      next c hc =>
        split at h
        next => cases h
        next =>
          obtain ⟨⟨⟨size, align, offsets⟩, next⟩, hp, h⟩ := bind_eq_ok h
          obtain ⟨total, hr, hret⟩ := bind_eq_ok h
          cases hret
          obtain ⟨hplaced, hnext⟩ := placeFields_placed (ih (id :: visiting)) hslots hp
          have hlaid := LaidOut.intro hc hplaced hr
          refine ⟨hlaid, (List.length_set ..).trans hnext.length, ?_⟩
          -- the slot of this class is the only one that changes
          intro id' l' hl'
          rw [List.getElem?_set] at hl'
          split at hl'
          next heq =>
            subst heq
            split at hl'
            next => cases hl'; exact hlaid
            next => cases hl'
          next => exact hnext.laidOut hl'

theorem buildFrom_laidOut {ids : List ClassId} (hslots : SlotsLaidOut shapes slots)
    (h : buildFrom shapes ids slots = .ok slots') : SlotsLaidOut shapes slots' := by
  induction ids generalizing slots with
  | nil =>
    cases h
    exact hslots
  | cons id ids ih =>
    obtain ⟨⟨l, next⟩, hl, h⟩ := bind_eq_ok h
    exact ih (classLayout_follows _ _ hslots hl).2 h

variable {table : List ClassLayout}

theorem collect_eq {i : Nat} (h : collect i slots = .ok table) :
    slots = table.map some := by
  induction slots generalizing i table with
  | nil =>
    cases h
    rfl
  | cons slot slots ih =>
    cases slot with
    | none => cases h
    | some l =>
      obtain ⟨rest, hrest, hret⟩ := bind_eq_ok h
      cases hret
      rw [ih hrest, List.map_cons]

/-- a built table has one layout for each class, the one of the rules -/
theorem buildShapes_laidOut (h : buildShapes shapes = .ok table) :
    table.length = shapes.length ∧ ∀ {id : ClassId} {l : ClassLayout}, table[id]? = some l → LaidOut shapes id l := by
  obtain ⟨slots, hslots, hcollect⟩ := bind_eq_ok h
  have hempty : SlotsLaidOut shapes (List.replicate shapes.length none) := by
    refine ⟨List.length_replicate, ?_⟩
    intro id l hl
    obtain ⟨_, hnone⟩ := List.getElem?_eq_some_iff.mp hl
    simp at hnone
  have hlaid := buildFrom_laidOut hempty hslots
  rw [collect_eq hcollect] at hlaid
  refine ⟨by simpa using hlaid.length, fun {id l} hl => hlaid.laidOut ?_⟩
  rw [List.getElem?_map, hl]
  rfl

end Sound

end Subscript.Reload
