import Subscript.Reload.Validator

/-! What the checker's layout pass accepts is built, with the same sizes and alignments. -/

namespace Subscript.Reload

open List

variable {shapes : List ClassShape}

section Builder

/-- the slots that are filled stay filled -/
def Kept (slots slots' : Slots) : Prop :=
  ∀ {id : ClassId} {l : ClassLayout}, slots[id]? = some (some l) → slots'[id]? = some (some l)

/-- a call of the builder that succeeds with the value -/
def Gives (shapes : List ClassShape) {α : Type} (call : Slots → Layout (α × Slots)) (a : α) : Prop :=
  ∀ slots, SlotsLaidOut shapes slots → ∃ slots', call slots = .ok (a, slots') ∧ SlotsLaidOut shapes slots' ∧ Kept slots slots'

theorem sizeAlign_scalar {layoutOf : ClassId → Slots → Layout (ClassLayout × Slots)} {ty : Ty} {r : Nat × Nat} {slots : Slots}
    (h : scalarSizeAlign ty = .ok r) : sizeAlign shapes layoutOf ty slots = .ok (r, slots) := by
  unfold sizeAlign
  split
  · exact absurd h scalarSizeAlign_cls
  · exact absurd h scalarSizeAlign_fixedArray
  · exact absurd h scalarSizeAlign_iterResult
  · rw [h]
    rfl

theorem sizeAlign_gives {layoutOf : ClassId → Slots → Layout (ClassLayout × Slots)} {ty : Ty} {s a : Nat} :
    Sized shapes ty s a → (∀ id l, Embeds shapes ty id → LaidOut shapes id l → Gives shapes (layoutOf id) l) →
      Gives shapes (sizeAlign shapes layoutOf ty) (s, a)
  | .scalar h, _ => fun slots hslots => ⟨slots, sizeAlign_scalar h, hslots, fun h => h⟩
  | .reference hc href, _ => fun slots hslots => ⟨slots, by simp [sizeAlign, hc, href, Pure.pure, Except.pure], hslots,
    fun h => h⟩
  | .value hc hval hl, hlayout => by
    intro slots hslots
    obtain ⟨slots', hcall, hslots', hkept⟩ := hlayout _ _ ⟨rfl, _, hc, hval⟩ hl slots hslots
    exact ⟨slots', by simp [sizeAlign, hc, hval, hcall], hslots', hkept⟩
  | .fixedArray he hr hm, hlayout => by
    intro slots hslots
    obtain ⟨slots', hcall, hslots', hkept⟩ := sizeAlign_gives he hlayout slots hslots
    exact ⟨slots', by simp [sizeAlign, hcall, hr, hm], hslots', hkept⟩
  | .iterResult hv ho hs hr, hlayout => by
    intro slots hslots
    obtain ⟨slots', hcall, hslots', hkept⟩ := sizeAlign_gives hv hlayout slots hslots
    exact ⟨slots', by simp [sizeAlign, hcall, ho, hs, hr], hslots', hkept⟩

theorem placeFields_gives {measure : Ty → Slots → Layout ((Nat × Nat) × Slots)} {fields : List Ty} {size align s a : Nat}
    {offsets : List Nat} : Placed shapes fields size align offsets s a →
      (∀ f ∈ fields, ∀ fs fa, Sized shapes f fs fa → Gives shapes (measure f) (fs, fa)) →
      Gives shapes (placeFields measure fields size align) (s, a, offsets)
  | .nil, _ => fun slots hslots => ⟨slots, rfl, hslots, fun h => h⟩
  | .cons hf ho hn hrest, hm => by
    intro slots hslots
    obtain ⟨slots₁, hcall, hslots₁, hkept₁⟩ := hm _ mem_cons_self _ _ hf slots hslots
    obtain ⟨slots₂, hcall₂, hslots₂, hkept₂⟩ :=
      placeFields_gives hrest (fun f hmem => hm f (mem_cons_of_mem _ hmem)) slots₁ hslots₁
    exact ⟨slots₂, by simp [placeFields, hcall, ho, hn, hcall₂], hslots₂,
      fun h => hkept₂ (hkept₁ h)⟩

theorem classLayout_step {fuel : Nat} {visiting : List ClassId} {id : ClassId} {c : ClassShape} {slots slots' : Slots}
    {size align total : Nat} {offsets : List Nat} (hnew : ∀ memo, slots[id]? ≠ some (some memo)) (hc : shapes[id]? = some c)
    (hvisit : id ∉ visiting)
    (hcall : placeFields (sizeAlign shapes (classLayout shapes fuel (id :: visiting))) c.fields 0 1 slots =
      .ok ((size, align, offsets), slots'))
    (hr : roundUp (max size 1) (withOverride align c.alignment) = .ok total) :
    let l : ClassLayout := {
      size := total, align := withOverride align c.alignment, fieldOffsets := offsets, fieldTypes := c.fields,
      isValue := c.isValue }
    classLayout shapes (fuel + 1) visiting id slots = .ok (l, slots'.set id (some l)) := by
  rw [classLayout]
  split
  next memo hmemo => exact absurd hmemo (hnew memo)
  next => simp only [hc, if_neg hvisit, hcall, hr, ok_bind, pure_eq_ok]

theorem classLayout_gives {fuel : Nat} {visiting : List ClassId} (hnodup : visiting.Nodup)
    (hrange : ∀ id ∈ visiting, id < shapes.length) (hfuel : fuel + visiting.length = shapes.length + 1) {id : ClassId}
    {l : ClassLayout} (hpath : ∀ v ∈ visiting, Relation.TransGen (Contains shapes) v id) (hl : LaidOut shapes id l) :
    ∀ slots, SlotsLaidOut shapes slots → ∃ slots', classLayout shapes fuel visiting id slots = .ok (l, slots') ∧
      SlotsLaidOut shapes slots' ∧ Kept slots slots' ∧ slots'[id]? = some (some l) := by
  induction fuel generalizing visiting id l with
  | zero =>
    have hsub : visiting ⊆ List.range shapes.length := fun id hid => mem_range.mpr (hrange id hid)
    have hle := (subperm_of_subset hnodup hsub).length_le
    rw [length_range] at hle
    omega
  | succ fuel ih =>
    intro slots hslots
    have hvisit : id ∉ visiting := fun h => hl.not_contains (hpath id h)
    by_cases hmemo : ∃ memo, slots[id]? = some (some memo)
    · obtain ⟨memo, hmemo⟩ := hmemo
      obtain rfl := (hslots.laidOut hmemo).agree (.refl shapes) hl
      exact ⟨slots, by rw [classLayout, hmemo], hslots, fun h => h, hmemo⟩
    · rw [not_exists] at hmemo
      cases hl with
      | @intro _ c offsets size align total hc hp hr =>
        have hlt : id < shapes.length := (List.getElem?_eq_some_iff.mp hc).1
        have hfields : ∀ f ∈ c.fields, ∀ fs fa, Sized shapes f fs fa →
            Gives shapes (sizeAlign shapes (classLayout shapes fuel (id :: visiting)) f) (fs, fa) := by
          intro f hf fs fa hsized
          refine sizeAlign_gives hsized fun child l hembeds hchild slots hslots => ?_
          have hcontains : Contains shapes id child := ⟨c, hc, f, hf, hembeds⟩
          obtain ⟨slots', hcall, hslots', hkept, -⟩ := ih (nodup_cons.2 ⟨hvisit, hnodup⟩)
            (by simpa using ⟨hlt, hrange⟩) (by simp; omega) (contains_path hpath hcontains) hchild slots hslots
          exact ⟨slots', hcall, hslots', hkept⟩
        obtain ⟨slots', hcall, hslots', hkept⟩ := placeFields_gives hp hfields slots hslots
        have hstep := classLayout_step hmemo hc hvisit hcall hr
        refine ⟨_, hstep, (classLayout_follows _ _ hslots hstep).2, fun {j l'} h => ?_,
          getElem?_set_self (hslots'.length.symm ▸ hlt)⟩
        have hj : id ≠ j := fun hj => hmemo l' (hj ▸ h)
        rw [getElem?_set_ne hj]
        exact hkept h

/-- if each class has a layout, the table is built -/
theorem build_of_laidOut (h : ∀ id, id < shapes.length → ∃ l, LaidOut shapes id l) :
    ∃ table, buildShapes shapes = .ok table := by
  have hbuild (ids : List ClassId) (hids : ∀ id ∈ ids, id < shapes.length) (slots : Slots) (hslots : SlotsLaidOut shapes slots) :
      ∃ slots', buildFrom shapes ids slots = .ok slots' ∧ SlotsLaidOut shapes slots' ∧ Kept slots slots' ∧
        ∀ id ∈ ids, ∃ l, slots'[id]? = some (some l) := by
    induction ids generalizing slots with
    | nil => exact ⟨slots, rfl, hslots, fun h => h, by simp⟩
    | cons id ids ih =>
      obtain ⟨l, hl⟩ := h id (hids id mem_cons_self)
      obtain ⟨next, hcall, hnext, hkept, hself⟩ := classLayout_gives nodup_nil (by simp)
        (Nat.add_zero (shapes.length + 1)) (by simp) hl slots hslots
      obtain ⟨slots', hrest, hslots', hkept', hfilled⟩ := ih (fun id hid => hids id (mem_cons_of_mem _ hid)) next hnext
      refine ⟨slots', by simp [buildFrom, hcall, hrest], hslots', fun h => hkept' (hkept h), ?_⟩
      exact forall_mem_cons.2 ⟨⟨l, hkept' hself⟩, hfilled⟩
  have hcollect (slots : Slots) (hfull : ∀ slot ∈ slots, ∃ l, slot = some l) (i : Nat) : ∃ table, collect i slots = .ok table := by
    induction slots generalizing i with
    | nil => exact ⟨[], rfl⟩
    | cons slot slots ih =>
      obtain ⟨l, rfl⟩ := hfull slot mem_cons_self
      obtain ⟨table, htable⟩ := ih (fun slot hmem => hfull slot (mem_cons_of_mem _ hmem)) (i + 1)
      exact ⟨l :: table, by simp [collect, htable]⟩
  have hempty : SlotsLaidOut shapes (List.replicate shapes.length none) := by
    refine ⟨length_replicate, fun {id l} hl => ?_⟩
    obtain ⟨_, hnone⟩ := List.getElem?_eq_some_iff.mp hl
    simp at hnone
  obtain ⟨slots, hslots, hlaid, -, hfilled⟩ := hbuild (List.range shapes.length) (by simp) _ hempty
  obtain ⟨table, htable⟩ := hcollect slots (fun slot hmem => by
    obtain ⟨i, hi, rfl⟩ := mem_iff_getElem.1 hmem
    obtain ⟨l, hl⟩ := hfilled i (mem_range.2 (hlaid.length ▸ hi))
    exact ⟨l, by simpa [hi] using hl⟩) 0
  exact ⟨table, by simp [buildShapes, hslots, htable]⟩

end Builder

section Pass

open Validator

section

variable (ho : SmallOverrides shapes)

include ho

theorem classLayout_outer (id : ClassId) :
    Answers shapes (Validator.classLayout shapes (shapes.length + 1) [] id) fun o p =>
      FitsClass shapes id o ∧ (id ∉ [] → id < shapes.length → p.states[id]? = some (some o)) :=
  classLayout_answers ho nodup_nil (by simp) (Nat.add_zero _) (by simp)

theorem typeLayout_outer (ty : Ty) :
    Answers shapes (typeLayout shapes (Validator.classLayout shapes (shapes.length + 1) []) ty) fun o _ => Fits shapes ty o := by
  refine typeLayout_answers ho fun id _ q hq => ?_
  obtain ⟨o, q', h, hq', hg, hfits, -⟩ := classLayout_outer ho id q hq
  exact ⟨o, q', h, hq', hg, hfits⟩

theorem validatePending_spec (pending : List Ty) (p : Pass) (hp : Sound shapes p) :
    ∃ p', validatePending shapes pending p = some p' ∧ Sound shapes p' ∧ Grows p p' ∧
      (p'.diagnostics = [] → ∀ ty ∈ pending, ∃ q o q', Sound shapes q ∧
        typeLayout shapes (Validator.classLayout shapes (shapes.length + 1) []) ty q = some (o, q') ∧ o ≠ .tooLarge) := by
  induction pending generalizing p with
  | nil => exact ⟨p, rfl, hp, .refl p, by simp⟩
  | cons ty pending ih =>
    obtain ⟨o, q, hcall, hq, hg, -⟩ := typeLayout_outer ho ty p hp
    by_cases hlarge : o = .tooLarge
    · obtain ⟨p', hrest, hp', hg', -⟩ := ih (q.reject (.storedAggregateLayoutLimit ty)) (hq.reject _)
      refine ⟨p', by simp [validatePending, hcall, hlarge, hrest], hp', (hg.trans (.reject q _)).trans hg', fun hnil => ?_⟩
      exact absurd (hg'.diagnostics hnil) (reject_ne_nil q _)
    · obtain ⟨p', hrest, hp', hg', haccepted⟩ := ih q hq
      refine ⟨p', by simp [validatePending, hcall, hlarge, hrest], hp', hg.trans hg', fun hnil => ?_⟩
      exact forall_mem_cons.2 ⟨⟨p, o, q, hp, hcall, hlarge⟩, haccepted hnil⟩

theorem validateClasses_spec (ids : List ClassId) (hids : ∀ id ∈ ids, id < shapes.length) (p : Pass)
    (hp : Sound shapes p) : ∃ p', validateClasses shapes ids p = some p' ∧ Sound shapes p' ∧ Grows p p' ∧
      ∀ id ∈ ids, ∃ o, p'.states[id]? = some (some o) := by
  induction ids generalizing p with
  | nil => exact ⟨p, rfl, hp, .refl p, by simp⟩
  | cons id ids ih =>
    obtain ⟨o, q, hcall, hq, hg, -, hself⟩ := classLayout_outer ho id p hp
    obtain ⟨p', hrest, hp', hg', hfilled⟩ := ih (fun id hid => hids id (mem_cons_of_mem _ hid)) q hq
    refine ⟨p', by simp [validateClasses, hcall, hrest], hp', hg.trans hg', ?_⟩
    exact forall_mem_cons.2 ⟨⟨o, hg'.states (hself (by simp) (hids id mem_cons_self))⟩, hfilled⟩

end

/-- every type but a class or an aggregate is a scalar -/
theorem scalar_or (ty : Ty) :
    (∃ s a, scalarSizeAlign ty = .ok (s, a)) ∨ (∃ id, ty = .cls id) ∨ (∃ e n, ty = .fixedArray e n) ∨ ∃ v, ty = .iterResult v := by
  unfold scalarSizeAlign
  split <;> first | exact .inl ⟨_, _, rfl⟩ | skip
  cases ty <;> simp_all

/-- an array whose elements have a layout and that the pass does not find too large -/
theorem sized_of_accepted (ho : SmallOverrides shapes) {elem : Ty} {n es ea : Nat} (he : Sized shapes elem es ea) {q q' : Pass}
    {o : Outcome} (hq : Sound shapes q) (hlarge : o ≠ .tooLarge)
    (hcall : typeLayout shapes (Validator.classLayout shapes (shapes.length + 1) []) (.fixedArray elem n) q = some (o, q')) :
    ∃ s a, Sized shapes (.fixedArray elem n) s a := by
  obtain ⟨oe, r, hcall', -, -, hfits⟩ := typeLayout_outer ho elem q hq
  obtain rfl := (hfits es ea).2 he
  have harray := Fits.array ho hfits n
  obtain rfl : o = arrayLayout (.layout es ea) n := by
    simp only [typeLayout, hcall', Option.bind_eq_bind, Option.bind_some, Option.pure_def, Option.some.injEq,
      Prod.mk.injEq] at hcall
    exact hcall.1.symm
  cases h : arrayLayout (.layout es ea) n with
  | layout s a => exact ⟨s, a, (harray s a).1 h⟩
  | tooLarge => exact absurd h hlarge
  | invalid =>
    unfold arrayLayout at h
    split at h
    case h_2 hnot => exact absurd rfl (hnot es ea)
    case h_1 heq =>
      cases heq
      split at h
      case h_2 => cases h
      case h_1 => split at h <;> (try split at h) <;> cases h

theorem Embeds.lt (ty : Ty) {c : ClassId} (h : Embeds shapes ty c) : c < shapes.length := by
  unfold Embeds at h
  split at h
  · obtain ⟨rfl, s, hs, -⟩ := h
    exact (List.getElem?_eq_some_iff.1 hs).1
  · exact Embeds.lt _ h
  · exact Embeds.lt _ h
  · exact h.elim

theorem sized_of_resolved (ho : SmallOverrides shapes) {pending : List Ty}
    (haccepted : ∀ ty ∈ pending, ∃ q o q', Sound shapes q ∧
      typeLayout shapes (Validator.classLayout shapes (shapes.length + 1) []) ty q = some (o, q') ∧ o ≠ .tooLarge)
    (ty : Ty) (hresolved : Resolved shapes pending ty) (hchild : ∀ id, Embeds shapes ty id → ∃ l, LaidOut shapes id l) :
    ∃ s a, Sized shapes ty s a := by
  rcases scalar_or ty with ⟨s, a, h⟩ | ⟨id, rfl⟩ | ⟨elem, n, rfl⟩ | ⟨v, rfl⟩
  · exact ⟨s, a, .scalar h⟩
  · obtain ⟨c, hc⟩ : ∃ c, shapes[id]? = some c := ⟨_, getElem?_eq_getElem hresolved⟩
    cases hval : c.isValue with
    | false => exact ⟨8, 8, .reference hc hval⟩
    | true =>
      obtain ⟨l, hl⟩ := hchild id ⟨rfl, c, hc, hval⟩
      exact ⟨_, _, .value hc hval hl⟩
  · obtain ⟨helem, harray⟩ := hresolved
    obtain ⟨es, ea, he⟩ := sized_of_resolved ho haccepted elem helem hchild
    split at harray
    case h_1 s a h => exact ⟨s, a, sized_of_independent ho h⟩
    case h_2 => exact harray.elim
    case h_3 =>
      obtain ⟨q, o, q', hq, hcall, hlarge⟩ := haccepted _ harray
      exact sized_of_accepted ho he hq hlarge hcall
  · exact hresolved.elim

end Pass

theorem Sized.le_max {ty : Ty} {s a : Nat} : Sized shapes ty s a → s ≤ maxAggregateBytes
  | .scalar h => by
    revert h
    unfold scalarSizeAlign
    split <;> intro h <;> first | (cases h; decide) | (cases h)
  | .reference _ _ => by decide
  | .value _ _ (.intro _ _ hr) => (of_roundUp hr).2.2
  | .fixedArray _ _ hm => (checkedMulSize_eq_ok.1 hm).1 ▸ (checkedMulSize_eq_ok.1 hm).2
  | .iterResult _ _ _ hr => (of_roundUp hr).2.2

/-- what the table sizes, the rules size -/
theorem Built.sized {table : List ClassLayout} (hb : Built shapes table) (ty : Ty) {s a : Nat}
    (h : Layouts.sizeAlign table ty = .ok (s, a)) : Sized shapes ty s a := by
  have same {s' a' : Nat} (hsized : Sized shapes ty s' a') : Sized shapes ty s a := by
    rw [hb.sizeAlign hsized] at h
    cases h
    exact hsized
  rcases scalar_or ty with ⟨s', a', h'⟩ | ⟨id, rfl⟩ | ⟨elem, n, rfl⟩ | ⟨v, rfl⟩
  · exact same (.scalar h')
  · obtain ⟨l, hl, -⟩ := bind_eq_ok h
    have hget : table[id]? = some l := by
      unfold Layouts.classAt at hl
      split at hl <;> cases hl
      assumption
    have hlt : id < shapes.length := hb.length ▸ (List.getElem?_eq_some_iff.1 hget).1
    have hc := getElem?_eq_getElem hlt
    cases hval : shapes[id].isValue with
    | false => exact same (.reference hc hval)
    | true => exact same (.value hc hval (hb.laidOut hget))
  · obtain ⟨⟨es, ea⟩, he, h⟩ := bind_eq_ok h
    obtain ⟨stride, hr, h⟩ := bind_eq_ok h
    obtain ⟨bytes, hm, hret⟩ := bind_eq_ok h
    cases hret
    exact .fixedArray (hb.sized elem he) hr hm
  · obtain ⟨⟨vs, va⟩, hv, h⟩ := bind_eq_ok h
    obtain ⟨offset, ho, h⟩ := bind_eq_ok h
    obtain ⟨stop, hs, h⟩ := bind_eq_ok h
    obtain ⟨bytes, hr, hret⟩ := bind_eq_ok h
    cases hret
    exact .iterResult (hb.sized v hv) ho hs hr

/-- For the classes of a checked module: a table that is built has one layout of each class, every class is well placed and
the elements of an array are, the padding of a type is listed in order and without overlaps, and it is what no scalar leaf
occupies. The layout pass computes the same sizes and alignments, and if it reports nothing and no class contains itself, the
table is built. -/
theorem layouts_sound_and_accepted (c : CheckedClasses) :
    (∀ table, buildShapes c.shapes = .ok table → table.length = c.shapes.length ∧
      (∀ (id : ClassId) (shape : ClassShape), c.shapes[id]? = some shape →
        ∃ l, table[id]? = some l ∧ Layouts.Of table shape l) ∧
      (∀ (id : ClassId) (l : ClassLayout), table[id]? = some l → Layouts.WellPlaced table l) ∧
      ∀ ty s a, Layouts.sizeAlign table ty = .ok (s, a) →
        (a ∣ s ∧ ∀ d, Layouts.stride table ty = .ok d → a ∣ d ∧ s ≤ d) ∧
        ∃ ranges, (∃ need, ∀ fuel ≥ need, Layouts.collectPaddingRanges table fuel ty 0 = .ok ranges) ∧
          Memory.Gaps 0 s {b | Layouts.LeafByte table ty b} ranges) ∧
    ∃ p, Validator.validate c.shapes c.pending = some p ∧
      (∀ table, buildShapes c.shapes = .ok table → ∀ (id : ClassId) (l : ClassLayout), table[id]? = some l →
        p.states[id]? = some (some (.layout l.size l.align))) ∧
      (p.diagnostics = [] → (∀ id, ¬ Relation.TransGen (Contains c.shapes) id id) →
        ∃ table, buildShapes c.shapes = .ok table) := by
  have ho : SmallOverrides c.shapes := ⟨fun hc => c.overrides _ (mem_of_getElem? hc)⟩
  refine ⟨fun table hbuild => ?_, ?_⟩
  · obtain ⟨hlen, hlaid⟩ := buildShapes_laidOut hbuild
    have hb : Built c.shapes table := ⟨hlen, hlaid⟩
    refine ⟨hlen, fun id shape hc => hb.of hc, fun id l h => hb.wellPlaced h, fun ty s a hs => ?_⟩
    have hsized := hb.sized ty hs
    refine ⟨⟨hsized.aligned.2, fun d hd => ?_⟩, ?_⟩
    · simp only [Layouts.stride, hs, ok_bind] at hd
      obtain ⟨hp, rfl, -⟩ := of_roundUp hd
      exact ⟨dvd_roundedUp, le_roundedUp (Nat.pos_of_isPowerOfTwo hp)⟩
    · obtain ⟨ranges, hranges, hgaps⟩ := hsized.padding hb 0 (by simpa using hsized.le_max)
      exact ⟨ranges, hranges, by simpa using hgaps⟩
  · have hempty : Sound c.shapes ⟨List.replicate c.shapes.length none, []⟩ := by
      refine ⟨length_replicate, fun {id o} h => ?_, fun {id o} h => ?_⟩ <;>
      · obtain ⟨_, hnone⟩ := List.getElem?_eq_some_iff.mp h
        simp at hnone
    obtain ⟨p₁, hpending, hp₁, -, haccepted⟩ := validatePending_spec ho c.pending _ hempty
    obtain ⟨p, hclasses, hp, hg, hfilled⟩ := validateClasses_spec ho (List.range c.shapes.length) (by simp) p₁ hp₁
    refine ⟨p, by simp [Validator.validate, hpending, hclasses], fun table hbuild id l hl => ?_, fun hnil hacyclic => ?_⟩
    · obtain ⟨hlen, hlaid⟩ := buildShapes_laidOut hbuild
      obtain ⟨o, ho⟩ := hfilled id (List.mem_range.2 (hlen ▸ (List.getElem?_eq_some_iff.1 hl).1))
      rw [ho, (hp.fits ho _ _).2 ⟨l, hlaid hl, rfl, rfl⟩]
    · -- from the innermost classes outwards
      have wf : WellFounded fun i j : Fin c.shapes.length => Relation.TransGen (Contains c.shapes) j i :=
        @Finite.wellFounded_of_trans_of_irrefl _ _ _ ⟨fun _ _ _ h h' => h'.trans h⟩ ⟨fun i => hacyclic i⟩
      refine build_of_laidOut fun id hlt => ?_
      suffices ∀ i : Fin c.shapes.length, ∃ l, LaidOut c.shapes i l from this ⟨id, hlt⟩
      intro i
      induction i using wf.induction with
      | _ i ih =>
        have hc : c.shapes[i.1]? = some c.shapes[i.1] := getElem?_eq_getElem i.2
        obtain ⟨o, ho'⟩ := hfilled i (List.mem_range.2 i.2)
        have hlayout : ∃ s a, o = .layout s a := by
          by_contra hbad
          have hfields : ∀ field ∈ c.shapes[i.1].fields, ∃ s a, Sized c.shapes field s a := by
            intro field hf
            refine sized_of_resolved ho (haccepted (hg.diagnostics hnil)) field (c.resolved _ (getElem_mem i.2) field hf) ?_
            intro child hembeds
            exact ih ⟨child, hembeds.lt⟩ (.single ⟨_, hc, field, hf, hembeds⟩)
          rcases hp.blamed ho' (fun s a h => hbad ⟨s, a, h⟩) with h | ⟨s, hs, field, hf, hunsized⟩
          · exact h hnil
          · obtain rfl := Option.mem_unique hs hc
            obtain ⟨s, a, h⟩ := hfields field hf
            exact hunsized s a h
        obtain ⟨s, a, rfl⟩ := hlayout
        obtain ⟨l, hl, -⟩ := (hp.fits ho' s a).1 rfl
        exact ⟨l, hl⟩

end Subscript.Reload
