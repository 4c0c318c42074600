import Subscript.Reload.HashText
import Subscript.Reload.LayoutRules

/-! A reload that the hash gate accepts keeps every slot. It keeps the layouts exactly when it keeps the
alignment overrides that have an effect: the hashed text of a class does not have its override. -/

namespace Subscript.Reload

section Slots

variable {m₁ m₂ : Module}

theorem functionSlots_eq {f g : Function} (h : SameShape f g) (i : Nat) : functionSlots f i = functionSlots g i := by
  simp only [functionSlots, h.isGenerator, h.isAsync, h.noParams, h.ret]

theorem methodSlots_eq {f g : Function} (h : SameShape f g) (c i : Nat) : methodSlots c f i = methodSlots c g i := by
  simp only [methodSlots, h.isAsync]

theorem flatMap_zipIdx_congr {α β γ : Type} {f : α → Nat → List γ} {g : β → Nat → List γ} {xs : List α}
    {ys : List β} (h : List.Forall₂ (fun x y => ∀ i, f x i = g y i) xs ys) (n : Nat) :
    ((xs.zipIdx n).flatMap fun (x, i) => f x i) = (ys.zipIdx n).flatMap fun (y, i) => g y i := by
  induction h generalizing n with
  | nil => rfl
  | cons hxy _ ih => simp only [List.zipIdx_cons, List.flatMap_cons, hxy, ih]

theorem classSlots_eq {c d : ClassDef} (h : memberEntries m₁ c = memberEntries m₂ d) (i : Nat) :
    classSlots c i = classSlots d i := by
  obtain ⟨hctor, hmethods⟩ := members_of_entries h
  have hkey : (c.ctor.map fun _ => FnKey.ctor i) = d.ctor.map fun _ => FnKey.ctor i := by
    have hmap := congrArg (Option.map fun _ => FnKey.ctor i) hctor
    simpa [Function.comp_def] using hmap
  rw [classSlots, classSlots, hkey]
  congr 1
  apply flatMap_zipIdx_congr
  refine hmethods.imp fun f g hfg j => methodSlots_eq ?_ i j
  exact sameShape_of_signatureText "" "" (by rw [hfg.2])

theorem reserveSlots_eq (h : declarationEntries m₁ = declarationEntries m₂) : reserveSlots m₁ = reserveSlots m₂ := by
  have hfunctions := (functions_of_entries h).imp fun f g hfg =>
    functionSlots_eq (sameShape_of_signatureText (f.symbol ++ "|") (g.symbol ++ "|") (Prod.mk.inj hfg).2)
  have hclasses := (classes_of_entries h).imp fun c d hcd => classSlots_eq hcd.2
  rw [reserveSlots, reserveSlots, flatMap_zipIdx_congr hfunctions, flatMap_zipIdx_congr hclasses]

theorem forall₂_getElem? {α β γ : Type} {R : α → β → Prop} {f : α → Option γ} {g : β → Option γ} {xs : List α}
    {ys : List β} (h : List.Forall₂ R xs ys) (hfg : ∀ {x y}, R x y → f x = g y) (i : Nat) :
    xs[i]?.bind f = ys[i]?.bind g := by
  induction h generalizing i with
  | nil => rfl
  | cons hxy _ ih =>
    cases i with
    | zero => exact hfg hxy
    | succ i => simpa using ih i

/-- a key belongs to the same declaration in both modules -/
theorem declaration_eq (h : declarationEntries m₁ = declarationEntries m₂) (key : FnKey) :
    key.declaration m₁ = key.declaration m₂ := by
  have hfunction : ∀ i : Nat, (freeFunctions m₁)[i]?.map (functionLabel m₁) = (freeFunctions m₂)[i]?.map (functionLabel m₂) := by
    intro i
    rw [Option.map_eq_bind, Option.map_eq_bind]
    exact forall₂_getElem? (functions_of_entries h) (fun hfg => congrArg some (Prod.mk.inj hfg).1) i
  have hmethod : ∀ i j : Nat, (m₁.classes[i]?.bind fun c => c.methods[j]?.map (methodLabel m₁ c)) =
      m₂.classes[i]?.bind fun c => c.methods[j]?.map (methodLabel m₂ c) := by
    intro i j
    refine forall₂_getElem? (classes_of_entries h) (fun {c d} hcd => ?_) i
    rw [Option.map_eq_bind, Option.map_eq_bind]
    exact forall₂_getElem? (members_of_entries hcd.2).2 (fun hfg => congrArg some hfg.1) j
  cases key with
  | free i => exact hfunction i
  | resume i => exact hfunction i
  | asyncExport i => exact hfunction i
  | wrapper i => exact hfunction i
  | ctor i => exact forall₂_getElem? (classes_of_entries h) (fun hcd => (members_of_entries hcd.2).1) i
  | method i j => exact hmethod i j
  | methodResume i j => exact hmethod i j
  | init => rfl

end Slots

section Overrides

variable {shapes shapes₁ shapes₂ : List ClassShape}

/-- the override, which has no effect when it is absent or 1 -/
def ClassShape.override (c : ClassShape) : Nat := c.alignment.getD 1

/-- the override of a class is larger than the alignment of each of its fields -/
def Raises (shapes : List ClassShape) (id : ClassId) : Prop :=
  ∃ c offsets size align, shapes[id]? = some c ∧ Placed shapes c.fields 0 1 offsets size align ∧ align < c.override

/-- every class has the same override in both, or one with an effect in neither -/
def OverridesAgree (shapes₁ shapes₂ : List ClassShape) : Prop :=
  ∀ id c₁ c₂, shapes₁[id]? = some c₁ → shapes₂[id]? = some c₂ →
    c₁.override = c₂.override ∨ ¬ Raises shapes₁ id ∧ ¬ Raises shapes₂ id

theorem withOverride_eq_max {align : Nat} {alignment : Option Nat} (h : 1 ≤ align) :
    withOverride align alignment = max align (alignment.getD 1) := by
  cases alignment with
  | none => exact (Nat.max_eq_left h).symm
  | some override => rfl

/-- the same classes in the same order, up to names and overrides -/
structure SameFields (shapes₁ shapes₂ : List ClassShape) : Prop where
  length : shapes₁.length = shapes₂.length
  same : ∀ {id : ClassId} {c₁ c₂ : ClassShape}, shapes₁[id]? = some c₁ → shapes₂[id]? = some c₂ →
    c₁.isValue = c₂.isValue ∧ c₁.fields = c₂.fields

theorem congruent_of_overridesAgree (hsame : SameFields shapes₁ shapes₂) (h : OverridesAgree shapes₁ shapes₂) :
    Congruent shapes₁ shapes₂ where
  same := hsame.same
  align := by
    intro id c₁ c₂ hc₁ hc₂ offsets size align hp₁ hp₂
    rw [withOverride_eq_max hp₁.align_le, withOverride_eq_max hp₁.align_le]
    rcases h id c₁ c₂ hc₁ hc₂ with heq | ⟨hno₁, hno₂⟩
    · exact congrArg (max align) heq
    · have hle₁ : ¬ align < c₁.override := fun hlt => hno₁ ⟨c₁, _, _, _, hc₁, hp₁, hlt⟩
      have hle₂ : ¬ align < c₂.override := fun hlt => hno₂ ⟨c₂, _, _, _, hc₂, hp₂, hlt⟩
      unfold ClassShape.override at hle₁ hle₂
      omega

variable {t₁ t₂ : List ClassLayout}

/-- what live memory depends on -/
def SameLayouts (t₁ t₂ : List ClassLayout) : Prop :=
  t₁.map (fun l => (l.size, l.align, l.fieldOffsets)) = t₂.map fun l => (l.size, l.align, l.fieldOffsets)

instance : Decidable (SameLayouts t₁ t₂) := inferInstanceAs (Decidable (_ = _))

theorem exists_laidOut (h : buildShapes shapes = .ok t₁) {id : ClassId} {c : ClassShape} (hc : shapes[id]? = some c) :
    ∃ l, t₁[id]? = some l ∧ LaidOut shapes id l := by
  obtain ⟨hlen, hlaid⟩ := buildShapes_laidOut h
  have hlt : id < t₁.length := hlen ▸ (List.getElem?_eq_some_iff.mp hc).1
  exact ⟨t₁[id], List.getElem?_eq_getElem hlt, hlaid (List.getElem?_eq_getElem hlt)⟩

/-- tables with the same alignments have congruent classes -/
theorem congruent_of_sameLayouts (hsame : SameFields shapes₁ shapes₂) (h₁ : buildShapes shapes₁ = .ok t₁)
    (h₂ : buildShapes shapes₂ = .ok t₂) (h : SameLayouts t₁ t₂) : Congruent shapes₁ shapes₂ where
  same := hsame.same
  align := by
    intro id c₁ c₂ hc₁ hc₂ offsets size align hp₁ hp₂
    obtain ⟨l₁, ht₁, hl₁⟩ := exists_laidOut h₁ hc₁
    obtain ⟨l₂, ht₂, hl₂⟩ := exists_laidOut h₂ hc₂
    have hget := congrArg (fun t => t[id]?) h
    simp only [List.getElem?_map, ht₁, ht₂, Option.map_some, Option.some.injEq, Prod.mk.injEq] at hget
    obtain ⟨_, _, _, hq₁, ha₁⟩ := hl₁.placed hc₁
    obtain ⟨_, _, _, hq₂, ha₂⟩ := hl₂.placed hc₂
    rw [hp₁.unique hq₁, ← ha₁, hget.2.1, ha₂, hq₂.unique hp₂, hp₁.unique hq₁]

theorem overridesAgree_of_congruent (h₁ : buildShapes shapes₁ = .ok t₁) (h₂ : buildShapes shapes₂ = .ok t₂)
    (h : Congruent shapes₁ shapes₂) : OverridesAgree shapes₁ shapes₂ := by
  intro id c₁ c₂ hc₁ hc₂
  obtain ⟨l₁, -, hl₁⟩ := exists_laidOut h₁ hc₁
  obtain ⟨l₂, -, hl₂⟩ := exists_laidOut h₂ hc₂
  obtain ⟨offsets, size, align, hp₁, -⟩ := hl₁.placed hc₁
  obtain ⟨offsets', size', align', hp₂, -⟩ := hl₂.placed hc₂
  have hp := (h.same hc₁ hc₂).2 ▸ hp₁
  obtain ⟨rfl, rfl, rfl⟩ := Placed.agree h hp hp₂
  have halign := h.align hc₁ hc₂ _ hp₁ hp₂
  rw [withOverride_eq_max hp₁.align_le, withOverride_eq_max hp₁.align_le] at halign
  change max align c₁.override = max align c₂.override at halign
  by_cases hlt : align < c₁.override ∨ align < c₂.override
  · exact .inl (by omega)
  · refine .inr ⟨?_, ?_⟩
    · rintro ⟨c, _, _, _, hc, hq, hraise⟩
      obtain rfl := Option.mem_unique hc hc₁
      rw [hq.unique hp₁] at hraise
      exact hlt (.inl hraise)
    · rintro ⟨c, _, _, _, hc, hq, hraise⟩
      obtain rfl := Option.mem_unique hc hc₂
      rw [hq.unique hp₂] at hraise
      exact hlt (.inr hraise)

theorem sameLayouts_of_congruent (hsame : SameFields shapes₁ shapes₂) (h₁ : buildShapes shapes₁ = .ok t₁)
    (h₂ : buildShapes shapes₂ = .ok t₂) (h : Congruent shapes₁ shapes₂) : SameLayouts t₁ t₂ := by
  obtain ⟨hlen₁, hlaid₁⟩ := buildShapes_laidOut h₁
  obtain ⟨hlen₂, hlaid₂⟩ := buildShapes_laidOut h₂
  have heq : t₁ = t₂ := by
    apply List.ext_getElem (by rw [hlen₁, hlen₂, hsame.length])
    intro id hid₁ hid₂
    exact LaidOut.agree h (hlaid₁ (List.getElem?_eq_getElem hid₁)) (hlaid₂ (List.getElem?_eq_getElem hid₂))
  rw [heq]
  rfl

theorem sameLayouts_iff (hsame : SameFields shapes₁ shapes₂) (h₁ : buildShapes shapes₁ = .ok t₁)
    (h₂ : buildShapes shapes₂ = .ok t₂) : SameLayouts t₁ t₂ ↔ OverridesAgree shapes₁ shapes₂ :=
  ⟨fun h => overridesAgree_of_congruent h₁ h₂ (congruent_of_sameLayouts hsame h₁ h₂ h),
    fun h => sameLayouts_of_congruent hsame h₁ h₂ (congruent_of_overridesAgree hsame h)⟩

end Overrides

section Gate

variable {H : Type} {hash : String → H} {m₁ m₂ : Module}

theorem declarationEntries_eq (hinj : Function.Injective hash)
    (h : declarationHash m₁ hash = declarationHash m₂ hash) : declarationEntries m₁ = declarationEntries m₂ := by
  refine List.map_injective_iff.mpr ?_ h
  rintro ⟨name, text⟩ ⟨name', text'⟩ heq
  obtain ⟨hname, htext⟩ := Prod.mk.inj heq
  rw [hname, hinj htext]

/-- a refused reload names a declaration -/
theorem firstDifference_eq_none_iff [DecidableEq H] {old new : List (String × H)} :
    firstDifference old new = none ↔ old = new := by
  induction old generalizing new with
  | nil => cases new <;> simp [firstDifference]
  | cons e old ih =>
    cases new with
    | nil => simp [firstDifference]
    | cons e' new =>
      obtain ⟨name, h⟩ := e
      obtain ⟨name', h'⟩ := e'
      by_cases hname : name = name'
      · by_cases hh : h = h'
        · simp [firstDifference, hname, hh, ih]
        · simp [firstDifference, hname, hh]
      · simp [firstDifference, hname]

def Module.shapes (m : Module) : List ClassShape := m.classes.map ClassDef.shape

theorem sameFields_of_entries (h : declarationEntries m₁ = declarationEntries m₂) :
    SameFields m₁.shapes m₂.shapes := by
  have hclasses := classes_of_entries h
  refine ⟨by simpa [Module.shapes] using hclasses.length_eq, ?_⟩
  intro id c₁ c₂ hc₁ hc₂
  obtain ⟨d₁, hd₁, rfl⟩ : ∃ d, m₁.classes[id]? = some d ∧ d.shape = c₁ := by simpa [Module.shapes] using hc₁
  obtain ⟨d₂, hd₂, rfl⟩ : ∃ d, m₂.classes[id]? = some d ∧ d.shape = c₂ := by simpa [Module.shapes] using hc₂
  have htext : some d₁.text = some d₂.text := by
    have hget := forall₂_getElem? hclasses
      (fun hcd => congrArg (fun e => some e.2) hcd.1) id
    rwa [hd₁, hd₂] at hget
  exact class_of_text (Option.some.inj htext)

/-- a reload with the declaration hash of the live module keeps every slot, and it keeps the size, the
alignment and the field offsets of every class exactly when the overrides with an effect are the same -/
theorem accepted_reload_safe_iff (hinj : Function.Injective hash)
    (hhash : declarationHash m₁ hash = declarationHash m₂ hash) {t₁ t₂ : List ClassLayout}
    (h₁ : build m₁ = .ok t₁) (h₂ : build m₂ = .ok t₂) :
    (SameLayouts t₁ t₂ ∧ ∀ key : FnKey, slotOf m₁ key = slotOf m₂ key ∧ key.declaration m₁ = key.declaration m₂) ↔
      OverridesAgree m₁.shapes m₂.shapes := by
  have hentries := declarationEntries_eq hinj hhash
  have hlayouts := sameLayouts_iff (sameFields_of_entries hentries) h₁ h₂
  have hslots : ∀ key : FnKey, slotOf m₁ key = slotOf m₂ key ∧ key.declaration m₁ = key.declaration m₂ := by
    intro key
    refine ⟨?_, declaration_eq hentries key⟩
    rw [slotOf, slotOf, reserveSlots_eq hentries]
  rw [← hlayouts]
  exact ⟨fun h => h.1, fun h => ⟨h, hslots⟩⟩

def declaredAt (line : Nat) : Pos := { file := "main.ts", line, col := 1 }

/-- `@ValueType class P { x: i32 }`, with and without an alignment -/
def pointModule (alignment : Option Nat) : Module where
  hostEntries := []
  classes := [{
    name := "P", isValue := true, alignmentOverride := alignment
    fields := [{ name := ⟨"x", by simp⟩, ty := .i32 }]
    ctor := none, methods := [], pos := declaredAt 1 }]
  enums := []
  stringAliases := []
  globals := []
  functions := []
  initializerModules := ["main.ts"]
  lambdaEscapes := []

def pointLayout (size align : Nat) : ClassLayout where
  size := size
  align := align
  fieldOffsets := [0]
  fieldTypes := [.i32]
  isValue := true

/-- an alignment that the field has anyway -/
theorem accepted_reload_safe_iff_point :
    (SameLayouts [pointLayout 4 4] [pointLayout 4 4] ∧ ∀ key : FnKey,
      slotOf (pointModule none) key = slotOf (pointModule (some 4)) key ∧
        key.declaration (pointModule none) = key.declaration (pointModule (some 4))) ↔
      OverridesAgree (pointModule none).shapes (pointModule (some 4)).shapes :=
  have hbuild : build (pointModule none) = .ok [pointLayout 4 4] := by decide
  have hbuild' : build (pointModule (some 4)) = .ok [pointLayout 4 4] := by decide
  have hhash : declarationHash (pointModule none) id = declarationHash (pointModule (some 4)) id := rfl
  accepted_reload_safe_iff (fun _ _ h => h) hhash hbuild hbuild'

/-- an alignment that the field does not have: the same hash, another size -/
theorem accepted_reload_moves_memory :
    (∀ hash : String → String, declarationHash (pointModule none) hash = declarationHash (pointModule (some 8)) hash) ∧
      build (pointModule none) = .ok [pointLayout 4 4] ∧ build (pointModule (some 8)) = .ok [pointLayout 8 8] ∧
      ¬ SameLayouts [pointLayout 4 4] [pointLayout 8 8] :=
  ⟨fun _ => rfl, by decide, by decide, by decide⟩

end Gate

end Subscript.Reload
