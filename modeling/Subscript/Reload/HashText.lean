import Mathlib.Data.List.Forall2
import Subscript.Reload.Declarations
import Subscript.Text.Split
import Subscript.TypesText

/-! What the hashed texts determine: the kind and the field types of every class, and what the slots read of
every signature. -/

namespace Subscript.Reload

open List Text

section Signature

variable {f g : Function}

def flagsText (exported isGenerator isAsync : Bool) : String :=
  (if exported then " export" else "") ++ (if isGenerator then " generator" else "") ++
    (if isAsync then " async" else "")

theorem flagsText_stops : ∀ e g a, Stops Char.isAlphanum (flagsText e g a).toList := by decide

theorem flagsText_not_mem : ∀ e g a, '>' ∉ (flagsText e g a).toList := by decide

theorem flagsText_inj : ∀ {e g a e' g' a'}, flagsText e g a = flagsText e' g' a' → g = g' ∧ a = a' := by decide

def paramsText (f : Function) : List Char := (",".intercalate (f.params.map Param.text)).toList

theorem Param.text_getLast? (p : Param) : p.text.toList.getLast? = some 'e' := by
  have hbool : ∀ b : Bool, ('=' :: (toString b).toList).getLast? = some 'e' := by decide
  simp [Param.text, hbool]

theorem paramsText_getLast? (h : f.params ≠ []) : (paramsText f).getLast? = some 'e' := by
  rw [paramsText, String.toList_intercalate]
  apply getLast?_intercalate
  · simpa using h
  · intro l hl
    obtain ⟨p, -, rfl⟩ : ∃ p ∈ f.params, p.text.toList = l := by simpa using hl
    exact p.text_getLast?

theorem signatureText_toList (before : String) (f : Function) :
    (before ++ signatureText f).toList =
      ((before ++ f.name).toList ++ '(' :: (paramsText f ++ [')', ' ', '-'])) ++
        '>' :: (' ' :: (f.ret.debug.toList ++ (flagsText f.exported f.isGenerator f.isAsync).toList)) := by
  simp [signatureText, paramsText, flagsText]

/-- what the slots of a function depend on -/
structure SameShape (f g : Function) : Prop where
  isGenerator : f.isGenerator = g.isGenerator
  isAsync : f.isAsync = g.isAsync
  noParams : f.params.isEmpty = g.params.isEmpty
  ret : f.ret = g.ret

theorem params_isEmpty_of_eq {a b : List Char}
    (h : a ++ '(' :: (paramsText f ++ [')', ' ', '-']) = b ++ '(' :: (paramsText g ++ [')', ' ', '-'])) :
    f.params.isEmpty = true → g.params.isEmpty = true := by
  intro hf
  rw [List.isEmpty_iff] at hf ⊢
  by_contra hg
  rw [← List.cons_append, ← List.cons_append, ← List.append_assoc, ← List.append_assoc] at h
  have hlast := congrArg List.getLast? (List.append_cancel_right h)
  have hf : paramsText f = [] := by simp [paramsText, hf]
  simp [List.getLast?_append, List.getLast?_cons, paramsText_getLast? hg, hf] at hlast

/-- a signature text, whatever stands before it, determines the shape -/
theorem sameShape_of_signatureText (before before' : String)
    (h : before ++ signatureText f = before' ++ signatureText g) : SameShape f g := by
  have hchars := congrArg String.toList h
  rw [signatureText_toList, signatureText_toList] at hchars
  have hsep : ∀ f : Function, '>' ∉
      ' ' :: (f.ret.debug.toList ++ (flagsText f.exported f.isGenerator f.isAsync).toList) := by
    intro f
    simp [f.ret.debug_plain.not_mem (c := '>') rfl, flagsText_not_mem]
  obtain ⟨hfront, hback⟩ := split_last (hsep f) (hsep g) hchars
  have hback := (cons.inj hback).2
  -- the return type is read back, and the flags are what is left
  have hf := f.ret.reads_debug (n := sizeOf f.ret + sizeOf g.ret + 1) (by omega) _
    (flagsText_stops f.exported f.isGenerator f.isAsync)
  have hg := g.ret.reads_debug (n := sizeOf f.ret + sizeOf g.ret + 1) (by omega) _
    (flagsText_stops g.exported g.isGenerator g.isAsync)
  rw [hback, hg] at hf
  obtain ⟨hret, hflags⟩ := Prod.mk.inj (Option.some.inj hf)
  obtain ⟨hgen, hasync⟩ := flagsText_inj (String.toList_injective hflags.symm)
  exact ⟨hgen, hasync, Bool.eq_iff_iff.mpr ⟨params_isEmpty_of_eq hfront, params_isEmpty_of_eq hfront.symm⟩, hret.symm⟩

end Signature

section Class

variable {c d : ClassDef}

def fieldsText (c : ClassDef) : List (List Char) := c.fields.zipIdx.map fun (f, i) => (f.text i).toList

theorem Field.text_toList (f : Field) (i : Nat) :
    (f.text i).toList = (toString i).toList ++ ':' :: (f.name.text.toList ++ ':' :: f.ty.debug.toList) := by
  simp [Field.text]

theorem Field.not_mem_text {f : Field} {i : Nat} {c : Char} (hc : isTypeChar c = false) (hne : c ≠ ':')
    (hname : c ∉ f.name.text.toList) : c ∉ (f.text i).toList := by
  have hindex := (Plain.nat i).not_mem hc
  have hty := f.ty.debug_plain.not_mem hc
  rw [Field.text_toList]
  intro hmem
  rcases mem_append.mp hmem with hmem | hmem
  · exact hindex hmem
  rcases mem_cons.mp hmem with heq | hmem
  · exact hne heq
  rcases mem_append.mp hmem with hmem | hmem
  · exact hname hmem
  rcases mem_cons.mp hmem with heq | hmem
  · exact hne heq
  · exact hty hmem

theorem Field.ty_of_text {f g : Field} {i j : Nat} (h : f.text i = g.text j) : f.ty = g.ty := by
  have hchars := congrArg String.toList h
  rw [Field.text_toList, Field.text_toList] at hchars
  have hindex : ∀ i : Nat, ':' ∉ (toString i).toList := by
    intro i hmem
    rw [Nat.toString_eq_ofList_toDigits, String.toList_ofList] at hmem
    have hdigit : ':'.isDigit = true := Nat.isDigit_of_mem_toDigits (by omega) (by omega) hmem
    cases hdigit
  have hname : ∀ f : Field, ':' ∉ f.name.text.toList := fun f hmem => (f.name.identifier _ hmem).1 rfl
  obtain ⟨-, hrest⟩ := split_first (hindex i) (hindex j) hchars
  obtain ⟨-, hty⟩ := split_first (hname f) (hname g) hrest
  exact Ty.debug_injective (String.toList_injective hty)

theorem mem_fieldsText {l : List Char} (h : l ∈ fieldsText c) : ∃ f i, l = (Field.text i f).toList := by
  obtain ⟨⟨f, i⟩, -, rfl⟩ := mem_map.mp h
  exact ⟨f, i, rfl⟩

theorem fieldsText_parts : ∀ l ∈ fieldsText c, l ≠ [] ∧ ';' ∉ l := by
  intro l hl
  obtain ⟨f, i, rfl⟩ := mem_fieldsText hl
  refine ⟨?_, Field.not_mem_text rfl (by decide) fun hmem => (f.name.identifier _ hmem).2.1 rfl⟩
  rw [Field.text_toList]
  simp

theorem bar_not_mem_fieldsText : '|' ∉ [';'].intercalate (fieldsText c) := by
  intro hmem
  rcases mem_of_mem_intercalate hmem with heq | ⟨l, hl, hmem⟩
  · cases heq
  · obtain ⟨f, i, rfl⟩ := mem_fieldsText hl
    exact Field.not_mem_text rfl (by decide) (fun hname => (f.name.identifier _ hname).2.2 rfl) hmem

def kindText (isValue : Bool) : String := if isValue then "value" else "reference"

theorem ClassDef.text_toList (c : ClassDef) :
    c.text.toList = ((c.pos.file.toList ++ '|' :: c.name.toList) ++ '|' :: (kindText c.isValue).toList) ++
      '|' :: [';'].intercalate (fieldsText c) := by
  simp [ClassDef.text, fieldsText, kindText, String.toList_intercalate, Function.comp_def]

theorem map_ty_of_fieldsText {fs gs : List Field} {n : Nat}
    (h : ((fs.zipIdx n).map fun (f, i) => (f.text i).toList) = (gs.zipIdx n).map fun (f, i) => (f.text i).toList) :
    fs.map Field.ty = gs.map Field.ty := by
  induction fs generalizing gs n with
  | nil =>
    cases gs with
    | nil => rfl
    | cons g gs => cases h
  | cons f fs ih =>
    cases gs with
    | nil => cases h
    | cons g gs =>
      simp only [zipIdx_cons, map_cons, List.cons.injEq] at h
      rw [map_cons, map_cons, Field.ty_of_text (String.toList_injective h.1), ih h.2]

/-- a class text determines the kind of the class and its field types -/
theorem class_of_text (h : c.text = d.text) :
    c.isValue = d.isValue ∧ c.fields.map Field.ty = d.fields.map Field.ty := by
  have hchars := congrArg String.toList h
  rw [ClassDef.text_toList, ClassDef.text_toList] at hchars
  have hbar : ∀ b, '|' ∉ (kindText b).toList := by decide
  have hkind : ∀ {a b}, (kindText a).toList = (kindText b).toList → a = b := by decide
  obtain ⟨hfront, hfields⟩ := split_last bar_not_mem_fieldsText bar_not_mem_fieldsText hchars
  obtain ⟨-, hvalue⟩ := split_last (hbar _) (hbar _) hfront
  exact ⟨hkind hvalue, map_ty_of_fieldsText (intercalate_inj fieldsText_parts fieldsText_parts hfields)⟩

end Class

section Entries

variable {m m₁ m₂ : Module}

/-- the first word of a declaration's name -/
def kindOf (name : String) : String := String.ofList (name.toList.takeWhile (· ≠ ' '))

theorem kindOf_word {w : String} (rest : String) (h : ' ' ∉ w.toList) : kindOf (w ++ " " ++ rest) = w := by
  have hspace : ∀ c ∈ w.toList, decide (c ≠ ' ') = true := fun c hc => by
    simpa using fun heq : c = ' ' => h (heq ▸ hc)
  rw [kindOf, String.toList_append, String.toList_append, append_assoc,
    takeWhile_append_of_pos hspace]
  simp

theorem kindOf_label {kind name : String} {pos : Pos} {shared : Bool} (h : ' ' ∉ kind.toList) :
    kindOf (label kind name pos shared) = kind :=
  kindOf_word _ h

theorem kindOf_module : kindOf (moduleEntry m).1 = "module" := by
  have hword := kindOf_word ("run order/set " ++ debugStrings m.initializerModules) (w := "module") (by decide)
  have htext : ∀ s, "module" ++ " " ++ ("run order/set " ++ s) = "module run order/set " ++ s := by
    simp [← String.toList_inj]
  rwa [htext] at hword

theorem kindOf_host (e : HostEntry) : kindOf (hostEntry e).1 = "host" := by
  have hword := kindOf_word ("entry " ++ e.name) (w := "host") (by decide)
  have htext : ∀ s, "host" ++ " " ++ ("entry " ++ s) = "host entry " ++ s := by simp [← String.toList_inj]
  rwa [htext] at hword

theorem kindOf_enum (e : EnumDef) : kindOf (enumEntry m e).1 = "enum" := kindOf_label (by decide)

theorem kindOf_alias (a : StringAliasDef) : kindOf (aliasEntry m a).1 = "string" := by
  have hword := fun s => kindOf_word ("alias " ++ s) (w := "string") (by decide)
  have htext : ∀ s, "string" ++ " " ++ ("alias " ++ s) = "string alias" ++ " " ++ s := by
    simp [← String.toList_inj]
  exact hword _

theorem kindOf_global (g : Global) : kindOf (globalEntry m g).1 = "variable" := kindOf_label (by decide)

theorem kindOf_function (f : Function) : kindOf (functionEntry m f).1 = "function" := kindOf_label (by decide)

theorem kindOf_lambda : kindOf (lambdaEntry m).1 = "lambda" := by
  change kindOf "lambda parameter escapes" = _
  decide

theorem kindOf_class (c : ClassDef) : kindOf (classEntry m c).1 = "class" := kindOf_label (by decide)

theorem kindOf_member {c : ClassDef} : ∀ e ∈ memberEntries m c,
    kindOf e.1 = "constructor" ∨ kindOf e.1 = "method" := by
  intro e he
  rcases mem_append.mp he with hctor | hmethod
  · obtain ⟨ctor, -, rfl⟩ : ∃ ctor, c.ctor = some ctor ∧
        (classLabel m "constructor" c.name c, signatureText ctor) = e := by simpa using hctor
    exact .inl (kindOf_label (by decide))
  · obtain ⟨method, -, rfl⟩ := mem_map.mp hmethod
    exact .inr (kindOf_label (by decide))

def isClassKind (kind : String) : Bool := kind == "class" || kind == "constructor" || kind == "method"

theorem isClassKind_classEntries {c : ClassDef} : ∀ e ∈ classEntries m c, isClassKind (kindOf e.1) = true := by
  intro e he
  rcases mem_cons.mp he with rfl | hmember
  · rw [kindOf_class]
    rfl
  · rcases kindOf_member e hmember with h | h
    · rw [h]
      rfl
    · rw [h]
      rfl

section Filter

variable {p : String → Bool}

/-- every declaration of a kind, or none, passes a test of the kind -/
theorem filter_kind {α : Type} {ds : List α} {entry : α → String × String} {w : String}
    (h : ∀ d, kindOf (entry d).1 = w) :
    (ds.map entry).filter (fun e => p (kindOf e.1)) = if p w then ds.map entry else [] := by
  split
  next hp =>
    rw [filter_eq_self]
    intro e he
    obtain ⟨d, -, rfl⟩ := mem_map.mp he
    rwa [h d]
  next hp =>
    rw [filter_eq_nil_iff]
    intro e he
    obtain ⟨d, -, rfl⟩ := mem_map.mp he
    rwa [h d]

/-- the entries of the classes and of the functions, told apart by the first word of their names -/
theorem filter_entries (hmodule : p "module" = false) (hhost : p "host" = false) (henum : p "enum" = false)
    (halias : p "string" = false) (hglobal : p "variable" = false) (hlambda : p "lambda" = false) :
    (declarationEntries m).filter (fun e => p (kindOf e.1)) =
      (m.classes.flatMap (classEntries m)).filter (fun e => p (kindOf e.1)) ++
        if p "function" then (freeFunctions m).map (functionEntry m) else [] := by
  have hfirst : [moduleEntry m].filter (fun e => p (kindOf e.1)) = [] := by simp [kindOf_module, hmodule]
  have hlast : (if m.lambdaEscapes.isEmpty then [] else [lambdaEntry m]).filter (fun e => p (kindOf e.1)) = [] := by
    split
    · rfl
    · simp [kindOf_lambda, hlambda]
  simp only [declarationEntries, filter_append, hfirst, hlast, filter_kind kindOf_host,
    filter_kind kindOf_enum, filter_kind kindOf_alias, filter_kind kindOf_global, filter_kind kindOf_function,
    hhost, henum, halias, hglobal]
  simp

end Filter

theorem filter_classes : (declarationEntries m).filter (fun e => isClassKind (kindOf e.1)) =
    m.classes.flatMap (classEntries m) := by
  have hself : (m.classes.flatMap (classEntries m)).filter (fun e => isClassKind (kindOf e.1)) =
      m.classes.flatMap (classEntries m) := by
    rw [filter_eq_self]
    intro e he
    obtain ⟨c, -, he⟩ := mem_flatMap.mp he
    exact isClassKind_classEntries e he
  have hfunction : isClassKind "function" = false := by decide
  rw [filter_entries (by decide) (by decide) (by decide) (by decide) (by decide) (by decide), hself, hfunction]
  simp

theorem filter_functions : (declarationEntries m).filter (fun e => kindOf e.1 == "function") =
    (freeFunctions m).map (functionEntry m) := by
  have hnil : (m.classes.flatMap (classEntries m)).filter (fun e => kindOf e.1 == "function") = [] := by
    rw [filter_eq_nil_iff]
    intro e he hfunction
    obtain ⟨c, -, he⟩ := mem_flatMap.mp he
    have hkind := isClassKind_classEntries e he
    rw [beq_iff_eq.mp hfunction] at hkind
    revert hkind
    decide
  have hfunction := filter_entries (m := m) (p := (· == "function")) (by decide) (by decide) (by decide)
    (by decide) (by decide) (by decide)
  rw [hfunction, hnil]
  simp

theorem forall₂_of_map_eq {α β γ : Type} {f : α → γ} {g : β → γ} {xs : List α} {ys : List β}
    (h : xs.map f = ys.map g) : List.Forall₂ (fun x y => f x = g y) xs ys := by
  rwa [← forall₂_eq_eq_eq, forall₂_map_left_iff, forall₂_map_right_iff] at h

theorem functions_of_entries (h : declarationEntries m₁ = declarationEntries m₂) :
    List.Forall₂ (fun f g => functionEntry m₁ f = functionEntry m₂ g) (freeFunctions m₁) (freeFunctions m₂) := by
  have hfilter := congrArg (List.filter fun e => kindOf e.1 == "function") h
  rw [filter_functions, filter_functions] at hfilter
  exact forall₂_of_map_eq hfilter

def classGroup (m : Module) (c : ClassDef) : (String × String) × List (String × String) :=
  (classEntry m c, memberEntries m c)

def startsGroup (e : String × String) : Bool := kindOf e.1 == "class"

/-- every class entry starts a group: no member entry has its kind -/
theorem startsGroup_classGroup : ∀ b ∈ m.classes.map (classGroup m),
    startsGroup b.1 = true ∧ ∀ e ∈ b.2, startsGroup e = false := by
  intro b hb
  obtain ⟨c, -, rfl⟩ := mem_map.mp hb
  refine ⟨beq_iff_eq.mpr (kindOf_class c), fun e he => ?_⟩
  rw [startsGroup, beq_eq_false_iff_ne]
  rcases kindOf_member e he with hkind | hkind
  · exact hkind.trans_ne (by decide)
  · exact hkind.trans_ne (by decide)

theorem flatMap_classGroup :
    (m.classes.map (classGroup m)).flatMap (fun b => b.1 :: b.2) = m.classes.flatMap (classEntries m) := by
  rw [flatMap_map]
  rfl

theorem classes_of_entries (h : declarationEntries m₁ = declarationEntries m₂) :
    List.Forall₂ (fun c d => classEntry m₁ c = classEntry m₂ d ∧ memberEntries m₁ c = memberEntries m₂ d)
      m₁.classes m₂.classes := by
  have hfilter := congrArg (List.filter fun e => isClassKind (kindOf e.1)) h
  rw [filter_classes, filter_classes, ← flatMap_classGroup, ← flatMap_classGroup] at hfilter
  have hgroups := flatMap_groups startsGroup_classGroup startsGroup_classGroup hfilter
  exact (forall₂_of_map_eq hgroups).imp fun _ _ hpair => Prod.mk.inj hpair

/-- the entries of a class's members: its constructor, if any, and its methods -/
theorem members_of_entries {c d : ClassDef} (h : memberEntries m₁ c = memberEntries m₂ d) :
    (c.ctor.map fun _ => classLabel m₁ "constructor" c.name c) =
        (d.ctor.map fun _ => classLabel m₂ "constructor" d.name d) ∧
      List.Forall₂ (fun f g => methodLabel m₁ c f = methodLabel m₂ d g ∧ signatureText f = signatureText g)
        c.methods d.methods := by
  let methodEntry (m : Module) (c : ClassDef) (f : Function) := (methodLabel m c f, signatureText f)
  -- a constructor entry and a method entry have different kinds
  have hne : ∀ {m₁ m₂ : Module} {c d : ClassDef} {text : String} {rest : List (String × String)},
      (classLabel m₁ "constructor" c.name c, text) :: rest ≠ d.methods.map (methodEntry m₂ d) := by
    intro m₁ m₂ c d text rest heq
    have hmem : (classLabel m₁ "constructor" c.name c, text) ∈ d.methods.map (methodEntry m₂ d) :=
      heq ▸ mem_cons_self
    obtain ⟨f, -, hf⟩ := mem_map.mp hmem
    have hkind := congrArg (fun e => kindOf e.1) hf
    have hmethod : kindOf (methodLabel m₂ d f) = "method" := kindOf_label (by decide)
    have hctor : kindOf (classLabel m₁ "constructor" c.name c) = "constructor" := kindOf_label (by decide)
    exact absurd (hmethod.symm.trans (hkind.trans hctor)) (by decide)
  have hmethods : ∀ {fs gs : List Function}, fs.map (methodEntry m₁ c) = gs.map (methodEntry m₂ d) →
      List.Forall₂ (fun f g => methodLabel m₁ c f = methodLabel m₂ d g ∧ signatureText f = signatureText g)
        fs gs := fun heq => (forall₂_of_map_eq heq).imp fun _ _ hpair => Prod.mk.inj hpair
  unfold memberEntries at h
  cases hc : c.ctor with
  | none =>
    cases hd : d.ctor with
    | none =>
      rw [hc, hd] at h
      exact ⟨rfl, hmethods h⟩
    | some ctor =>
      rw [hc, hd] at h
      exact absurd h.symm hne
  | some ctor =>
    cases hd : d.ctor with
    | none =>
      rw [hc, hd] at h
      exact absurd h hne
    | some ctor' =>
      rw [hc, hd] at h
      obtain ⟨hhead, htail⟩ := cons.inj h
      exact ⟨congrArg some (Prod.mk.inj hhead).1, hmethods htail⟩

end Entries

end Subscript.Reload
