import Subscript.Reload.Layout

/-! The declarations of a checked module, and what a reload derives from them: the declaration hash
(`reload.rs`) and the slots of the indirection table (`lower/host_entries.rs`). -/

namespace Subscript.Reload

/-- a field name is an identifier: no separator of the hashed text is in it -/
structure FieldName where
  text : String
  identifier : ∀ c ∈ text.toList, c ≠ ':' ∧ c ≠ ';' ∧ c ≠ '|'

structure Field where
  name : FieldName
  ty : Ty

structure Param where
  ty : Ty
  escapes : Bool

structure Function where
  symbol : String
  synthesizedHelper : Bool
  name : String
  exported : Bool
  isGenerator : Bool
  isAsync : Bool
  params : List Param
  ret : Ty
  pos : Pos

structure ClassDef where
  name : String
  isValue : Bool
  alignmentOverride : Option Nat
  fields : List Field
  ctor : Option Function
  methods : List Function
  pos : Pos

structure EnumDef where
  name : String
  members : List (String × Int)
  pos : Pos

structure StringAliasDef where
  name : String
  members : List String
  wireValues : Option (List Int)
  pos : Pos

structure Global where
  symbol : String
  name : String
  ty : Ty
  pos : Pos

structure HostEntry where
  name : String
  parameters : List Ty
  isAsync : Bool

structure Module where
  hostEntries : List HostEntry
  classes : List ClassDef
  enums : List EnumDef
  stringAliases : List StringAliasDef
  globals : List Global
  functions : List Function
  initializerModules : List String
  /-- the escape facts of each lambda with a parameter that can carry a capture, in body order -/
  lambdaEscapes : List (List Bool)

section Layout

def ClassDef.shape (c : ClassDef) : ClassShape where
  name := c.name
  isValue := c.isValue
  alignment := c.alignmentOverride
  fields := c.fields.map Field.ty

def build (m : Module) : Layout (List ClassLayout) := buildShapes (m.classes.map ClassDef.shape)

end Layout

section Hash

/-- Debug text of a character in a string; of the characters that are not printable it escapes the control characters -/
def escapeDebug : Char → List Char
  | '\x00' => ['\\', '0']
  | '"' => ['\\', '"']
  | '\\' => ['\\', '\\']
  | '\n' => ['\\', 'n']
  | '\r' => ['\\', 'r']
  | '\t' => ['\\', 't']
  | c =>
    if c.toNat < 0x20 ∨ 0x7f ≤ c.toNat ∧ c.toNat < 0xa0 then
      ['\\', 'u', '\x7b'] ++ Nat.toDigits 16 c.toNat ++ ['\x7d']
    else [c]

def debugStrings (texts : List String) : String :=
  "[" ++ ", ".intercalate (texts.map fun s => "\"" ++ String.ofList (s.toList.flatMap escapeDebug) ++ "\"") ++ "]"

def HostEntry.debugSignature (e : HostEntry) : String :=
  "HostSignature \x7b parameters: [" ++ ", ".intercalate (e.parameters.map Ty.debug) ++ "], is_async: " ++
    toString e.isAsync ++ " \x7d"

def declarationLabel (name : String) (pos : Pos) (shared : Bool) : String :=
  if shared then name ++ " (" ++ (if pos.file.isEmpty then "prelude/lang.d.ts" else pos.file) ++ ")" else name

def label (kind name : String) (pos : Pos) (ambiguous : Bool) : String :=
  kind ++ " " ++ declarationLabel name pos ambiguous

/-- more than one declaration of the list has the name -/
def ambiguous {α : Type} (nameOf : α → String) (declarations : List α) (name : String) : Bool :=
  1 < (declarations.filter fun other => nameOf other = name).length

def Param.text (p : Param) : String := p.ty.debug ++ ":escapes=" ++ toString p.escapes

def signatureText (f : Function) : String :=
  f.name ++ "(" ++ ",".intercalate (f.params.map Param.text) ++ ") -> " ++ f.ret.debug ++
    (if f.exported then " export" else "") ++ (if f.isGenerator then " generator" else "") ++
    (if f.isAsync then " async" else "")

def Field.text (i : Nat) (f : Field) : String := toString i ++ ":" ++ f.name.text ++ ":" ++ f.ty.debug

def ClassDef.text (c : ClassDef) : String :=
  c.pos.file ++ "|" ++ c.name ++ "|" ++ (if c.isValue then "value" else "reference") ++ "|" ++
    ";".intercalate (c.fields.zipIdx.map fun (f, i) => f.text i)

def EnumDef.text (e : EnumDef) : String :=
  e.pos.file ++ "|" ++ e.name ++ "|" ++
    ";".intercalate (e.members.map fun (name, value) => name ++ "=" ++ toString value)

def StringAliasDef.text (a : StringAliasDef) : String :=
  let wires := match a.wireValues with
    | some values => ",".intercalate (values.map toString)
    | none => ""
  a.pos.file ++ "|" ++ a.name ++ "|" ++ ";".intercalate a.members ++ "|" ++ wires

variable (m : Module)

def classLabel (kind name : String) (c : ClassDef) : String :=
  label kind name c.pos (ambiguous ClassDef.name m.classes c.name)

def methodLabel (c : ClassDef) (method : Function) : String :=
  classLabel m "method" (c.name ++ "." ++ method.name) c

def functionLabel (f : Function) : String :=
  label "function" f.name f.pos (ambiguous Function.name m.functions f.name)

def moduleEntry : String × String :=
  ("module run order/set " ++ debugStrings m.initializerModules, debugStrings m.initializerModules)

def hostEntry (e : HostEntry) : String × String := ("host entry " ++ e.name, e.debugSignature)

/-- the entries of a class after its own: its constructor and its methods -/
def memberEntries (c : ClassDef) : List (String × String) :=
  (c.ctor.map fun ctor => (classLabel m "constructor" c.name c, signatureText ctor)).toList ++
    c.methods.map fun method => (methodLabel m c method, signatureText method)

def classEntry (c : ClassDef) : String × String := (classLabel m "class" c.name c, c.text)

def classEntries (c : ClassDef) : List (String × String) := classEntry m c :: memberEntries m c

def enumEntry (e : EnumDef) : String × String :=
  (label "enum" e.name e.pos (ambiguous EnumDef.name m.enums e.name), e.text)

def aliasEntry (a : StringAliasDef) : String × String :=
  (label "string alias" a.name a.pos (ambiguous StringAliasDef.name m.stringAliases a.name), a.text)

def globalEntry (g : Global) : String × String :=
  (label "variable" g.name g.pos (ambiguous Global.name m.globals g.name), g.symbol ++ ":" ++ g.ty.debug)

/-- the functions with a slot -/
def freeFunctions : List Function := m.functions.filter fun f => !f.synthesizedHelper

def functionEntry (f : Function) : String × String :=
  (functionLabel m f, f.symbol ++ "|" ++ signatureText f)

def lambdaEntry : String × String :=
  ("lambda parameter escapes",
    ";".intercalate (m.lambdaEscapes.map fun facts => ",".intercalate (facts.map toString)))

/-- the name and the hashed text of every declaration -/
def declarationEntries : List (String × String) :=
  [moduleEntry m] ++ m.hostEntries.map hostEntry ++ m.classes.flatMap (classEntries m) ++
    m.enums.map (enumEntry m) ++ m.stringAliases.map (aliasEntry m) ++ m.globals.map (globalEntry m) ++
    (freeFunctions m).map (functionEntry m) ++ (if m.lambdaEscapes.isEmpty then [] else [lambdaEntry m])

/-- the entries of the fingerprint; its combined value is computed from them -/
def declarationHash {H : Type} (hash : String → H) : List (String × H) :=
  (declarationEntries m).map fun (name, text) => (name, hash text)

end Hash

/-- the first declaration that differs, which a refused reload names -/
def firstDifference {H : Type} [DecidableEq H] : List (String × H) → List (String × H) → Option String
  | (name, h) :: old, (name', h') :: new =>
    if name ≠ name' then some (name' ++ " (was " ++ name ++ ")")
    else if h ≠ h' then some name
    else firstDifference old new
  | [], (name, _) :: _ => some name
  | (name, _) :: _, [] => some name
  | [], [] => none

section Slots

/-- the parts of a declaration with a slot of their own; functions, classes and methods by position -/
inductive FnKey where
  | free (function : Nat)
  | resume (function : Nat)
  | asyncExport (function : Nat)
  | wrapper (function : Nat)
  | ctor (cls : Nat)
  | method (cls method : Nat)
  | methodResume (cls method : Nat)
  | init
  deriving DecidableEq

def functionSlots (f : Function) (i : Nat) : List FnKey :=
  .free i ::
    if f.isGenerator || f.isAsync then
      .resume i :: if f.isAsync && f.params.isEmpty && f.ret = .void then [.asyncExport i] else []
    else [.wrapper i]

def methodSlots (c : Nat) (method : Function) (i : Nat) : List FnKey :=
  .method c i :: if method.isAsync then [.methodResume c i] else []

def classSlots (c : ClassDef) (i : Nat) : List FnKey :=
  (c.ctor.map fun _ => .ctor i).toList ++ c.methods.zipIdx.flatMap fun (method, j) => methodSlots i method j

variable (m : Module)

def reserveSlots : List FnKey :=
  ((freeFunctions m).zipIdx.flatMap fun (f, i) => functionSlots f i) ++
  (m.classes.zipIdx.flatMap fun (c, i) => classSlots c i) ++ [.init]

def slotOf (key : FnKey) : Option Nat := (reserveSlots m).idxOf? key

/-- the declaration a key belongs to, as the hash names it -/
def FnKey.declaration : FnKey → Option String
  | .free i | .resume i | .asyncExport i | .wrapper i => (freeFunctions m)[i]?.map (functionLabel m)
  | .ctor i => m.classes[i]?.bind fun c => c.ctor.map fun _ => classLabel m "constructor" c.name c
  | .method i j | .methodResume i j => m.classes[i]?.bind fun c => c.methods[j]?.map (methodLabel m c)
  | .init => none

end Slots

end Subscript.Reload
