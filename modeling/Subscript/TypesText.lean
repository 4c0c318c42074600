import Subscript.Types
import Subscript.Text.Read

/-! The debug form of a type can be read back, so equal texts come from equal types. -/

namespace Subscript

open Text

/-- the types that print as one word -/
def plainTys : List Ty := [
  .i8, .u8, .i16, .u16, .i32, .u32, .i64, .u64, .f32, .f64, .f16, .bool, .str, .date, .regExp, .taskGroup,
  .void, .null, .object, .error]

section Readers

variable (one : Reader Ty)

def readId (before : String) (make : Nat → Ty) : Reader Ty := fun r => do
  let (id, r) := readNat (← expect ('(' :: before.toList) r)
  return (make id, ← expect "))".toList r)

def readOne (make : Ty → Ty) : Reader Ty := fun r => do
  let (t, r) ← one (← expect "(".toList r)
  return (make t, ← expect ")".toList r)

def readTwo (make : Ty → Ty → Ty) : Reader Ty := fun r => do
  let (t, r) ← one (← expect "(".toList r)
  let (u, r) ← one (← expect ", ".toList r)
  return (make t u, ← expect ")".toList r)

def readFixedArray : Reader Ty := fun r => do
  let (element, r) ← one (← expect "(".toList r)
  let (len, r) := readNat (← expect ", ".toList r)
  return (.fixedArray element len, ← expect ")".toList r)

def readNullable : Reader Ty := fun r => do
  let (inner, r) ← one (← expect "(".toList r)
  match r with
  | ')' :: r => return (.nullable inner .null, r)
  | _ => return (.nullable inner .undefined, ← expect ", Undefined)".toList r)

def readTys : Nat → Reader Tys
  | 0, _ => none
  | n + 1, r =>
    match one r with
    | none => some (.nil, r)
    | some (t, ',' :: ' ' :: r) => do
      let (ts, r) ← readTys n r
      return (.cons t ts, r)
    | some (t, r) => some (.cons t .nil, r)

def readFunc (many : Reader Tys) : Reader Ty := fun r => do
  let (params, r) ← many (← expect "(FuncType \x7b params: [".toList r)
  let (ret, r) ← one (← expect "], ret: ".toList r)
  return (.func params ret, ← expect " \x7d)".toList r)

/-- what follows the first word of a type that has parts -/
def readParts (many : Reader Tys) (word : String) : Reader Ty := fun r =>
  match word with
  | "Class" => readId "ClassId(" .cls r
  | "Enum" => readId "EnumId(" .enum r
  | "StringAlias" => readId "StringAliasId(" .stringAlias r
  | "FixedArray" => readFixedArray one r
  | "Array" => readOne one .array r
  | "Map" => readTwo one .map r
  | "Set" => readOne one .set r
  | "Worker" => readTwo one .worker r
  | "Inbox" => readOne one .inbox r
  | "Outbox" => readOne one .outbox r
  | "Func" => readFunc one many r
  | "Nullable" => readNullable one r
  | "Generator" => readOne one .generator r
  | "AsyncHandle" => readOne one .asyncHandle r
  | "IterResult" => readOne one .iterResult r
  | _ => none

end Readers

/-- reads one type, nested at most `n` deep -/
def Ty.read : Nat → Reader Ty
  | 0, _ => none
  | n + 1, cs =>
    let (word, r) := readWhile Char.isAlphanum cs
    match plainTys.find? (·.debug = String.ofList word) with
    | some t => some (t, r)
    | none => readParts (Ty.read n) (readTys (Ty.read n) n) (String.ofList word) r

/-- the reader gives the value back, up to where the text does not go on with a word -/
def Reads {α : Type} (one : Reader α) (text : String) (a : α) : Prop :=
  ∀ r, Stops Char.isAlphanum r → one (text.toList ++ r) = some (a, r)

theorem stops_close {r : List Char} : Stops Char.isAlphanum (')' :: r) := Stops.cons (by decide)

theorem stops_comma {r : List Char} : Stops Char.isAlphanum (',' :: r) := Stops.cons (by decide)

theorem plain_word : ∀ t ∈ plainTys, t.debug.toList.all Char.isAlphanum = true := by decide

theorem plain_find : ∀ t ∈ plainTys, plainTys.find? (·.debug = t.debug) = some t := by decide

theorem reads_plain {n : Nat} {t : Ty} (ht : t ∈ plainTys) : Reads (Ty.read (n + 1)) t.debug t := by
  intro r hr
  simp only [Ty.read, readWhile_append (List.all_eq_true.mp (plain_word t ht)) hr, String.ofList_toList, plain_find t ht]

/-- where a list of types ends, no type can be read -/
theorem read_close {n : Nat} {r : List Char} : Ty.read n (']' :: r) = none := by
  cases n with
  | zero => rfl
  | succ n =>
    have hword : readWhile Char.isAlphanum (']' :: r) = ([], ']' :: r) := rfl
    have hplain : plainTys.find? (·.debug = String.ofList []) = none := by decide
    rfl

/-- a word and an opening bracket; `text` is the debug form, unfolded -/
theorem read_parts {n : Nat} {t : Ty} {r : List Char} (w text : String) (rest : List Char)
    (hdebug : t.debug = text)
    (hw : w.toList.all Char.isAlphanum = true ∧ plainTys.find? (·.debug = w) = none)
    (htext : text.toList ++ r = w.toList ++ '(' :: rest)
    (hread : readParts (Ty.read n) (readTys (Ty.read n) n) w ('(' :: rest) = some (t, r)) :
    Ty.read (n + 1) (t.debug.toList ++ r) = some (t, r) := by
  have hstop : Stops Char.isAlphanum ('(' :: rest) := Stops.cons (by decide)
  simpa only [hdebug, htext, Ty.read, readWhile_append (List.all_eq_true.mp hw.1) hstop, String.ofList_toList, hw.2] using hread

section

variable {one : Reader Ty} {many : Reader Tys} {t u : Ty} {r : List Char} {n : Nat}

theorem readOne_debug (make : Ty → Ty) (h : Reads one t.debug t) :
    readOne one make ('(' :: (t.debug.toList ++ ')' :: r)) = some (make t, r) := by
  simp [readOne, expect, h _ stops_close]

theorem readTwo_debug (make : Ty → Ty → Ty) (h : Reads one t.debug t) (hu : Reads one u.debug u) :
    readTwo one make ('(' :: (t.debug.toList ++ ',' :: ' ' :: (u.debug.toList ++ ')' :: r))) =
      some (make t u, r) := by
  simp [readTwo, expect, h _ stops_comma, hu _ stops_close]

theorem readId_debug (before : String) (make : Nat → Ty) (id : Nat) :
    readId before make ('(' :: (before.toList ++ (Nat.toDigits 10 id ++ ')' :: ')' :: r))) =
      some (make id, r) := by
  have hid := readNat_digits (n := id) (r := ')' :: ')' :: r) (Stops.cons (by decide))
  simp [readId, hid, expect]

theorem readFixedArray_debug (h : Reads one t.debug t) (len : Nat) :
    readFixedArray one ('(' :: (t.debug.toList ++ ',' :: ' ' :: (Nat.toDigits 10 len ++ ')' :: r))) =
      some (.fixedArray t len, r) := by
  have hlen := readNat_digits (n := len) (r := ')' :: r) (Stops.cons (by decide))
  simp [readFixedArray, expect, h _ stops_comma, hlen]

theorem readNullable_null (h : Reads one t.debug t) :
    readNullable one ('(' :: (t.debug.toList ++ ')' :: r)) = some (.nullable t .null, r) := by
  simp [readNullable, expect, h _ stops_close]

theorem readNullable_undefined (h : Reads one t.debug t) :
    readNullable one ('(' :: (t.debug.toList ++ (", Undefined)".toList ++ r))) =
      some (.nullable t .undefined, r) := by
  have hread := h (", Undefined)".toList ++ r) stops_comma
  simp [readNullable, expect] at hread ⊢
  simp [hread, expect]

theorem readFunc_debug {ts : Tys} (hts : ∀ r, many (ts.debug.toList ++ ']' :: r) = some (ts, ']' :: r))
    (h : Reads one t.debug t) :
    readFunc one many ('(' :: ("FuncType \x7b params: [".toList ++ (ts.debug.toList ++
      ("], ret: ".toList ++ (t.debug.toList ++ (" \x7d)".toList ++ r)))))) = some (.func ts t, r) := by
  have hret := h (" \x7d)".toList ++ r) (Stops.cons (by decide))
  simp [readFunc, expect, hts] at hret ⊢
  simp [hret, expect]

section

variable (w : String) (hw : w.toList.all Char.isAlphanum = true ∧ plainTys.find? (·.debug = w) = none)

include hw

theorem read_id {before : String} {make : Nat → Ty} {id : Nat}
    (hdebug : (make id).debug = w ++ "(" ++ before ++ toString id ++ "))")
    (hparts : readParts (Ty.read n) (readTys (Ty.read n) n) w = readId before make) :
    Ty.read (n + 1) ((make id).debug.toList ++ r) = some (make id, r) :=
  read_parts w (w ++ "(" ++ before ++ toString id ++ "))") (before.toList ++ (Nat.toDigits 10 id ++ ')' :: ')' :: r)) hdebug hw
    (by simp) (hparts ▸ readId_debug before make id)

theorem read_one {make : Ty → Ty} (h : Reads (Ty.read n) t.debug t) (hdebug : (make t).debug = w ++ "(" ++ t.debug ++ ")")
    (hparts : readParts (Ty.read n) (readTys (Ty.read n) n) w = readOne (Ty.read n) make) :
    Ty.read (n + 1) ((make t).debug.toList ++ r) = some (make t, r) :=
  read_parts w (w ++ "(" ++ t.debug ++ ")") (t.debug.toList ++ ')' :: r) hdebug hw (by simp)
    (hparts ▸ readOne_debug make h)

theorem read_two {make : Ty → Ty → Ty} (h : Reads (Ty.read n) t.debug t) (hu : Reads (Ty.read n) u.debug u)
    (hdebug : (make t u).debug = w ++ "(" ++ t.debug ++ ", " ++ u.debug ++ ")")
    (hparts : readParts (Ty.read n) (readTys (Ty.read n) n) w = readTwo (Ty.read n) make) :
    Ty.read (n + 1) ((make t u).debug.toList ++ r) = some (make t u, r) :=
  read_parts w (w ++ "(" ++ t.debug ++ ", " ++ u.debug ++ ")") (t.debug.toList ++ ',' :: ' ' :: (u.debug.toList ++ ')' :: r))
    hdebug hw (by simp) (hparts ▸ readTwo_debug make h hu)

end

end

mutual

theorem Ty.reads_debug {n : Nat} (t : Ty) (ht : sizeOf t < n) : Reads (Ty.read n) t.debug t := by
  obtain ⟨n, rfl⟩ : ∃ k, n = k + 1 := ⟨n - 1, by omega⟩
  intro r hr
  have part (u : Ty) (hu : sizeOf u < sizeOf t) : Reads (Ty.read n) u.debug u := Ty.reads_debug u (by omega)
  cases t with
  | cls id => exact read_id "Class" (by decide) rfl rfl
  | enum id => exact read_id "Enum" (by decide) rfl rfl
  | stringAlias id => exact read_id "StringAlias" (by decide) rfl rfl
  | fixedArray e len =>
    have he := part e (by simp +arith)
    exact read_parts "FixedArray" ("FixedArray(" ++ e.debug ++ ", " ++ toString len ++ ")")
      (e.debug.toList ++ ',' :: ' ' :: (Nat.toDigits 10 len ++ ')' :: r)) rfl (by decide) (by simp)
      (readFixedArray_debug he len)
  | array e =>
    have he := part e (by simp)
    exact read_one "Array" (by decide) he rfl rfl
  | map k v =>
    have hk := part k (by simp +arith)
    have hv := part v (by simp +arith)
    exact read_two "Map" (by decide) hk hv rfl rfl
  | set e =>
    have he := part e (by simp)
    exact read_one "Set" (by decide) he rfl rfl
  | worker k v =>
    have hk := part k (by simp +arith)
    have hv := part v (by simp +arith)
    exact read_two "Worker" (by decide) hk hv rfl rfl
  | inbox e =>
    have he := part e (by simp)
    exact read_one "Inbox" (by decide) he rfl rfl
  | outbox e =>
    have he := part e (by simp)
    exact read_one "Outbox" (by decide) he rfl rfl
  | func ps ret =>
    have hps := Tys.reads_debug ps (n := n) (m := n) (by simp at ht; omega) (by simp at ht; omega)
    have hret := part ret (by simp +arith)
    exact read_parts "Func"
      ("Func(FuncType \x7b params: [" ++ ps.debug ++ "], ret: " ++ ret.debug ++ " \x7d)")
      ("FuncType \x7b params: [".toList ++ (ps.debug.toList ++
        ("], ret: ".toList ++ (ret.debug.toList ++ (" \x7d)".toList ++ r))))) rfl (by decide) (by simp)
      (readFunc_debug hps hret)
  | nullable e a =>
    have he := part e (by simp +arith)
    cases a with
    | null =>
      exact read_parts "Nullable" ("Nullable(" ++ e.debug ++ ")") (e.debug.toList ++ ')' :: r) rfl (by decide)
        (by simp) (readNullable_null he)
    | undefined =>
      exact read_parts "Nullable" ("Nullable(" ++ e.debug ++ ", Undefined)")
        (e.debug.toList ++ (", Undefined)".toList ++ r)) rfl (by decide) (by simp) (readNullable_undefined he)
  | generator e =>
    have he := part e (by simp)
    exact read_one "Generator" (by decide) he rfl rfl
  | asyncHandle e =>
    have he := part e (by simp)
    exact read_one "AsyncHandle" (by decide) he rfl rfl
  | iterResult e =>
    have he := part e (by simp)
    exact read_one "IterResult" (by decide) he rfl rfl
  | _ => exact reads_plain (by decide) r hr

theorem Tys.reads_debug {n m : Nat} (ts : Tys) (hn : sizeOf ts ≤ n) (hm : sizeOf ts ≤ m) (r : List Char) :
    readTys (Ty.read n) m (ts.debug.toList ++ ']' :: r) = some (ts, ']' :: r) := by
  cases ts with
  | nil =>
    obtain ⟨m, rfl⟩ : ∃ k, m = k + 1 := ⟨m - 1, by simp at hm; omega⟩
    change readTys (Ty.read n) (m + 1) (']' :: r) = _
    rw [readTys, read_close]
  | cons t tail =>
    obtain ⟨m, rfl⟩ : ∃ k, m = k + 1 := ⟨m - 1, by simp at hm; omega⟩
    have ht := Ty.reads_debug t (n := n) (by simp at hn; omega)
    cases tail with
    | nil =>
      change readTys (Ty.read n) (m + 1) (t.debug.toList ++ ']' :: r) = _
      rw [readTys, ht _ (Stops.cons (by decide))]
      rfl
    | cons u us =>
      have htail := Tys.reads_debug (n := n) (m := m) (.cons u us) (by simp at hn ⊢; omega)
        (by simp at hm ⊢; omega) r
      change readTys (Ty.read n) (m + 1) ((t.debug ++ ", " ++ (Tys.cons u us).debug).toList ++ ']' :: r) = _
      have htext : (t.debug ++ ", " ++ (Tys.cons u us).debug).toList ++ ']' :: r =
          t.debug.toList ++ ',' :: ' ' :: ((Tys.cons u us).debug.toList ++ ']' :: r) := by simp
      rw [htext, readTys, ht _ stops_comma]
      simp [htail]

end

theorem Ty.debug_injective : Function.Injective Ty.debug := by
  intro t u h
  have ht := Ty.reads_debug (n := sizeOf t + sizeOf u + 1) t (by omega) [] Stops.nil
  have hu := Ty.reads_debug (n := sizeOf t + sizeOf u + 1) u (by omega) [] Stops.nil
  rw [h, hu] at ht
  exact (congrArg Prod.fst (Option.some.inj ht)).symm

/-- the characters of a printed type: the separators of the declaration texts are not among them -/
def isTypeChar (c : Char) : Bool := c.isAlphanum || " ()[]\x7b\x7d,:".toList.contains c

def Plain (s : String) : Prop := s.toList.all isTypeChar = true

theorem Plain.append {s t : String} (hs : Plain s) (ht : Plain t) : Plain (s ++ t) := by
  unfold Plain at *
  rw [String.toList_append, List.all_append, hs, ht]
  rfl

theorem Plain.nat (n : Nat) : Plain (toString n) := by
  rw [Plain, List.all_eq_true]
  intro c hc
  rw [Nat.toString_eq_ofList_toDigits, String.toList_ofList] at hc
  have hdigit : c.isDigit = true := Nat.isDigit_of_mem_toDigits (by omega) (by omega) hc
  simp [isTypeChar, Char.isAlphanum, hdigit]

mutual

theorem Ty.debug_plain (t : Ty) : Plain t.debug := by
  cases t with
  | cls id => exact (Plain.append (s := "Class(ClassId(") rfl (Plain.nat id)).append rfl
  | enum id => exact (Plain.append (s := "Enum(EnumId(") rfl (Plain.nat id)).append rfl
  | stringAlias id => exact (Plain.append (s := "StringAlias(StringAliasId(") rfl (Plain.nat id)).append rfl
  | fixedArray e len =>
    exact (((Plain.append (s := "FixedArray(") rfl e.debug_plain).append (t := ", ") rfl).append (.nat len)).append rfl
  | array e => exact (Plain.append (s := "Array(") rfl e.debug_plain).append rfl
  | map k v =>
    exact (((Plain.append (s := "Map(") rfl k.debug_plain).append (t := ", ") rfl).append v.debug_plain).append rfl
  | set e => exact (Plain.append (s := "Set(") rfl e.debug_plain).append rfl
  | worker k v =>
    exact (((Plain.append (s := "Worker(") rfl k.debug_plain).append (t := ", ") rfl).append v.debug_plain).append rfl
  | inbox e => exact (Plain.append (s := "Inbox(") rfl e.debug_plain).append rfl
  | outbox e => exact (Plain.append (s := "Outbox(") rfl e.debug_plain).append rfl
  | func ps ret =>
    exact (((Plain.append (s := "Func(FuncType \x7b params: [") rfl ps.debug_plain).append (t := "], ret: ") rfl).append
      ret.debug_plain).append rfl
  | nullable e a =>
    cases a with
    | null => exact (Plain.append (s := "Nullable(") rfl e.debug_plain).append rfl
    | undefined => exact (Plain.append (s := "Nullable(") rfl e.debug_plain).append rfl
  | generator e => exact (Plain.append (s := "Generator(") rfl e.debug_plain).append rfl
  | asyncHandle e => exact (Plain.append (s := "AsyncHandle(") rfl e.debug_plain).append rfl
  | iterResult e => exact (Plain.append (s := "IterResult(") rfl e.debug_plain).append rfl
  | _ => rfl

theorem Tys.debug_plain (ts : Tys) : Plain ts.debug := by
  cases ts with
  | nil => rfl
  | cons t tail =>
    cases tail with
    | nil => exact t.debug_plain
    | cons u us => exact (t.debug_plain.append (t := ", ") rfl).append (Tys.debug_plain (.cons u us))

end

theorem Plain.not_mem {s : String} {c : Char} (hs : Plain s) (hc : isTypeChar c = false) : c ∉ s.toList := by
  intro hmem
  have htrue := List.all_eq_true.mp hs c hmem
  rw [hc] at htrue
  cases htrue

end Subscript
