import Mathlib.Data.List.Basic

/-! UTF-8 on lists of bytes: what a byte says about where it stands, and how a valid string may be cut, searched and put
together byte by byte. -/

namespace Text.Utf8

open List

/-- the bytes of a text -/
def encode (text : List Char) : List UInt8 := text.flatMap String.utf8EncodeChar

/-- the bytes are those of a text -/
def Valid (bytes : List UInt8) : Prop := ∃ text, encode text = bytes

/-- the text that the bytes are, if there is one -/
def decode? (bytes : List UInt8) : Option (List Char) := bytes.toByteArray.utf8Decode?.map Array.toList

/-- a byte that does not begin a character -/
def isContinuation (byte : UInt8) : Bool := 0x80 ≤ byte && byte < 0xC0

def isAscii (byte : UInt8) : Bool := byte < 0x80

/-- a character begins or the text ends at the index -/
def isBoundary (bytes : List UInt8) (index : Nat) : Bool :=
  match bytes[index]? with
  | some byte => index = 0 || !isContinuation byte
  | none => index = bytes.length

@[simp] theorem encode_nil : encode [] = [] := rfl

@[simp] theorem encode_cons (c : Char) (text : List Char) : encode (c :: text) = String.utf8EncodeChar c ++ encode text := rfl

@[simp] theorem encode_append (t u : List Char) : encode (t ++ u) = encode t ++ encode u := flatMap_append

variable {a b : List UInt8}

theorem toByteArray_injective (eq : a.toByteArray = b.toByteArray) : a = b := by
  have data := congrArg (fun bytes => bytes.data.toList) eq
  simpa using data

variable {bytes : List UInt8} {text : List Char}

theorem decode?_eq_some : decode? bytes = some text ↔ encode text = bytes := by
  rw [decode?, Option.map_eq_some_iff]
  constructor
  · rintro ⟨chars, decodes, rfl⟩
    have some_ : bytes.toByteArray.utf8Decode?.isSome := by
      rw [decodes]
      rfl
    have encodes := ByteArray.utf8Encode_get_utf8Decode? (h := some_)
    simp only [decodes, Option.get_some] at encodes
    exact toByteArray_injective encodes
  · rintro rfl
    exact ⟨text.toArray, utf8Decode?_utf8Encode, rfl⟩

/-! ### The bytes of a character -/

/-- a decidable fact about bytes, tried on each of them -/
theorem forall_byte {P : UInt8 → Prop} (h : ∀ n < 256, P (UInt8.ofNat n)) (b : UInt8) : P b := by
  have := h b.toNat b.toNat_lt
  rwa [UInt8.ofNat_toNat] at this

theorem isAscii_ofNat {n : Nat} (small : n < 256) : isAscii (UInt8.ofNat n) = decide (n < 128) := by
  simp [isAscii, UInt8.lt_iff_toNat_lt, Nat.mod_eq_of_lt small]

theorem isContinuation_ofNat {n : Nat} (small : n < 256) :
    isContinuation (UInt8.ofNat n) = (decide (128 ≤ n) && decide (n < 192)) := by
  simp [isContinuation, UInt8.lt_iff_toNat_lt, UInt8.le_iff_toNat_le, Nat.mod_eq_of_lt small]

/-- a character is one byte of its own, or bytes none of which is one -/
theorem encodeChar_cases (c : Char) :
    (∃ byte, String.utf8EncodeChar c = [byte] ∧ isAscii byte = true) ∨
      ∃ lead rest, String.utf8EncodeChar c = lead :: rest ∧ isAscii lead = false ∧ isContinuation lead = false ∧
        ∀ byte ∈ rest, isContinuation byte = true := by
  have lead : ∀ n, 192 ≤ n → n < 256 → isAscii (UInt8.ofNat n) = false ∧ isContinuation (UInt8.ofNat n) = false := by
    intro n low high
    rw [isAscii_ofNat high, isContinuation_ofNat high]
    simp only [decide_eq_false_iff_not, Bool.and_eq_false_iff]
    omega
  have rest : ∀ n, isContinuation (UInt8.ofNat (n % 64 + 128)) = true := by
    intro n
    rw [isContinuation_ofNat (by omega), Bool.and_eq_true, decide_eq_true_eq, decide_eq_true_eq]
    omega
  fun_cases String.utf8EncodeChar c with
  | case1 v small =>
    refine .inl ⟨_, rfl, ?_⟩
    rw [isAscii_ofNat (by omega)]
    exact decide_eq_true (by omega)
  | case2 v =>
    refine .inr ⟨_, _, rfl, (lead _ (by omega) (by omega)).1, (lead _ (by omega) (by omega)).2, ?_⟩
    simp only [forall_mem_cons, not_mem_nil, false_implies, implies_true, rest, and_self]
  | case3 v =>
    refine .inr ⟨_, _, rfl, (lead _ (by omega) (by omega)).1, (lead _ (by omega) (by omega)).2, ?_⟩
    simp only [forall_mem_cons, not_mem_nil, false_implies, implies_true, rest, and_self]
  | case4 v =>
    refine .inr ⟨_, _, rfl, (lead _ (by omega) (by omega)).1, (lead _ (by omega) (by omega)).2, ?_⟩
    simp only [forall_mem_cons, not_mem_nil, false_implies, implies_true, rest, and_self]

variable {byte : UInt8}

theorem not_ascii_of_continuation (is : isContinuation byte = true) : isAscii byte = false := by
  simp only [isContinuation, isAscii, Bool.and_eq_true, decide_eq_true_eq, decide_eq_false_iff_not] at is ⊢
  exact UInt8.not_lt.2 is.1

theorem not_continuation_of_ascii (is : isAscii byte = true) : isContinuation byte = false := by
  cases continues : isContinuation byte with
  | false => rfl
  | true =>
    rw [not_ascii_of_continuation continues] at is
    cases is

/-- the first byte of a character begins it, and the others do not -/
theorem encodeChar_cons (c : Char) :
    ∃ lead rest, String.utf8EncodeChar c = lead :: rest ∧ isContinuation lead = false ∧
      ∀ byte ∈ rest, isContinuation byte = true := by
  rcases encodeChar_cases c with ⟨byte, is, ascii⟩ | ⟨lead, rest, is, -, begins, continues⟩
  · exact ⟨byte, [], is, not_continuation_of_ascii ascii, nofun⟩
  · exact ⟨lead, rest, is, begins, continues⟩

theorem exists_ascii (ascii : isAscii byte = true) : ∃ c, String.utf8EncodeChar c = [byte] := by
  have small : byte.toNat < 128 := UInt8.lt_iff_toNat_lt.1 (of_decide_eq_true ascii)
  have value : (Char.ofNat byte.toNat).val.toNat = byte.toNat := by
    have valid : byte.toNat.isValidChar := .inl (by omega)
    rw [Char.ofNat, dif_pos valid]
    rfl
  refine ⟨Char.ofNat byte.toNat, ?_⟩
  rw [String.utf8EncodeChar]
  simp only [value]
  rw [if_pos (by omega), UInt8.ofNat_toNat]

/-! ### Putting together -/

theorem Valid.nil : Valid [] := ⟨[], rfl⟩

theorem Valid.append (ha : Valid a) (hb : Valid b) : Valid (a ++ b) := by
  obtain ⟨t, rfl⟩ := ha
  obtain ⟨u, rfl⟩ := hb
  exact ⟨t ++ u, encode_append t u⟩

theorem Valid.ascii_cons (ascii : isAscii byte = true) (valid : Valid bytes) :
    Valid (byte :: bytes) := by
  obtain ⟨c, is⟩ := exists_ascii ascii
  obtain ⟨text, rfl⟩ := valid
  exact ⟨c :: text, by rw [encode_cons, is]; rfl⟩

theorem Valid.of_ascii (ascii : ∀ byte ∈ bytes, isAscii byte = true) : Valid bytes := by
  induction bytes with
  | nil => exact Valid.nil
  | cons byte bytes ih =>
    exact (ih fun b mem => ascii b (mem_cons_of_mem _ mem)).ascii_cons (ascii byte mem_cons_self)

theorem Valid.flatten {pieces : List (List UInt8)} (valid : ∀ piece ∈ pieces, Valid piece) : Valid pieces.flatten := by
  induction pieces with
  | nil => exact Valid.nil
  | cons piece pieces ih =>
    exact (valid piece mem_cons_self).append (ih fun p mem => valid p (mem_cons_of_mem _ mem))

/-! ### Cutting -/

/-- the part is empty or its first byte begins a character -/
def Begins (bytes : List UInt8) : Prop := ∀ byte ∈ bytes.head?, isContinuation byte = false

theorem Valid.begins {bytes : List UInt8} (valid : Valid bytes) : Begins bytes := by
  obtain ⟨text, rfl⟩ := valid
  cases text with
  | nil => nofun
  | cons c text =>
    obtain ⟨lead, rest, is, begins, -⟩ := encodeChar_cons c
    rintro byte mem
    rw [encode_cons, is] at mem
    cases mem
    exact begins

/-- a text whose bytes are cut where a character begins is cut there itself -/
theorem exists_cut (is : encode text = a ++ b) (begins : Begins b) :
    ∃ t u, text = t ++ u ∧ encode t = a ∧ encode u = b := by
  induction text generalizing a with
  | nil =>
    obtain ⟨rfl, rfl⟩ := append_eq_nil_iff.1 is.symm
    exact ⟨[], [], rfl, rfl, rfl⟩
  | cons c text ih =>
    cases a with
    | nil => exact ⟨[], c :: text, rfl, rfl, is⟩
    | cons first a =>
      rcases append_eq_append_iff.1 is with ⟨a', eq, is'⟩ | ⟨b', eq, rfl⟩
      · obtain ⟨t, u, rfl, rfl, rfl⟩ := ih is'
        exact ⟨c :: t, u, rfl, eq.symm, rfl⟩
      · -- the cut would be within the first character
        obtain ⟨lead, rest, chars, -, continues⟩ := encodeChar_cons c
        rw [chars, cons_append, List.cons.injEq] at eq
        obtain ⟨rfl, rfl⟩ := eq
        cases b' with
        | nil => exact ⟨[c], text, rfl, by simp [chars], rfl⟩
        | cons byte b' =>
          have yes := continues byte (mem_append_right _ mem_cons_self)
          rw [begins byte rfl] at yes
          cases yes

theorem Valid.cut (valid : Valid (a ++ b)) (begins : Begins b) : Valid a ∧ Valid b := by
  obtain ⟨text, is⟩ := valid
  obtain ⟨t, u, -, isA, isB⟩ := exists_cut is begins
  exact ⟨⟨t, isA⟩, ⟨u, isB⟩⟩

theorem encodeChar_prefix {c d : Char} (eq : String.utf8EncodeChar c ++ a = String.utf8EncodeChar d ++ b) : c = d := by
  have arrays := congrArg (fun bytes : List UInt8 => bytes.toByteArray.utf8DecodeChar? 0) eq
  simp only [toByteArray_append] at arrays
  rw [ByteArray.utf8DecodeChar?_utf8EncodeChar_append, ByteArray.utf8DecodeChar?_utf8EncodeChar_append] at arrays
  exact Option.some.inj arrays

/-- what follows a valid part of a valid string is valid -/
theorem Valid.of_append (valid : Valid (a ++ b)) (front : Valid a) : Valid b := by
  obtain ⟨t, rfl⟩ := front
  induction t with
  | nil => exact valid
  | cons c t ih =>
    obtain ⟨text, is⟩ := valid
    cases text with
    | nil =>
      obtain ⟨lead, rest, chars, -⟩ := encodeChar_cons c
      rw [encode_cons, chars] at is
      cases is
    | cons d text =>
      rw [encode_cons, encode_cons, append_assoc] at is
      obtain rfl := encodeChar_prefix is
      exact ih ⟨text, append_cancel_left is⟩

theorem Valid.tail {rest : List UInt8} (valid : Valid (byte :: rest)) (single : isAscii byte = true) :
    Valid rest :=
  valid.of_append (Valid.nil.ascii_cons single)

/-- a part that is valid itself lies between two valid ones -/
theorem Valid.around {needle : List UInt8} (valid : Valid (a ++ (needle ++ b))) (part : Valid needle)
    (nonempty : needle ≠ []) : Valid a ∧ Valid b := by
  have begins : Begins (needle ++ b) := by
    intro byte mem
    refine part.begins byte ?_
    cases needle with
    | nil => exact absurd rfl nonempty
    | cons first rest => exact mem
  obtain ⟨before, from_⟩ := valid.cut begins
  exact ⟨before, from_.of_append part⟩

variable {index : Nat}

theorem begins_drop (valid : Valid bytes) (at_ : isBoundary bytes index = true) :
    Begins (bytes.drop index) := by
  intro byte mem
  rw [head?_drop] at mem
  rw [isBoundary, mem] at at_
  rcases Bool.or_eq_true_iff.1 at_ with first | begins
  · obtain rfl : index = 0 := of_decide_eq_true first
    exact valid.begins byte (by rwa [head?_eq_getElem?])
  · simpa using begins

theorem Valid.take_drop (valid : Valid bytes) (at_ : isBoundary bytes index = true) :
    Valid (bytes.take index) ∧ Valid (bytes.drop index) :=
  Valid.cut (by rwa [take_append_drop]) (begins_drop valid at_)

/-! ### Byte by byte -/

/-- ASCII bytes become ASCII, and the others are kept -/
theorem Valid.flatMap (valid : Valid bytes) {f : UInt8 → List UInt8}
    (kept : ∀ byte, isAscii byte = false → f byte = [byte])
    (ascii : ∀ byte, isAscii byte = true → ∀ b ∈ f byte, isAscii b = true) : Valid (bytes.flatMap f) := by
  obtain ⟨text, rfl⟩ := valid
  induction text with
  | nil => exact Valid.nil
  | cons c text ih =>
    rw [encode_cons, flatMap_append]
    refine Valid.append ?_ ih
    rcases encodeChar_cases c with ⟨byte, is, single⟩ | ⟨lead, rest, is, high, -, continues⟩
    · rw [is, flatMap_singleton]
      exact Valid.of_ascii (ascii byte single)
    · have all : ∀ byte ∈ String.utf8EncodeChar c, f byte = [byte] := by
        intro byte mem
        rw [is] at mem
        rcases mem_cons.1 mem with rfl | mem
        · exact kept _ high
        · exact kept byte (not_ascii_of_continuation (continues byte mem))
      rw [flatMap_congr all, flatMap_singleton']
      exact ⟨[c], by simp⟩

end Text.Utf8
