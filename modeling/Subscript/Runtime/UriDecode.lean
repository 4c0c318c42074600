import Subscript.Runtime.StringOps

/-! `uri.rs`: decoding undoes encoding, and what decoding accepts, what it gives and where it fails. -/

namespace Subscript.Runtime.Str

open List Text.Utf8

/-- a text of escapes and the bytes that they stand for -/
inductive Spelled : Bytes → Bytes → Prop
  | nil : Spelled [] []
  | cons {h l high low : UInt8} {source bytes : Bytes} : hexValue h = some high → hexValue l = some low → Spelled source bytes →
    Spelled (0x25 :: h :: l :: source) ((high <<< 4 ||| low) :: bytes)

/-- the character is one whose escape stays in a whole URI -/
def isReserved (c : Char) : Bool := (String.utf8EncodeChar c).head?.any reserved.contains

/-- an input in which every percent sign begins the escapes of one character, and what it decodes to -/
inductive Decodes (component : Bool) : Bytes → Bytes → Prop
  | nil : Decodes component [] []
  | literal {byte : UInt8} {input output : Bytes} : byte ≠ 0x25 → Decodes component input output →
    Decodes component (byte :: input) (byte :: output)
  | scalar {c : Char} {source input output : Bytes} : Spelled source (String.utf8EncodeChar c) →
    Decodes component input output →
    Decodes component (source ++ input) ((if !component && isReserved c then source else String.utf8EncodeChar c) ++ output)

/-- a percent sign that does not begin the escapes of a character -/
def Malformed (input : Bytes) : Prop :=
  input.head? = some 0x25 ∧ ∀ c source rest, input = source ++ rest → ¬ Spelled source (String.utf8EncodeChar c)

/-! ### One sequence of escapes -/

variable {input : Bytes} {offset : Nat}

theorem escaped_eq_some {value : UInt8} : escaped input offset = some value ↔
    ∃ h l high low rest, input.drop offset = 0x25 :: h :: l :: rest ∧ hexValue h = some high ∧ hexValue l = some low ∧
      high <<< 4 ||| low = value := by
  rw [escaped, show input[offset]? = (input.drop offset)[0]? by simp, show input[offset + 1]? = (input.drop offset)[1]? by simp,
    show input[offset + 2]? = (input.drop offset)[2]? by simp]
  match input.drop offset with
  | [] => simp
  | [a] => by_cases percent : a = 0x25 <;> simp [percent]
  | [a, h] => by_cases percent : a = 0x25 <;> simp [percent]
  | a :: h :: l :: rest => by_cases percent : a = 0x25 <;> simp [percent, Option.bind_eq_some_iff]

variable {bytes : Bytes}

theorem mapM_escaped {n : Nat} :
    (List.range n).mapM (fun index => escaped input (offset + 3 * index)) = some bytes ↔
      bytes.length = n ∧ ∃ source rest, input.drop offset = source ++ rest ∧ Spelled source bytes := by
  induction n generalizing offset bytes with
  | zero =>
    constructor
    · rintro ⟨⟩
      exact ⟨rfl, [], _, rfl, .nil⟩
    · rintro ⟨length, -⟩
      rw [length_eq_zero_iff.1 length]
      rfl
  | succ n ih =>
    have next : ∀ index, offset + 3 * (index + 1) = offset + 3 + 3 * index := fun index => by omega
    rw [range_succ_eq_map, mapM_cons, mapM_map]
    simp only [Option.bind_eq_bind, Option.bind_eq_some_iff, Nat.mul_zero, Nat.add_zero, Nat.succ_eq_add_one, Function.comp_def,
      next, ih, escaped_eq_some]
    constructor
    · rintro ⟨_, ⟨h, l, high, low, tail, is, isHigh, isLow, rfl⟩, bytes, ⟨rfl, source, rest, isRest, spelled⟩, ⟨⟩⟩
      refine ⟨rfl, _, rest, ?_, .cons isHigh isLow spelled⟩
      rw [← drop_drop, is] at isRest
      rw [is]
      exact congrArg (fun suffix => 0x25 :: h :: l :: suffix) isRest
    · rintro ⟨length, _, rest, is, ⟨⟩ | @⟨h, l, high, low, source, bytes, isHigh, isLow, spelled⟩⟩
      · cases length
      · refine ⟨_, ⟨h, l, high, low, source ++ rest, is, isHigh, isLow, rfl⟩, bytes,
          ⟨by simpa using length, source, rest, ?_, spelled⟩, rfl⟩
        rw [← drop_drop, is]
        rfl

theorem sequenceWidth_pos {first : UInt8} {width : Nat} (is : sequenceWidth first = some width) : 0 < width := by
  rw [sequenceWidth] at is
  split_ifs at is <;> cases is <;> decide

theorem sequenceWidth_ofNat {n : Nat} (small : n < 256) : sequenceWidth (UInt8.ofNat n) =
    if n ≤ 0x7F then some 1 else if 0xC2 ≤ n ∧ n ≤ 0xDF then some 2 else if 0xE0 ≤ n ∧ n ≤ 0xEF then some 3
    else if 0xF0 ≤ n ∧ n ≤ 0xF4 then some 4 else none := by
  simp [sequenceWidth, UInt8.le_iff_toNat_le, Nat.mod_eq_of_lt small]

/-- the first byte of a character says how many it has -/
theorem sequenceWidth_encodeChar (c : Char) :
    (String.utf8EncodeChar c).head?.bind sequenceWidth = some (String.utf8EncodeChar c).length := by
  have scalar : c.val.toNat < 0x110000 := by
    rcases c.valid with low | ⟨-, high⟩ <;> omega
  fun_cases String.utf8EncodeChar c <;>
    rw [head?_cons, Option.bind_some, sequenceWidth_ofNat (by omega)] <;> split_ifs <;> first | rfl | omega

theorem escapedSequence_eq_some {sequence : Bytes} : escapedSequence input offset = some sequence ↔
    ∃ c source rest, input.drop offset = source ++ rest ∧ Spelled source (String.utf8EncodeChar c) ∧
      String.utf8EncodeChar c = sequence := by
  simp only [escapedSequence, Option.bind_eq_bind, Option.bind_eq_some_iff, mapM_escaped, decode?_eq_some]
  constructor
  · rintro ⟨first, isFirst, width, isWidth, bytes, ⟨rfl, source, rest, is, spelled⟩, text, isText, ⟨⟩⟩
    cases spelled with
    | nil => cases sequenceWidth_pos isWidth
    | @cons h l high low source bytes isHigh isLow spelled =>
      obtain rfl := Option.mem_unique isFirst (escaped_eq_some.2 ⟨h, l, high, low, _, is, isHigh, isLow, rfl⟩)
      cases text with
      | nil => cases isText
      | cons c text =>
        -- the width that the first byte gives is that of `c`, so nothing follows it
        obtain ⟨lead, conts, isLead, -⟩ := encodeChar_cons c
        have width := sequenceWidth_encodeChar c
        rw [encode_cons, isLead, cons_append] at isText
        obtain ⟨rfl, isBytes⟩ := cons.inj isText
        rw [isLead, head?_cons, Option.bind_some, isWidth, ← isBytes] at width
        have nothing : encode text = [] := length_eq_zero_iff.1 (by simpa using width)
        rw [nothing, append_nil] at isBytes
        subst isBytes
        exact ⟨c, _, rest, is, isLead ▸ .cons isHigh isLow spelled, isLead⟩
  · rintro ⟨c, source, rest, is, spelled, rfl⟩
    have width := sequenceWidth_encodeChar c
    generalize isBytes : String.utf8EncodeChar c = bytes at spelled width
    cases spelled with
    | nil => cases width
    | @cons h l high low source bytes isHigh isLow spelled =>
      refine ⟨_, escaped_eq_some.2 ⟨h, l, high, low, _, is, isHigh, isLow, rfl⟩, _, width, _,
        ⟨rfl, _, rest, is, .cons isHigh isLow spelled⟩, [c], ?_, rfl⟩
      rw [encode_cons, isBytes, encode_nil, append_nil]

variable {source : Bytes}

theorem Spelled.length (spelled : Spelled source bytes) : source.length = 3 * bytes.length := by
  induction spelled with
  | nil => rfl
  | cons _ _ _ ih =>
    rw [length_cons, length_cons, length_cons, length_cons, ih]
    omega

/-! ### The loop -/

variable {component : Bool}

variable {rest : Bytes} {byte : UInt8}

/-- a byte that is not the percent sign goes over -/
theorem uriDecodeFrom_push (component : Bool) (fuel : Nat) (is : input.drop offset = byte :: rest) (other : byte ≠ 0x25) :
    uriDecodeFrom input component (fuel + 1) offset =
      (fun out => out.map (byte :: ·)) <$> uriDecodeFrom input component fuel (offset + 1) := by
  have head : input[offset]? = some byte := by
    rw [← head?_drop, is]
    rfl
  rw [uriDecodeFrom, head]
  dsimp only
  rw [if_pos other]
  rfl

theorem uriDecodeFrom_escape (component : Bool) (fuel : Nat)
    (is : input.drop offset = 0x25 :: rest) :
    uriDecodeFrom input component (fuel + 1) offset =
      match escapedSequence input offset with
      | none => .ok (.error offset)
      | some sequence => do
        let source ← range input offset (offset + 3 * sequence.length)
        let out ← uriDecodeFrom input component fuel (offset + 3 * sequence.length)
        let kept := !component && sequence.head?.any reserved.contains
        return out.map ((if kept then source else sequence) ++ ·) := by
  have head : input[offset]? = some 0x25 := by
    rw [← head?_drop, is]
    rfl
  rw [uriDecodeFrom, head]
  exact if_neg (not_not.2 rfl)

theorem drop_succ_of_cons (is : input.drop offset = byte :: rest) :
    input.drop (offset + 1) = rest := by
  rw [← drop_drop, is]
  rfl

/-- escapes begin with a percent sign -/
theorem Spelled.percent {c : Char} (spelled : Spelled source (String.utf8EncodeChar c)) :
    ∃ rest, source = 0x25 :: rest := by
  obtain ⟨lead, conts, is, -⟩ := encodeChar_cons c
  rw [is] at spelled
  cases spelled
  exact ⟨_, rfl⟩

variable {fuel : Nat}

/-- what is decoded of `front` stands before what the loop gives behind it -/
theorem Decodes.run {front output : Bytes} (decodes : Decodes component front output)
    {result : Except Nat Bytes} (is : input.drop offset = front ++ rest) (enough : (front ++ rest).length < fuel)
    (behind : ∀ fuel, rest.length < fuel → uriDecodeFrom input component fuel (offset + front.length) = .ok result) :
    uriDecodeFrom input component fuel offset = .ok (result.map (output ++ ·)) := by
  induction decodes generalizing fuel offset with
  | nil =>
    refine (behind fuel enough).trans ?_
    cases result <;> rfl
  | @literal byte front output other _ ih =>
    obtain ⟨fuel, rfl⟩ := Nat.exists_eq_add_of_lt enough
    rw [uriDecodeFrom_push component _ is other, ih (drop_succ_of_cons is) (by simp; omega) fun fuel enough => by
      rw [← behind fuel enough, length_cons, Nat.add_right_comm, Nat.add_assoc]]
    cases result <;> rfl
  | @scalar c source front output spelled _ ih =>
    obtain ⟨fuel, rfl⟩ := Nat.exists_eq_add_of_lt enough
    obtain ⟨escapes, rfl⟩ := spelled.percent
    rw [append_assoc] at is
    have next : input.drop (offset + 3 * (String.utf8EncodeChar c).length) = front ++ rest := by
      rw [← drop_drop, is, ← spelled.length, drop_left]
    rw [uriDecodeFrom_escape component _ is, escapedSequence_eq_some.2 ⟨c, _, _, is, spelled, rfl⟩]
    dsimp only
    have inside : offset + 3 * (String.utf8EncodeChar c).length ≤ input.length := by
      have length := congrArg List.length is
      have positive : 0 < (String.utf8EncodeChar c).length := String.length_utf8EncodeChar c ▸ c.utf8Size_pos
      rw [length_drop, length_append, spelled.length] at length
      omega
    rw [range, if_pos ⟨Nat.le_add_right _ _, inside⟩, Nat.add_sub_cancel_left, is, ← spelled.length, take_left]
    rw [spelled.length, ih next (by simp at enough ⊢; omega) fun fuel enough => by
      rw [← behind fuel enough, length_append, spelled.length, Nat.add_assoc]]
    cases result with
    | error e => rfl
    | ok out => exact congrArg (fun out => Except.ok (Except.ok out)) (append_assoc _ _ _).symm

/-- the loop stops at the end, or at an escape that is malformed -/
theorem uriDecodeFrom_end (is : input.drop offset = []) :
    uriDecodeFrom input component (fuel + 1) offset = .ok (.ok []) := by
  rw [uriDecodeFrom, ← head?_drop, is]
  rfl

theorem Malformed.run (malformed : Malformed rest) (is : input.drop offset = rest) :
    uriDecodeFrom input component (fuel + 1) offset = .ok (.error offset) := by
  obtain ⟨percent, none⟩ := malformed
  obtain ⟨tail, rfl⟩ := head?_eq_some_iff.1 percent
  rw [uriDecodeFrom_escape component fuel is]
  cases found : escapedSequence input offset with
  | none => rfl
  | some sequence =>
    obtain ⟨c, source, behind, isSource, spelled, -⟩ := escapedSequence_eq_some.1 found
    exact absurd spelled (none c source behind (is.symm.trans isSource))

/-- an input is good up to its end or up to a malformed escape -/
theorem decodes_or_malformed (component : Bool) (input : Bytes) : ∃ front output rest, input = front ++ rest ∧
    Decodes component front output ∧ (rest = [] ∨ Malformed rest) := by
  match input with
  | [] => exact ⟨[], [], [], rfl, .nil, .inl rfl⟩
  | byte :: input =>
    by_cases percent : byte = 0x25
    · by_cases malformed : Malformed (byte :: input)
      · exact ⟨[], [], _, rfl, .nil, .inr malformed⟩
      · subst percent
        simp only [Malformed, head?_cons, true_and, not_forall, not_not] at malformed
        obtain ⟨c, source, tail, is, spelled⟩ := malformed
        obtain ⟨escapes, rfl⟩ := spelled.percent
        have shorter : tail.length ≤ input.length := by
          rw [(cons.inj is).2]
          exact length_append ▸ Nat.le_add_left _ _
        obtain ⟨front, output, rest, rfl, decodes, stop⟩ := decodes_or_malformed component tail
        exact ⟨_, _, rest, by rw [is, append_assoc], .scalar spelled decodes, stop⟩
    · obtain ⟨front, output, rest, rfl, decodes, stop⟩ := decodes_or_malformed component input
      exact ⟨_, _, rest, rfl, .literal percent decodes, stop⟩
termination_by input.length

theorem Decodes.uriDecode {input output : Bytes} (decodes : Decodes component input output) :
    uriDecode input component = .ok (.ok output) := by
  have is : input.drop 0 = input ++ [] := (append_nil input).symm
  have atEnd : ∀ fuel, 0 < fuel → uriDecodeFrom input component fuel (0 + input.length) = .ok (.ok []) := by
    intro fuel positive
    obtain ⟨fuel, rfl⟩ := Nat.exists_eq_add_of_lt positive
    exact uriDecodeFrom_end (by simp)
  have run := decodes.run is (Nat.lt_succ_self _) atEnd
  rwa [Except.map, append_nil, append_nil] at run

theorem Malformed.uriDecode {front output rest : Bytes} (malformed : Malformed rest) (decodes : Decodes component front output) :
    uriDecode (front ++ rest) component = .ok (.error front.length) := by
  have at_ : ∀ fuel, rest.length < fuel →
      uriDecodeFrom (front ++ rest) component fuel (0 + front.length) = .ok (.error front.length) := by
    intro fuel enough
    obtain ⟨fuel, rfl⟩ := Nat.exists_eq_add_of_lt enough
    rw [malformed.run (by simp), Nat.zero_add]
  exact decodes.run rfl (Nat.lt_succ_self _) at_

/-! ### Encoding -/

theorem hexUpper_table : ∀ byte : UInt8, hexValue (hexUpper (byte >>> 4)) = some (byte >>> 4) ∧
    hexValue (hexUpper (byte &&& 15)) = some (byte &&& 15) ∧ (byte >>> 4) <<< 4 ||| (byte &&& 15) = byte ∧
    (encodeByte true byte = [byte] ∨ encodeByte false byte = [byte] → byte ≠ 0x25 ∧ isAscii byte = true) :=
  forall_byte (by decide +kernel)

/-- a byte goes over as it is, or is escaped and is not a reserved one of a whole URI -/
theorem encodeByte_cases (component : Bool) (byte : UInt8) :
    (encodeByte component byte = [byte] ∧ byte ≠ 0x25 ∧ isAscii byte = true) ∨
      Spelled (encodeByte component byte) [byte] ∧ (!component && reserved.contains byte) = false := by
  obtain ⟨high, low, value, plain⟩ := hexUpper_table byte
  by_cases pass : encodeByte component byte = [byte]
  · refine .inl ⟨pass, plain ?_⟩
    cases component
    · exact .inr pass
    · exact .inl pass
  · rw [encodeByte] at pass ⊢
    split_ifs at pass ⊢ with kept
    · exact absurd rfl pass
    · have spelled := Spelled.cons high low .nil
      rw [value] at spelled
      exact .inr ⟨spelled, (Bool.or_eq_false_iff.1 (Bool.eq_false_iff.2 kept)).2⟩

theorem Spelled.flatMap (high : ∀ byte ∈ bytes, isAscii byte = false) :
    Spelled (bytes.flatMap (encodeByte component)) bytes := by
  induction bytes with
  | nil => exact .nil
  | cons byte bytes ih =>
    obtain ⟨first, others⟩ := forall_mem_cons.1 high
    obtain ⟨-, -, ascii⟩ | ⟨spelled, -⟩ := encodeByte_cases component byte
    · rw [first] at ascii
      cases ascii
    · rw [flatMap_cons]
      generalize encodeByte component byte = source at spelled
      obtain _ | @⟨h, l, high, low, _, _, isHigh, isLow, ⟨⟩⟩ := spelled
      exact .cons isHigh isLow (ih others)

/-- what encoding gives decodes to what it was made from -/
theorem Decodes.of_encode (component : Bool) (text : List Char) :
    Decodes component (uriEncode (encode text) component) (encode text) := by
  induction text with
  | nil => exact .nil
  | cons c text ih =>
    have escape : Spelled (uriEncode (String.utf8EncodeChar c) component) (String.utf8EncodeChar c) →
        (!component && isReserved c) = false →
        Decodes component (uriEncode (encode (c :: text)) component) (encode (c :: text)) := by
      intro spelled other
      have decodes := Decodes.scalar spelled ih
      rw [other] at decodes
      rwa [encode_cons, uriEncode, flatMap_append]
    rcases encodeChar_cases c with ⟨byte, isByte, -⟩ | ⟨lead, conts, isBytes, isHigh, -, continues⟩
    · obtain ⟨pass, other, -⟩ | ⟨spelled, other⟩ := encodeByte_cases component byte
      · rw [encode_cons, isByte, uriEncode, singleton_append, flatMap_cons, pass]
        exact .literal other ih
      · refine escape ?_ ?_
        · rwa [isByte, uriEncode, flatMap_singleton]
        · rwa [isReserved, isByte]
    · have high : ∀ byte ∈ String.utf8EncodeChar c, isAscii byte = false := by
        rw [isBytes]
        exact forall_mem_cons.2 ⟨isHigh, fun byte mem => not_ascii_of_continuation (continues byte mem)⟩
      refine escape (Spelled.flatMap high) ?_
      obtain ⟨-, -, ascii⟩ | ⟨-, other⟩ := encodeByte_cases component lead
      · rw [isHigh] at ascii
        cases ascii
      · rwa [isReserved, isBytes]

/-- Decoding undoes encoding. It succeeds where every percent sign begins the escapes of one character, keeps those of the
reserved characters in a whole URI, and otherwise fails at the first percent sign that does not. -/
theorem uriDecode_correct (component : Bool) :
    (∀ text, uriDecode (uriEncode (encode text) component) component = .ok (.ok (encode text))) ∧
      (∀ input output, uriDecode input component = .ok (.ok output) ↔ Decodes component input output) ∧
      ∀ input offset, uriDecode input component = .ok (.error offset) ↔
        ∃ front output rest, input = front ++ rest ∧ Decodes component front output ∧ Malformed rest ∧ front.length = offset := by
  refine ⟨fun text => (Decodes.of_encode component text).uriDecode, fun input output => ⟨fun is => ?_, Decodes.uriDecode⟩,
    fun input offset => ⟨fun is => ?_, ?_⟩⟩
  · obtain ⟨front, out, rest, rfl, decodes, rfl | malformed⟩ := decodes_or_malformed component input
    · rw [append_nil] at is ⊢
      cases decodes.uriDecode.symm.trans is
      exact decodes
    · cases (malformed.uriDecode decodes).symm.trans is
  · obtain ⟨front, out, rest, rfl, decodes, rfl | malformed⟩ := decodes_or_malformed component input
    · rw [append_nil] at is
      cases decodes.uriDecode.symm.trans is
    · cases (malformed.uriDecode decodes).symm.trans is
      exact ⟨front, out, rest, rfl, decodes, malformed, rfl⟩
  · rintro ⟨front, output, rest, rfl, decodes, malformed, rfl⟩
    exact malformed.uriDecode decodes

/-! ### The two modes together -/

/-- what is left of a character that one mode encoded and the other decoded -/
def remains (component encoded : Bool) (c : Char) : Bytes :=
  if !component && encoded && isReserved c then uriEncode (String.utf8EncodeChar c) encoded else String.utf8EncodeChar c

/-- a character goes over as it is or is escaped, a reserved one by the mode -/
theorem uriEncode_char (component : Bool) (c : Char) :
    (∃ byte, String.utf8EncodeChar c = [byte] ∧ uriEncode [byte] component = [byte] ∧ byte ≠ 0x25 ∧
      (component && isReserved c) = false) ∨
    Spelled (uriEncode (String.utf8EncodeChar c) component) (String.utf8EncodeChar c) ∧ (!component && isReserved c) = false := by
  have plain : ∀ byte ∈ reserved, encodeByte true byte ≠ [byte] := by decide +kernel
  rcases encodeChar_cases c with ⟨byte, isByte, -⟩ | ⟨lead, conts, isBytes, isHigh, -, continues⟩
  · rw [isReserved, isByte, uriEncode, flatMap_singleton]
    obtain ⟨pass, other, -⟩ | escaped := encodeByte_cases component byte
    · refine .inl ⟨byte, rfl, by rwa [uriEncode, flatMap_singleton], other, ?_⟩
      cases component
      · rfl
      · exact Bool.eq_false_iff.2 fun mem => plain byte (contains_iff_mem.1 mem) pass
    · exact .inr escaped
  · have high : ∀ byte ∈ String.utf8EncodeChar c, isAscii byte = false := by
      rw [isBytes]
      exact forall_mem_cons.2 ⟨isHigh, fun byte mem => not_ascii_of_continuation (continues byte mem)⟩
    refine .inr ⟨Spelled.flatMap high, ?_⟩
    obtain ⟨-, -, ascii⟩ | ⟨-, other⟩ := encodeByte_cases component lead
    · rw [isHigh] at ascii
      cases ascii
    · rwa [isReserved, isBytes]

theorem Decodes.of_modes (component encoded : Bool) (text : List Char) :
    Decodes component (uriEncode (encode text) encoded) (text.flatMap (remains component encoded)) := by
  induction text with
  | nil => exact .nil
  | cons c text ih =>
    rw [encode_cons, uriEncode, flatMap_append, flatMap_cons, remains]
    rcases uriEncode_char encoded c with ⟨byte, isByte, pass, other, plain⟩ | ⟨spelled, other⟩
    · rw [uriEncode] at pass
      rw [Bool.and_assoc, plain, Bool.and_false, if_neg Bool.false_ne_true, isByte, pass]
      exact .literal other ih
    · have decodes := ih.scalar spelled
      have same : (!component && encoded && isReserved c) = (!component && isReserved c) := by
        cases encoded
        · rw [Bool.not_false, Bool.true_and] at other
          rw [other, Bool.and_false, Bool.and_false]
        · rw [Bool.and_true]
      rwa [same]

/-- Each mode decodes what the other encoded. The text comes back, except that a whole URI leaves the reserved characters of
a component escaped. -/
theorem uriDecode_modes (component encoded : Bool) (text : List Char) :
    uriDecode (uriEncode (encode text) encoded) component = .ok (.ok (text.flatMap (remains component encoded))) ∧
    (text.flatMap (remains component encoded) = encode text ↔
      ∀ c ∈ text, (!component && encoded && isReserved c) = false) := by
  refine ⟨(Decodes.of_modes component encoded text).uriDecode, ?_⟩
  induction text with
  | nil => simp
  | cons c text ih =>
    rw [flatMap_cons, encode_cons, forall_mem_cons, remains]
    split_ifs with left
    · -- an escape begins with a percent sign, which is not reserved
      refine iff_of_false (fun same => ?_) (by simp [left])
      obtain ⟨⟨-, isEncoded⟩, isReserved⟩ := by simpa only [Bool.and_eq_true] using left
      rcases uriEncode_char encoded c with ⟨_, _, _, _, plain⟩ | ⟨spelled, _⟩
      · rw [isEncoded, isReserved] at plain
        cases plain
      · obtain ⟨rest, is⟩ := spelled.percent
        obtain ⟨lead, conts, isBytes, -⟩ := encodeChar_cons c
        rw [is, isBytes] at same
        rw [Str.isReserved, isBytes, ← (cons.inj same).1] at isReserved
        exact absurd isReserved Bool.false_ne_true
    · rw [append_cancel_left_eq, ih]
      simp [left]

end Subscript.Runtime.Str
