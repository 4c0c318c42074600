import Subscript.Runtime.Exception
import Subscript.Text.Utf8
import Mathlib.Algebra.Group.Int.Defs

/-! The operations that make strings (`strops.rs`, `uri.rs`, `append_quoted` of `json.rs` and their entries in `ffi/`). They
work on bytes and byte offsets; the strings of the language are valid UTF-8. -/

namespace Subscript.Runtime.Str

open Text.Utf8

abbrev Bytes := List UInt8

/-- an operation gives a result or a trap; without either it panicked or did not end -/
abbrev Run (α : Type) := Except (Option TrapRecord) α

variable {α : Type}

def trap (kind : TrapKind) (message : String) (posId : Nat) : Run α := .error (some ⟨kind, message, posId⟩)

def stuck : Run α := .error none

/-- `&bytes[lo..hi]` -/
def range (bytes : Bytes) (lo hi : Nat) : Run Bytes :=
  if lo ≤ hi ∧ hi ≤ bytes.length then .ok ((bytes.drop lo).take (hi - lo)) else stuck

def usizeMax : Nat := 2 ^ 64 - 1

/-- the bytes of an ASCII text -/
def ascii (text : String) : Bytes := text.toList.map fun c => UInt8.ofNat c.toNat

/-! ### Allocation -/

/-- `answer` says whether the allocator has room -/
def alloc (answer : Bool) (size posId : Nat) : Run Unit :=
  if answer then .ok () else trap .allocationFailure ("allocation of " ++ toString size ++ " bytes failed") posId

def allocStrWith (answer : Bool) (len posId : Nat) (writer : Nat → Run Bytes) : Run Bytes :=
  if 8 + len > usizeMax then
    trap .allocationFailure ("string allocation of " ++ toString len ++ " bytes is not representable") posId
  else do
    alloc answer (8 + len) posId
    writer len

def allocStr (answer : Bool) (bytes : Bytes) (posId : Nat) : Run Bytes :=
  allocStrWith answer bytes.length posId fun _ => .ok bytes

/-- `subscript_rt_str_concat` -/
def strConcat (answer : Bool) (a b : Bytes) (posId : Nat) : Run Bytes :=
  if a.length + b.length > usizeMax then
    trap .allocationFailure "string concatenation length is not representable" posId
  else allocStrWith answer (a.length + b.length) posId fun _ => .ok (a ++ b)

/-! ### Ranges -/

def i64Max : Nat := 2 ^ 63 - 1

def substringRange (len : Nat) (start stop : Int) : Nat × Nat :=
  let clamp (value : Int) : Nat := (max 0 (min value (min len i64Max : Nat))).toNat
  if clamp start ≤ clamp stop then (clamp start, clamp stop) else (clamp stop, clamp start)

def sliceRange (len : Nat) (start stop : Int) : Nat × Nat × Nat :=
  let len : Int := (min len i64Max : Nat)
  let relative (index : Int) : Nat := (if index < 0 then max (len + index) 0 else min index len).toNat
  (relative start, max (relative stop) (relative start), relative stop)

def substrRange (len : Nat) (start length : Int) : Nat × Nat :=
  let len : Int := (min len i64Max : Nat)
  let start := if start < 0 then max (len + start) 0 else min start len
  let stop := if length ≤ 0 then start else min (start + length) len
  (start.toNat, stop.toNat)

/-- `std::str::from_utf8(bytes).unwrap_or_default()` -/
def textOf (bytes : Bytes) : List Char := (decode? bytes).getD []

def strAllocRange (answer : Bool) (bytes : Bytes) (lo hi checkedHi : Nat) (error : String) (posId : Nat) : Run Bytes :=
  let text := encode (textOf bytes)
  if !isBoundary text lo || !isBoundary text checkedHi then trap .stringSlice error posId
  else do
    let piece ← range bytes lo hi
    allocStr answer piece posId

/-- `subscript_rt_str_slice` -/
def strSlice (answer : Bool) (s : Bytes) (start stop : Int) (posId : Nat) : Run Bytes :=
  let (lo, hi, boundary) := sliceRange s.length start stop
  strAllocRange answer s lo hi boundary
    ("slice(" ++ toString start ++ ", " ++ toString stop ++ ") normalizes to (" ++ toString lo ++ ", " ++
      toString boundary ++ "), which is not on a UTF-8 boundary") posId

/-- `subscript_rt_str_substring` -/
def strSubstring (answer : Bool) (s : Bytes) (start stop : Int) (posId : Nat) : Run Bytes :=
  let (lo, hi) := substringRange s.length start stop
  strAllocRange answer s lo hi hi
    ("substring range (" ++ toString lo ++ ", " ++ toString hi ++ ") is not on a UTF-8 boundary") posId

/-- `subscript_rt_str_substr` -/
def strSubstr (answer : Bool) (s : Bytes) (start length : Int) (posId : Nat) : Run Bytes :=
  let (lo, hi) := substrRange s.length start length
  strAllocRange answer s lo hi hi
    ("substr range (" ++ toString lo ++ ", " ++ toString hi ++ ") is not on a UTF-8 boundary") posId

/-! ### Code points -/

inductive CodePointReason where
  | outOfRange (len : Nat)
  | notBoundary
deriving DecidableEq, Repr

def codePointAt (bytes : Bytes) (index : Int) : Except CodePointReason (Nat × Char) :=
  if index < 0 ∨ bytes.length ≤ index.toNat then .error (.outOfRange bytes.length)
  else
    let text := encode (textOf bytes)
    if !isBoundary text index.toNat then .error .notBoundary
    else
      match textOf (text.drop index.toNat) with
      | ch :: _ => .ok (index.toNat, ch)
      | [] => .error (.outOfRange bytes.length)

/-- `subscript_rt_str_char_at` -/
def strCharAt (answer : Bool) (s : Bytes) (i : Int) (posId : Nat) : Run Bytes :=
  match codePointAt s i with
  | .error (.outOfRange _) => allocStr answer [] posId
  | .error .notBoundary => trap .strRange ("charAt(" ++ toString i ++ ") is not on a UTF-8 boundary") posId
  | .ok (index, ch) => do
    let piece ← range s index (index + (String.utf8EncodeChar ch).length)
    allocStr answer piece posId

/-- `subscript_rt_str_at`; the index is cast to 32 bits -/
def strAt (answer : Bool) (s : Bytes) (i : Int) (posId : Nat) : Run Bytes :=
  let index := (if i < 0 then s.length + i else i).bmod (2 ^ 32)
  match codePointAt s index with
  | .error (.outOfRange len) =>
    trap .strRange
      ("at(" ++ toString i ++ ") normalizes to " ++ toString index ++ ", out of range for string length " ++ toString len)
      posId
  | .error .notBoundary =>
    trap .strRange
      ("at(" ++ toString i ++ ") normalizes to " ++ toString index ++ ", which is not on a UTF-8 boundary") posId
  | .ok _ => strCharAt answer s index posId

/-! ### Searching -/

/-- the first index of `needle` in `hay` at or after `start` -/
def findFrom (hay needle : Bytes) (start : Nat) : Option Nat :=
  if start > hay.length then none
  else if needle.isEmpty then some start
  else if hay.length - start < needle.length then none
  else
    (List.range' start (hay.length - needle.length + 1 - start)).find? fun i => (hay.drop i).take needle.length == needle

/-- the pieces between the matches from `start` on -/
def splitFrom (hay sep : Bytes) : Nat → Nat → Run (List Bytes)
  | 0, _ => stuck
  | fuel + 1, start =>
    match findFrom hay sep start with
    | none => .ok [hay.drop start]
    | some i => do
      let piece ← range hay start i
      let rest ← splitFrom hay sep fuel (i + sep.length)
      return piece :: rest

def splitEach (hay sep : Bytes) : Run (List Bytes) :=
  if sep.isEmpty then
    match decode? hay with
    | some text => .ok (text.map String.utf8EncodeChar)
    | none => .ok [hay]
  else splitFrom hay sep (hay.length + 1) 0

/-- the pieces are allocated and pushed one after the other; `len` and `cap` are those of the array -/
def pushPieces (room : Nat → Bool) (posId : Nat) : Nat → Nat → List Bytes → Run (List Bytes)
  | _, _, [] => .ok []
  | len, cap, piece :: pieces => do
    let handle ← allocStr (room (2 * len + 1)) piece posId
    let newCap := if len = cap then (if cap = 0 then 4 else cap * 2) else cap
    if len = cap then alloc (room (2 * len + 2)) (newCap * 8) posId
    let rest ← pushPieces room posId (len + 1) newCap pieces
    return handle :: rest

/-- `subscript_rt_str_split`; the limit is cast to 32 bits without sign -/
def strSplit (room : Nat → Bool) (s sep : Bytes) (limit : Int) (posId : Nat) : Run (List Bytes) := do
  alloc (room 0) 40 posId
  let pieces ← splitEach s sep
  pushPieces room posId 0 0 (pieces.take (limit % 2 ^ 32).toNat)

/-! ### Trimming -/

def isEcmaWhitespace (ch : Char) : Bool :=
  let c := ch.toNat
  (0x9 ≤ c && c ≤ 0xD) || c = 0x20 || c = 0xA0 || c = 0x1680 || (0x2000 ≤ c && c ≤ 0x200A) || c = 0x2028 || c = 0x2029 ||
    c = 0x202F || c = 0x205F || c = 0x3000 || c = 0xFEFF

def trimStart (s : Bytes) : Bytes :=
  match decode? s with
  | some text => encode (text.dropWhile isEcmaWhitespace)
  | none => s

def trimEnd (s : Bytes) : Bytes :=
  match decode? s with
  | some text => encode (text.reverse.dropWhile isEcmaWhitespace).reverse
  | none => s

def trim (s : Bytes) : Bytes := trimEnd (trimStart s)

def strTrimWith (answer : Bool) (s : Bytes) (posId : Nat) (strip : Bytes → Bytes) : Run Bytes :=
  allocStr answer (strip s) posId

/-! ### Repeating and padding -/

/-- the copying of what is written behind itself until `len` bytes are there -/
def fillFrom (len : Nat) : Nat → Bytes → Run Bytes
  | 0, _ => stuck
  | fuel + 1, written =>
    if written.length < len then
      fillFrom len fuel (written ++ written.take (min written.length (len - written.length)))
    else .ok written

/-- the contents of an output of `len` bytes -/
def fillCyclic (len : Nat) (pattern : Bytes) : Run Bytes :=
  if len = 0 then .ok []
  else
    match pattern with
    | [byte] => .ok (List.replicate len byte)
    | pattern => fillFrom len (len + 1) (pattern.take (min pattern.length len))

def repeatInto (s : Bytes) (len : Nat) : Run Bytes :=
  if s.isEmpty then .ok (List.replicate len 0) else fillCyclic len s

/-- `subscript_rt_str_repeat` -/
def strRepeat (answer : Bool) (s : Bytes) (n : Int) (posId : Nat) : Run Bytes :=
  if n < 0 then trap .strRange ("repeat(" ++ toString n ++ "): the count must be non-negative") posId
  else if s.length * n.toNat > usizeMax then
    trap .allocationFailure
      ("repeat(" ++ toString n ++ ") of " ++ toString s.length ++ " bytes is not representable") posId
  else allocStrWith answer (s.length * n.toNat) posId (repeatInto s)

def padFillLen (receiverLen : Nat) (target : Int) (pad : Bytes) : Nat :=
  if pad.isEmpty then 0 else target.toNat - receiverLen

def padCutInsideSequence (fillLen : Nat) (pad : Bytes) : Option Nat :=
  if pad.isEmpty then none
  else
    let cut := fillLen % pad.length
    if cut ≠ 0 ∧ pad.getD cut 0 &&& 0xC0 = 0x80 then some cut else none

/-- `pattern.iter().cycle().take(count)`; `left` is what is left of the current copy -/
def cycleTake (pattern : Bytes) : Nat → Bytes → Bytes
  | 0, _ => []
  | count + 1, byte :: left => byte :: cycleTake pattern count left
  | count + 1, [] =>
    match pattern with
    | [] => []
    | byte :: left => byte :: cycleTake pattern count left

/-- the padding that builds a vector; it gives the cut of the last copy if that is inside a sequence -/
def pad (s : Bytes) (target : Int) (pad : Bytes) (atStart : Bool) : Except Nat Bytes :=
  let fill := padFillLen s.length target pad
  match padCutInsideSequence fill pad with
  | some cut => .error cut
  | none =>
    if fill = 0 then .ok s
    else
      let filler := cycleTake pad fill pad
      .ok (if atStart then filler ++ s else s ++ filler)

/-- the contents of an output of `len` bytes, which are zero before -/
def padInto (s pad : Bytes) (atStart : Bool) (len : Nat) : Run Bytes :=
  if len < s.length then .ok (List.replicate len 0)
  else if len - s.length ≠ 0 ∧ pad.isEmpty then .ok (List.replicate len 0)
  else do
    let filler ← fillCyclic (len - s.length) pad
    return if atStart then filler ++ s else s ++ filler

def strPad (answer : Bool) (s : Bytes) (target : Int) (pad : Bytes) (atStart : Bool) (posId : Nat) : Run Bytes :=
  let fillLen := padFillLen s.length target pad
  match padCutInsideSequence fillLen pad with
  | some cut =>
    trap .stringSlice
      ((if atStart then "padStart" else "padEnd") ++ "(" ++ toString target ++ "): the cut is at pad byte " ++
        toString cut ++ ", inside a UTF-8 sequence") posId
  | none => allocStrWith answer (s.length + fillLen) posId (padInto s pad atStart)

/-! ### Replacing -/

/-- what a replacement may refer to; a range is given by its ends -/
structure Captures where
  count : Nat
  hasNamed : Bool
  numbered : Nat → Option (Nat × Nat)
  named : List Char → Option (Nat × Nat)

def Captures.none : Captures := ⟨0, false, fun _ => .none, fun _ => .none⟩

/-- `b'$'` -/
def dollar : UInt8 := 0x24

def isDigit (byte : UInt8) : Bool := 0x30 ≤ byte && byte ≤ 0x39

/-- the capture that the digits behind a dollar name, and the number of bytes they take with it -/
def captureOf (count : Nat) (next : UInt8) (after : Option UInt8) : Option (Nat × Nat) :=
  let first := next.toNat - 0x30
  let twoDigit := (after.filter isDigit).map fun digit => first * 10 + (digit.toNat - 0x30)
  if twoDigit.any fun index => 0 < index && index ≤ count then twoDigit.map (·, 3)
  else if 0 < first ∧ first ≤ count then some (first, 2)
  else none

/-- the bytes of a range of the source, if there is one -/
def captured (source : Bytes) : Option (Nat × Nat) → Run Bytes
  | some (lo, hi) => range source lo hi
  | none => .ok []

section

variable (source : Bytes) (matchStart matchEnd : Nat) (captures : Captures)

/-- the bytes for what a dollar at the head of `replacement` begins, and what is left of the replacement -/
def substitute (replacement : Bytes) : Run (Bytes × Bytes) :=
  match replacement with
  | [] => .ok ([], [])
  | [byte] => .ok ([byte], [])
  | byte :: next :: rest =>
    if byte ≠ dollar then .ok ([byte], next :: rest)
    else if next = dollar then .ok ([dollar], rest)
    else if next = 0x26 then do
      let piece ← range source matchStart matchEnd
      return (piece, rest)
    else if next = 0x60 then do
      let piece ← range source 0 matchStart
      return (piece, rest)
    else if next = 0x27 then do
      let piece ← range source matchEnd source.length
      return (piece, rest)
    else if isDigit next then
      match captureOf captures.count next rest.head? with
      | some (index, consumed) => do
        let piece ← captured source (captures.numbered index)
        return (piece, replacement.drop consumed)
      | none => .ok ([dollar], next :: rest)
    else if next = 0x3C ∧ captures.hasNamed then
      match rest.idxOf? 0x3E with
      | none => .ok ([dollar], next :: rest)
      | some relativeEnd => do
        let piece ← captured source (captures.named (textOf (rest.take relativeEnd)))
        return (piece, rest.drop (relativeEnd + 1))
    else .ok ([dollar], next :: rest)

/-- what is appended for a replacement -/
def replacementFrom : Nat → Bytes → Run Bytes
  | 0, _ => stuck
  | fuel + 1, replacement =>
    if replacement.isEmpty then .ok []
    else do
      let (piece, rest) ← substitute source matchStart matchEnd captures replacement
      let out ← replacementFrom fuel rest
      return piece ++ out

def appendReplacement (out replacement : Bytes) : Run Bytes := do
  let appended ← replacementFrom source matchStart matchEnd captures (replacement.length + 1) replacement
  return out ++ appended

end

def replaceFirst (s pat repl : Bytes) : Run Bytes :=
  match findFrom s pat 0 with
  | some i => do
    let front ← range s 0 i
    let out ← appendReplacement s i (i + pat.length) .none front repl
    let back ← range s (i + pat.length) s.length
    return out ++ back
  | none => .ok s

/-- the indices at which the characters of a text begin, from `start` on, and the end -/
def charBounds : Nat → List Char → List Nat
  | start, [] => [start]
  | start, ch :: text => start :: charBounds (start + (String.utf8EncodeChar ch).length) text

/-- `replace_all` of an empty pattern -/
def replaceBetween (s repl : Bytes) : Nat → List Nat → Bytes → Run Bytes
  | _, [], out => .ok out
  | previous, bound :: bounds, out => do
    let piece ← range s previous bound
    let out ← appendReplacement s bound bound .none (out ++ piece) repl
    replaceBetween s repl bound bounds out

/-- `replace_all` of the matches from `start` on -/
def replaceFrom (s pat repl : Bytes) : Nat → Nat → Bytes → Run Bytes
  | 0, _, _ => stuck
  | fuel + 1, start, out =>
    match findFrom s pat start with
    | some i => do
      let piece ← range s start i
      let out ← appendReplacement s i (i + pat.length) .none (out ++ piece) repl
      replaceFrom s pat repl fuel (i + pat.length) out
    | none => do
      let back ← range s start s.length
      return out ++ back

def replaceAll (s pat repl : Bytes) : Run Bytes :=
  if pat.isEmpty then
    match decode? s with
    | some text => replaceBetween s repl 0 (charBounds 0 text) []
    | none => .ok s
  else replaceFrom s pat repl (s.length + 1) 0 []

/-- `subscript_rt_str_replace` -/
def strReplace (answer : Bool) (s pat repl : Bytes) (posId : Nat) : Run Bytes := do
  let out ← replaceFirst s pat repl
  allocStr answer out posId

/-- `subscript_rt_str_replace_all` -/
def strReplaceAll (answer : Bool) (s pat repl : Bytes) (posId : Nat) : Run Bytes := do
  let out ← replaceAll s pat repl
  allocStr answer out posId

/-! ### URIs -/

def reserved : Bytes := ascii ";,/?:@&=+$#"

def isAsciiAlphanumeric (byte : UInt8) : Bool :=
  isDigit byte || (0x41 ≤ byte && byte ≤ 0x5A) || (0x61 ≤ byte && byte ≤ 0x7A)

/-- `HEX[digit]` of `uri.rs` -/
def hexUpper (digit : UInt8) : UInt8 := (ascii "0123456789ABCDEF").getD digit.toNat 0

def encodeByte (component : Bool) (byte : UInt8) : Bytes :=
  if isAsciiAlphanumeric byte || (ascii "-_.!~*'()").contains byte || (!component && reserved.contains byte) then [byte]
  else [0x25, hexUpper (byte >>> 4), hexUpper (byte &&& 15)]

/-- `encode` of `uri.rs` -/
def uriEncode (input : Bytes) (component : Bool) : Bytes := input.flatMap (encodeByte component)

def hexValue (byte : UInt8) : Option UInt8 :=
  if isDigit byte then some (byte - 0x30)
  else if 0x61 ≤ byte ∧ byte ≤ 0x66 then some (byte - 0x61 + 10)
  else if 0x41 ≤ byte ∧ byte ≤ 0x46 then some (byte - 0x41 + 10)
  else none

/-- the byte that an escape at the offset stands for -/
def escaped (input : Bytes) (offset : Nat) : Option UInt8 := do
  if input[offset]? ≠ some 0x25 then failure
  let high ← hexValue (← input[offset + 1]?)
  let low ← hexValue (← input[offset + 2]?)
  return high <<< 4 ||| low

def sequenceWidth (first : UInt8) : Option Nat :=
  if first ≤ 0x7F then some 1
  else if 0xC2 ≤ first ∧ first ≤ 0xDF then some 2
  else if 0xE0 ≤ first ∧ first ≤ 0xEF then some 3
  else if 0xF0 ≤ first ∧ first ≤ 0xF4 then some 4
  else none

/-- the escapes that make one character -/
def escapedSequence (input : Bytes) (start : Nat) : Option Bytes := do
  let first ← escaped input start
  let width ← sequenceWidth first
  let sequence ← (List.range width).mapM fun index => escaped input (start + 3 * index)
  let _ ← decode? sequence
  return sequence

/-- what is decoded from `offset` on, or the offset of a malformed escape -/
def uriDecodeFrom (input : Bytes) (component : Bool) : Nat → Nat → Run (Except Nat Bytes)
  | 0, _ => stuck
  | fuel + 1, offset =>
    match input[offset]? with
    | none => .ok (.ok [])
    | some byte =>
      if byte ≠ 0x25 then do
        let out ← uriDecodeFrom input component fuel (offset + 1)
        return out.map (byte :: ·)
      else
        match escapedSequence input offset with
        | none => .ok (.error offset)
        | some sequence => do
          let next := offset + 3 * sequence.length
          let source ← range input offset next
          let out ← uriDecodeFrom input component fuel next
          let kept := !component && sequence.head?.any reserved.contains
          return out.map ((if kept then source else sequence) ++ ·)

/-- `decode` of `uri.rs` -/
def uriDecode (input : Bytes) (component : Bool) : Run (Except Nat Bytes) :=
  uriDecodeFrom input component (input.length + 1) 0

def strEncodeUri (answer : Bool) (text : Bytes) (component : Bool) (posId : Nat) : Run Bytes :=
  allocStr answer (uriEncode text component) posId

def strDecodeUri (answer : Bool) (text : Bytes) (component : Bool) (posId : Nat) : Run Bytes := do
  match ← uriDecode text component with
  | .ok output => allocStr answer output posId
  | .error _ => trap .internal "URI decode requires validated input" posId

/-! ### JSON -/

def hexLower (digit : UInt8) : UInt8 := (ascii "0123456789abcdef").getD digit.toNat 0

def quoteByte (byte : UInt8) : Bytes :=
  if byte = 0x22 then ascii "\\\""
  else if byte = 0x5C then ascii "\\\\"
  else if byte = 0x08 then ascii "\\b"
  else if byte = 0x09 then ascii "\\t"
  else if byte = 0x0A then ascii "\\n"
  else if byte = 0x0C then ascii "\\f"
  else if byte = 0x0D then ascii "\\r"
  else if byte ≤ 0x1F then ascii "\\u00" ++ [hexLower (byte >>> 4), hexLower (byte &&& 0x0F)]
  else [byte]

def appendQuoted (output bytes : Bytes) : Bytes := output ++ 0x22 :: (bytes.flatMap quoteByte ++ [0x22])

/-! ### All of them -/

/-- an operation with its arguments; that of a JSON string appends to the output of a builder -/
inductive StrOp where
  | concat (a b : Bytes)
  | slice (s : Bytes) (start stop : Int)
  | substring (s : Bytes) (start stop : Int)
  | substr (s : Bytes) (start length : Int)
  | charAt (s : Bytes) (i : Int)
  | atIndex (s : Bytes) (i : Int)
  | split (s sep : Bytes) (limit : Int)
  | trim (s : Bytes)
  | trimStart (s : Bytes)
  | trimEnd (s : Bytes)
  | repeated (s : Bytes) (n : Int)
  | padStart (s : Bytes) (target : Int) (pad : Bytes)
  | padEnd (s : Bytes) (target : Int) (pad : Bytes)
  | replace (s pat repl : Bytes)
  | replaceAll (s pat repl : Bytes)
  | encodeURI (text : Bytes)
  | encodeURIComponent (text : Bytes)
  | decodeURI (text : Bytes)
  | decodeURIComponent (text : Bytes)
  | jsonString (output bytes : Bytes)
deriving DecidableEq, Repr

namespace StrOp

/-- the strings that an operation takes -/
def arguments : StrOp → List Bytes
  | concat a b => [a, b]
  | slice s _ _ | substring s _ _ | substr s _ _ | charAt s _ | atIndex s _ | trim s | trimStart s | trimEnd s
  | repeated s _ => [s]
  | split s sep _ => [s, sep]
  | padStart s _ pad | padEnd s _ pad => [s, pad]
  | replace s pat repl | replaceAll s pat repl => [s, pat, repl]
  | encodeURI text | encodeURIComponent text | decodeURI text | decodeURIComponent text => [text]
  | jsonString output bytes => [output, bytes]

/-- the strings that it makes; `room` is the allocator's answer to each of its requests -/
def run (room : Nat → Bool) (posId : Nat) : StrOp → Run (List Bytes)
  | concat a b => ([·]) <$> strConcat (room 0) a b posId
  | slice s start stop => ([·]) <$> strSlice (room 0) s start stop posId
  | substring s start stop => ([·]) <$> strSubstring (room 0) s start stop posId
  | substr s start length => ([·]) <$> strSubstr (room 0) s start length posId
  | charAt s i => ([·]) <$> strCharAt (room 0) s i posId
  | atIndex s i => ([·]) <$> strAt (room 0) s i posId
  | split s sep limit => strSplit room s sep limit posId
  | trim s => ([·]) <$> strTrimWith (room 0) s posId Str.trim
  | trimStart s => ([·]) <$> strTrimWith (room 0) s posId Str.trimStart
  | trimEnd s => ([·]) <$> strTrimWith (room 0) s posId Str.trimEnd
  | repeated s n => ([·]) <$> strRepeat (room 0) s n posId
  | padStart s target pad => ([·]) <$> strPad (room 0) s target pad true posId
  | padEnd s target pad => ([·]) <$> strPad (room 0) s target pad false posId
  | replace s pat repl => ([·]) <$> strReplace (room 0) s pat repl posId
  | replaceAll s pat repl => ([·]) <$> strReplaceAll (room 0) s pat repl posId
  | encodeURI text => ([·]) <$> strEncodeUri (room 0) text false posId
  | encodeURIComponent text => ([·]) <$> strEncodeUri (room 0) text true posId
  | decodeURI text => ([·]) <$> strDecodeUri (room 0) text false posId
  | decodeURIComponent text => ([·]) <$> strDecodeUri (room 0) text true posId
  | jsonString output bytes => .ok [appendQuoted output bytes]

end StrOp

end Subscript.Runtime.Str
