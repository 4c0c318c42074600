import Subscript.Runtime.UriDecode

/-! From valid strings every operation makes valid strings, or it traps: where a string is cut a character begins, a valid
pattern is found only where characters begin, and what is changed byte by byte is ASCII. -/

namespace Subscript.Runtime.Str

open List Text.Utf8

variable {α β : Type}

/-- the run gives a result with the property, or a trap -/
def Run.Sound (run : Run α) (P : α → Prop) : Prop :=
  match run with
  | .ok a => P a
  | .error (some _) => True
  | .error none => False

namespace Run.Sound

variable {run : Run α} {P Q : α → Prop} {R : β → Prop}

theorem trap (kind : TrapKind) (message : String) (posId : Nat) : Run.Sound (trap kind message posId) P := trivial

theorem bind {f : α → Run β} (h : Run.Sound run P) (next : ∀ a, P a → Run.Sound (f a) R) : Run.Sound (run >>= f) R := by
  cases run with
  | ok a => exact next a h
  | error e =>
    cases e with
    | none => exact h.elim
    | some r => trivial

theorem map {f : α → β} (h : Run.Sound run P) (next : ∀ a, P a → R (f a)) : Run.Sound (f <$> run) R := by
  rw [← bind_pure_comp]
  exact h.bind next

end Run.Sound

/-! ### Ranges -/

variable {bytes a b : Bytes} {lo hi : Nat}

theorem range_eq {c : Bytes} (is : bytes = a ++ (b ++ c)) (isLo : lo = a.length)
    (isHi : hi = a.length + b.length) : range bytes lo hi = .ok b := by
  subst is isLo isHi
  rw [range, if_pos (by simp)]
  simp

theorem range_from (order : lo ≤ hi) (inside : hi ≤ bytes.length) :
    range bytes lo hi = .ok ((bytes.drop lo).take (hi - lo)) := by
  rw [range, if_pos ⟨order, inside⟩]

variable {index : Nat}

theorem le_of_isBoundary (at_ : isBoundary bytes index = true) : index ≤ bytes.length := by
  rw [isBoundary] at at_
  split at at_
  · next is => exact (List.getElem?_eq_some_iff.1 is).1.le
  · exact (of_decide_eq_true at_).le

/-- a cut between two boundaries -/
theorem range_sound (valid : Valid bytes) (first : isBoundary bytes lo = true)
    (last : isBoundary bytes hi = true) (order : lo ≤ hi) : (range bytes lo hi).Sound Valid := by
  rw [range_from order (le_of_isBoundary last)]
  refine (Valid.cut ?_ (begins_drop valid last)).1
  have rest : bytes.drop hi = (bytes.drop lo).drop (hi - lo) := by
    rw [drop_drop, Nat.add_sub_cancel' order]
  rw [rest, take_append_drop]
  exact (valid.take_drop first).2

theorem encode_textOf (valid : Valid bytes) : encode (textOf bytes) = bytes := by
  obtain ⟨text, is⟩ := valid
  rw [textOf, decode?_eq_some.2 is]
  exact is

theorem alloc_sound (answer : Bool) (size posId : Nat) : (alloc answer size posId).Sound fun _ => True := by
  rw [alloc]
  split_ifs
  · trivial
  · exact .trap _ _ _

variable {P : Bytes → Prop}

theorem allocStrWith_sound {answer : Bool} {len posId : Nat} {writer : Nat → Run Bytes}
    (h : (writer len).Sound P) : (allocStrWith answer len posId writer).Sound P := by
  rw [allocStrWith]
  split_ifs
  · exact .trap _ _ _
  · exact (alloc_sound _ _ posId).bind fun _ _ => h

theorem allocStr_sound (answer : Bool) (posId : Nat) (h : P bytes) :
    (allocStr answer bytes posId).Sound P :=
  allocStrWith_sound h

theorem strConcat_sound (answer : Bool) (posId : Nat) (ha : Valid a) (hb : Valid b) :
    (strConcat answer a b posId).Sound Valid := by
  rw [strConcat]
  split_ifs
  · exact .trap _ _ _
  · exact allocStrWith_sound (ha.append hb)

theorem strAllocRange_sound (answer : Bool) (valid : Valid bytes) {checkedHi : Nat} (error : String)
    (posId : Nat) (order : lo ≤ hi) (ends : hi = checkedHi ∨ hi = lo) :
    (strAllocRange answer bytes lo hi checkedHi error posId).Sound Valid := by
  rw [strAllocRange, encode_textOf valid]
  split_ifs with outside
  · exact .trap _ _ _
  · simp only [Bool.or_eq_true, Bool.not_eq_true', not_or, Bool.not_eq_false] at outside
    obtain ⟨first, checked⟩ := outside
    have last : isBoundary bytes hi = true := by
      rcases ends with rfl | rfl
      · exact checked
      · exact first
    exact (range_sound valid first last order).bind fun piece valid => allocStr_sound answer posId valid

variable {s : Bytes}

theorem strSlice_sound (answer : Bool) (valid : Valid s) (start stop : Int) (posId : Nat) :
    (strSlice answer s start stop posId).Sound Valid := by
  refine strAllocRange_sound answer valid _ posId (Nat.le_max_right _ _) ?_
  rcases Nat.le_total (sliceRange s.length start stop).1 (sliceRange s.length start stop).2.2 with le | le
  · exact .inl (Nat.max_eq_left le)
  · exact .inr (Nat.max_eq_right le)

theorem substringRange_le (len : Nat) (start stop : Int) :
    (substringRange len start stop).1 ≤ (substringRange len start stop).2 := by
  rw [substringRange]
  split_ifs with order
  · exact order
  · exact (Nat.lt_of_not_le order).le

theorem strSubstring_sound (answer : Bool) (valid : Valid s) (start stop : Int) (posId : Nat) :
    (strSubstring answer s start stop posId).Sound Valid :=
  strAllocRange_sound answer valid _ posId (substringRange_le _ _ _) (.inl rfl)

theorem substrRange_le (len : Nat) (start length : Int) :
    (substrRange len start length).1 ≤ (substrRange len start length).2 := by
  generalize (min len i64Max : Nat) = len
  apply Int.toNat_le_toNat
  split_ifs <;> omega

theorem strSubstr_sound (answer : Bool) (valid : Valid s) (start length : Int) (posId : Nat) :
    (strSubstr answer s start length posId).Sound Valid :=
  strAllocRange_sound answer valid _ posId (substrRange_le _ _ _) (.inl rfl)

/-! ### Code points -/

/-- the character that is found stands in the bytes at the index -/
theorem codePointAt_ok (valid : Valid bytes) {i : Int} {ch : Char}
    (found : codePointAt bytes i = .ok (index, ch)) :
    ∃ front back, bytes = front ++ (String.utf8EncodeChar ch ++ back) ∧ front.length = index := by
  rw [codePointAt, encode_textOf valid] at found
  dsimp only at found
  split_ifs at found with outside inside
  rw [Bool.not_eq_true', Bool.not_eq_false] at inside
  have rest := encode_textOf (valid.take_drop inside).2
  generalize textOf (bytes.drop i.toNat) = text at found rest
  cases text with
  | nil => cases found
  | cons c more =>
    cases found
    refine ⟨bytes.take i.toNat, encode more, ?_, ?_⟩
    · rw [← encode_cons, rest, take_append_drop]
    · rw [length_take]
      omega

theorem valid_char (c : Char) : Valid (String.utf8EncodeChar c) := ⟨[c], by simp⟩

theorem strCharAt_sound (answer : Bool) (valid : Valid s) (i : Int) (posId : Nat) :
    (strCharAt answer s i posId).Sound Valid := by
  rw [strCharAt]
  split
  · exact allocStr_sound answer posId Valid.nil
  · exact .trap _ _ _
  · next index ch found =>
    obtain ⟨front, back, is, length⟩ := codePointAt_ok valid found
    rw [range_eq is length.symm (by rw [length])]
    exact allocStr_sound answer posId (valid_char ch)

theorem strAt_sound (answer : Bool) (valid : Valid s) (i : Int) (posId : Nat) :
    (strAt answer s i posId).Sound Valid := by
  delta strAt
  extract_lets index
  split
  · exact .trap _ _ _
  · exact .trap _ _ _
  · exact strCharAt_sound answer valid _ posId

/-! ### Searching -/

variable {hay needle : Bytes} {start : Nat}

/-- what is found stands there -/
theorem findFrom_some {i : Nat} (found : findFrom hay needle start = some i) :
    start ≤ i ∧ i + needle.length ≤ hay.length ∧ hay = hay.take i ++ (needle ++ hay.drop (i + needle.length)) := by
  rw [findFrom] at found
  split_ifs at found with beyond empty short
  · cases found
    rw [List.isEmpty_iff] at empty
    subst empty
    simp only [length_nil, Nat.add_zero, nil_append, take_append_drop, and_true]
    omega
  · have isNeedle : (hay.drop i).take needle.length = needle := by
      simpa using find?_some found
    have inside := mem_range'_1.1 (mem_of_find?_eq_some found)
    refine ⟨inside.1, by omega, ?_⟩
    calc hay = hay.take i ++ hay.drop i := (take_append_drop i hay).symm
      _ = hay.take i ++ ((hay.drop i).take needle.length ++ (hay.drop i).drop needle.length) := by
        rw [take_append_drop needle.length]
      _ = hay.take i ++ (needle ++ hay.drop (i + needle.length)) := by rw [isNeedle, drop_drop]

theorem findFrom_cut {i : Nat} (found : findFrom hay needle start = some i) :
    hay.drop start = (hay.drop start).take (i - start) ++ (needle ++ hay.drop (i + needle.length)) := by
  obtain ⟨later, inside, is⟩ := findFrom_some found
  have rest : hay.drop i = needle ++ hay.drop (i + needle.length) := by
    conv_lhs => rw [is]
    rw [drop_left' (by rw [length_take]; omega)]
  rw [← rest, ← Nat.add_sub_cancel' later, ← drop_drop, Nat.add_sub_cancel' later, take_append_drop]

/-- a match lies between valid parts of what is searched -/
theorem findFrom_around {i : Nat} (found : findFrom hay needle start = some i)
    (nonempty : needle ≠ []) (valid : Valid (hay.drop start)) (part : Valid needle) :
    range hay start i = .ok ((hay.drop start).take (i - start)) ∧ Valid ((hay.drop start).take (i - start)) ∧
      Valid (hay.drop (i + needle.length)) := by
  obtain ⟨later, inside, -⟩ := findFrom_some found
  rw [findFrom_cut found] at valid
  obtain ⟨before, after⟩ := valid.around part nonempty
  exact ⟨range_from later (by omega), before, after⟩

variable {sep : Bytes}

theorem splitFrom_sound (nonempty : sep ≠ []) (part : Valid sep) (fuel start : Nat)
    (within : start ≤ hay.length) (enough : hay.length < fuel + start) (valid : Valid (hay.drop start)) :
    (splitFrom hay sep fuel start).Sound fun pieces => ∀ piece ∈ pieces, Valid piece := by
  induction fuel generalizing start with
  | zero => omega
  | succ fuel ih =>
    rw [splitFrom]
    cases found : findFrom hay sep start with
    | none =>
      intro piece mem
      rw [mem_singleton.1 mem]
      exact valid
    | some i =>
      have length := length_pos_of_ne_nil nonempty
      obtain ⟨later, inside, -⟩ := findFrom_some found
      obtain ⟨isPiece, before, after⟩ := findFrom_around found nonempty valid part
      simp only [isPiece]
      refine (ih (i + sep.length) inside (by omega) after).map fun pieces valid => ?_
      exact forall_mem_cons.2 ⟨before, valid⟩

theorem splitEach_sound (valid : Valid hay) (part : Valid sep) :
    (splitEach hay sep).Sound fun pieces => ∀ piece ∈ pieces, Valid piece := by
  rw [splitEach]
  split_ifs with empty
  · split
    · next text is =>
      intro piece mem
      obtain ⟨c, -, rfl⟩ := mem_map.1 mem
      exact valid_char c
    · intro piece mem
      rw [mem_singleton.1 mem]
      exact valid
  · refine splitFrom_sound (fun isNil => empty (isEmpty_iff.2 isNil)) part _ 0 (Nat.zero_le _) (by omega) ?_
    rwa [drop_zero]

theorem pushPieces_sound (room : Nat → Bool) (posId len cap : Nat) {pieces : List Bytes}
    (valid : ∀ piece ∈ pieces, Valid piece) :
    (pushPieces room posId len cap pieces).Sound fun out => ∀ piece ∈ out, Valid piece := by
  induction pieces generalizing len cap with
  | nil => exact valid
  | cons piece pieces ih =>
    obtain ⟨first, others⟩ := forall_mem_cons.1 valid
    refine (allocStr_sound _ posId first).bind fun handle validHandle => ?_
    have pushed : ∀ newCap, Run.Sound (do
        let rest ← pushPieces room posId (len + 1) newCap pieces
        return handle :: rest) fun out => ∀ piece ∈ out, Valid piece := fun newCap =>
      (ih (len + 1) newCap others).bind fun rest validRest => forall_mem_cons.2 ⟨validHandle, validRest⟩
    split_ifs
    · exact (alloc_sound _ _ posId).bind fun _ _ => pushed _
    · exact (alloc_sound _ _ posId).bind fun _ _ => pushed _
    · exact pushed _

theorem strSplit_sound (room : Nat → Bool) (limit : Int) (posId : Nat) (valid : Valid s) (part : Valid sep) :
    (strSplit room s sep limit posId).Sound fun pieces => ∀ piece ∈ pieces, Valid piece := by
  refine (alloc_sound _ _ posId).bind fun _ _ => (splitEach_sound valid part).bind fun pieces validPieces => ?_
  exact pushPieces_sound room posId 0 0 fun piece mem => validPieces piece (mem_of_mem_take mem)

theorem trimStart_valid (valid : Valid s) : Valid (trimStart s) := by
  rw [trimStart]
  split
  · exact ⟨_, rfl⟩
  · exact valid

theorem trimEnd_valid (valid : Valid s) : Valid (trimEnd s) := by
  rw [trimEnd]
  split
  · exact ⟨_, rfl⟩
  · exact valid

/-! ### Repeating and padding -/

/-- `len` bytes of copies of the pattern -/
def cyclic (pattern : Bytes) (len : Nat) : Bytes :=
  (List.replicate (len / pattern.length) pattern).flatten ++ pattern.take (len % pattern.length)

variable {pattern : Bytes}

theorem take_replicate (nonempty : pattern ≠ []) (k len : Nat) (within : len ≤ k * pattern.length) :
    (List.replicate k pattern).flatten.take len = cyclic pattern len := by
  have length := length_pos_of_ne_nil nonempty
  induction k generalizing len with
  | zero =>
    obtain rfl : len = 0 := by omega
    simp [cyclic]
  | succ k ih =>
    rw [replicate_succ, flatten_cons]
    rcases Nat.lt_or_ge len pattern.length with short | long
    · rw [take_append_of_le_length short.le, cyclic, Nat.div_eq_of_lt short, Nat.mod_eq_of_lt short]
      rfl
    · obtain ⟨rest, rfl⟩ := Nat.exists_eq_add_of_le' long
      rw [take_append, take_of_length_le long, Nat.add_sub_cancel, ih rest (by rw [Nat.succ_mul] at within; omega),
        cyclic, cyclic, Nat.add_div_right _ length, Nat.add_mod_right, replicate_succ, flatten_cons,
        append_assoc]

/-- the copies double until the last step, which is cut off -/
theorem fillFrom_eq (nonempty : pattern ≠ []) (len fuel k : Nat) (some_ : 0 < k)
    (within : k * pattern.length ≤ len) (enough : len < fuel + k * pattern.length) :
    fillFrom len fuel (List.replicate k pattern).flatten = .ok (cyclic pattern len) := by
  have length := length_pos_of_ne_nil nonempty
  have size : ∀ k, (List.replicate k pattern).flatten.length = k * pattern.length := by simp
  induction fuel generalizing k with
  | zero => omega
  | succ fuel ih =>
    have positive := Nat.mul_pos some_ length
    rw [fillFrom, size]
    rcases Nat.lt_or_ge (k * pattern.length) len with more | done
    · rw [if_pos more]
      rcases Nat.le_total (k * pattern.length) (len - k * pattern.length) with whole | last
      · rw [Nat.min_eq_left whole, ← size k, take_length, ← flatten_append, replicate_append_replicate]
        refine ih (k + k) (by omega) ?_ ?_ <;> rw [Nat.add_mul] <;> omega
      · -- the rest is a beginning of what is written, and the copies go on evenly
        have two : len ≤ (k + k) * pattern.length := by
          rw [Nat.add_mul]
          omega
        have both : (List.replicate (k + k) pattern).flatten.take len =
            (List.replicate k pattern).flatten ++ (List.replicate k pattern).flatten.take (len - k * pattern.length) := by
          rw [← replicate_append_replicate, flatten_append, take_append, size,
            take_of_length_le ((size k).trans_le within)]
        cases fuel with
        | zero => omega
        | succ fuel =>
          rw [Nat.min_eq_right last, ← both, take_replicate nonempty (k + k) len two, fillFrom, if_neg]
          rw [← take_replicate nonempty (k + k) len two, length_take, size]
          omega
    · obtain rfl : len = k * pattern.length := by omega
      rw [if_neg (Nat.lt_irrefl _), ← take_replicate nonempty k _ (Nat.le_refl _), ← size k, take_length]

theorem fillCyclic_eq (nonempty : pattern ≠ []) (len : Nat) :
    fillCyclic len pattern = .ok (cyclic pattern len) := by
  have length := length_pos_of_ne_nil nonempty
  unfold fillCyclic
  split_ifs with isZero
  · subst isZero
    simp [cyclic]
  · split
    · simp [cyclic, Nat.mod_one]
    · rcases Nat.lt_or_ge len pattern.length with short | long
      · rw [Nat.min_eq_right short.le, fillFrom, if_neg (by rw [length_take]; omega), cyclic, Nat.div_eq_of_lt short,
          Nat.mod_eq_of_lt short]
        rfl
      · have once : pattern.take (min pattern.length len) = (List.replicate 1 pattern).flatten := by
          rw [Nat.min_eq_left long, take_length]
          simp
        rw [once]
        exact fillFrom_eq nonempty len (len + 1) 1 Nat.one_pos (by omega) (by omega)

theorem cyclic_valid (valid : Valid pattern) (len : Nat)
    (begins : Begins (pattern.drop (len % pattern.length))) : Valid (cyclic pattern len) := by
  refine Valid.append (Valid.flatten fun piece mem => ?_) (Valid.cut ?_ begins).1
  · rw [eq_of_mem_replicate mem]
    exact valid
  · rwa [take_append_drop]

theorem strRepeat_sound (answer : Bool) (valid : Valid s) (n : Int) (posId : Nat) :
    (strRepeat answer s n posId).Sound Valid := by
  rw [strRepeat]
  split_ifs
  · exact .trap _ _ _
  · exact .trap _ _ _
  · apply allocStrWith_sound
    rw [repeatInto]
    split_ifs with empty
    · rw [isEmpty_iff.1 empty]
      rw [length_nil, Nat.zero_mul]
      exact Valid.nil
    · rw [fillCyclic_eq fun isNil => empty (isEmpty_iff.2 isNil)]
      refine cyclic_valid valid _ ?_
      rw [Nat.mul_mod_right, drop_zero]
      exact valid.begins

/-- the test of `pad_cut_inside_sequence` -/
theorem mask_eq_iff : ∀ byte : UInt8, byte &&& 0xC0 = 0x80 ↔ isContinuation byte = true :=
  forall_byte (by decide +kernel)

variable {pad : Bytes}

theorem begins_of_no_cut {fillLen : Nat} (valid : Valid pad)
    (none_ : padCutInsideSequence fillLen pad = none) : Begins (pad.drop (fillLen % pad.length)) := by
  intro byte mem
  rw [head?_drop] at mem
  unfold padCutInsideSequence at none_
  dsimp only at none_
  split_ifs at none_ with empty inside
  · rw [isEmpty_iff.1 empty] at mem
    cases mem
  · rcases Nat.eq_zero_or_pos (fillLen % pad.length) with isZero | positive
    · rw [isZero, ← head?_eq_getElem?] at mem
      exact valid.begins byte mem
    · refine Bool.eq_false_iff.2 fun continues => inside ⟨Nat.ne_of_gt positive, ?_⟩
      rw [getD_eq_getElem?_getD, mem]
      exact (mask_eq_iff byte).2 continues

/-- the string with `fill` bytes of padding -/
def padded (s pad : Bytes) (atStart : Bool) (fill : Nat) : Bytes :=
  if atStart then cyclic pad fill ++ s else s ++ cyclic pad fill

theorem padInto_eq (s : Bytes) (atStart : Bool) {fill : Nat} (some_ : fill ≠ 0 → pad ≠ []) :
    padInto s pad atStart (s.length + fill) = .ok (padded s pad atStart fill) := by
  have filled : fillCyclic fill pad = .ok (cyclic pad fill) := by
    rcases eq_or_ne fill 0 with rfl | more
    · simp [fillCyclic, cyclic]
    · exact fillCyclic_eq (some_ more) fill
  rw [padInto, if_neg (by omega), Nat.add_sub_cancel_left, if_neg fun ⟨more, isNil⟩ => some_ more (isEmpty_iff.1 isNil),
    filled]
  rfl

theorem padFillLen_ne_zero (receiverLen : Nat) (target : Int) (more : padFillLen receiverLen target pad ≠ 0) : pad ≠ [] := by
  rintro rfl
  exact more rfl

theorem strPad_sound (answer : Bool) (valid : Valid s) (validPad : Valid pad) (target : Int) (atStart : Bool)
    (posId : Nat) : (strPad answer s target pad atStart posId).Sound Valid := by
  unfold strPad
  dsimp only
  split
  · exact .trap _ _ _
  · next uncut =>
    apply allocStrWith_sound
    rw [padInto_eq s atStart (padFillLen_ne_zero s.length target)]
    have filler := cyclic_valid validPad _ (begins_of_no_cut validPad uncut)
    cases atStart with
    | true => exact filler.append valid
    | false => exact valid.append filler

/-! ### Replacing -/

/-- the ranges of the source that a replacement can name are valid -/
structure Clean (source : Bytes) (matchStart matchEnd : Nat) (captures : Captures) : Prop where
  whole : (range source matchStart matchEnd).Sound Valid
  before : (range source 0 matchStart).Sound Valid
  after : (range source matchEnd source.length).Sound Valid
  numbered : ∀ index, (captured source (captures.numbered index)).Sound Valid
  named : ∀ name, (captured source (captures.named name)).Sound Valid

theorem ascii_of_digit (byte : UInt8) (digit : isDigit byte = true) : isAscii byte = true := by
  simp only [isDigit, isAscii, Bool.and_eq_true, decide_eq_true_eq, UInt8.le_iff_toNat_le, UInt8.lt_iff_toNat_lt] at digit ⊢
  exact Nat.lt_of_le_of_lt digit.2 (by decide)

section

variable {source : Bytes} {matchStart matchEnd : Nat} {captures : Captures}

variable {byte : UInt8}

theorem substitute_plain (rest : Bytes) (other : byte ≠ dollar) :
    substitute source matchStart matchEnd captures (byte :: rest) = .ok ([byte], rest) := by
  cases rest with
  | nil => rfl
  | cons next rest => rw [substitute, if_pos other]

theorem captureOf_some {count index consumed : Nat} {next : UInt8} {after : Option UInt8}
    (is : captureOf count next after = some (index, consumed)) :
    consumed = 2 ∨ consumed = 3 ∧ ∃ digit ∈ after, isDigit digit = true := by
  unfold captureOf at is
  dsimp only at is
  split_ifs at is
  · obtain ⟨n, isSome, pair⟩ := Option.map_eq_some_iff.1 is
    obtain ⟨digit, found, -⟩ := Option.map_eq_some_iff.1 isSome
    obtain ⟨mem, digits⟩ := Option.filter_eq_some_iff.1 found
    cases pair
    exact .inr ⟨rfl, digit, mem, digits⟩
  · cases is
    exact .inl rfl

variable {tail : Bytes}

/-- a substitution takes whole characters of a valid replacement -/
theorem substitute_sound (clean : Clean source matchStart matchEnd captures)
    (single : isAscii byte = true) (valid : Valid tail) :
    (substitute source matchStart matchEnd captures (byte :: tail)).Sound fun (piece, rest) =>
      Valid piece ∧ Valid rest ∧ rest.length ≤ tail.length := by
  have alone : Valid [byte] := Valid.nil.ascii_cons single
  by_cases other : byte = dollar
  swap
  · rw [substitute_plain tail other]
    exact ⟨alone, valid, Nat.le_refl _⟩
  subst other
  cases tail with
  | nil => exact ⟨alone, valid, Nat.le_refl _⟩
  | cons next rest =>
    have shorter : rest.length ≤ (next :: rest).length := Nat.le_succ _
    have plain : Run.Sound (.ok ([dollar], next :: rest)) fun (piece, more) =>
        Valid piece ∧ Valid more ∧ more.length ≤ (next :: rest).length := ⟨alone, valid, Nat.le_refl _⟩
    rw [substitute, if_neg (not_not.2 rfl)]
    split_ifs with h₁ h₂ h₃ h₄ digit name
    · exact ⟨alone, valid.tail (h₁ ▸ single), shorter⟩
    · exact clean.whole.bind fun piece ok => ⟨ok, valid.tail (h₂ ▸ rfl), shorter⟩
    · exact clean.before.bind fun piece ok => ⟨ok, valid.tail (h₃ ▸ rfl), shorter⟩
    · exact clean.after.bind fun piece ok => ⟨ok, valid.tail (h₄ ▸ rfl), shorter⟩
    · have validRest := valid.tail (ascii_of_digit next digit)
      split
      · next index consumed is =>
        refine (clean.numbered index).bind fun piece ok => ⟨ok, ?_⟩
        rcases captureOf_some is with rfl | ⟨rfl, second, mem, digit⟩
        · exact ⟨validRest, shorter⟩
        · obtain ⟨more, rfl⟩ := head?_eq_some_iff.1 mem
          exact ⟨validRest.tail (ascii_of_digit second digit), by simp only [drop_succ_cons, drop_zero, length_cons]; omega⟩
      · exact plain
    · split
      · exact plain
      · next relativeEnd is =>
        refine (clean.named _).bind fun piece ok => ⟨ok, ?_, ?_⟩
        · obtain ⟨inside, isClose, -⟩ := idxOf?_eq_some_iff.1 is
          have cut : rest = rest.take relativeEnd ++ 0x3E :: rest.drop (relativeEnd + 1) := by
            rw [← isClose, getElem_cons_drop, take_append_drop]
          have validRest := valid.tail (name.1 ▸ rfl)
          rw [cut] at validRest
          refine (validRest.cut ?_).2.tail rfl
          intro first mem
          cases mem
          rfl
        · rw [length_drop]
          omega
    · exact plain

theorem high_ne_dollar (high : isAscii byte = false) : byte ≠ dollar := by
  rintro rfl
  cases high

/-- Bytes that are not ASCII go over one by one, so the replacement may begin within a character. -/
theorem replacementFrom_sound (clean : Clean source matchStart matchEnd captures) (fuel : Nat) {front : Bytes}
    (high : ∀ byte ∈ front, isAscii byte = false) (valid : Valid tail) (enough : (front ++ tail).length < fuel) :
    (replacementFrom source matchStart matchEnd captures fuel (front ++ tail)).Sound fun out =>
      ∃ out', out = front ++ out' ∧ Valid out' := by
  induction fuel generalizing front tail with
  | zero => omega
  | succ fuel ih =>
    rw [replacementFrom]
    cases front with
    | cons byte front =>
      obtain ⟨first, others⟩ := forall_mem_cons.1 high
      rw [cons_append, if_neg (by simp), substitute_plain _ (high_ne_dollar first)]
      refine (ih others valid (by simpa using enough)).map ?_
      rintro _ ⟨out, rfl, ok⟩
      exact ⟨out, rfl, ok⟩
    | nil =>
      obtain ⟨text, rfl⟩ := valid
      rw [nil_append] at enough ⊢
      cases text with
      | nil => exact ⟨[], rfl, Valid.nil⟩
      | cons c text =>
        rcases encodeChar_cases c with ⟨byte, is, single⟩ | ⟨lead, conts, is, isHigh, -, continues⟩
        · rw [encode_cons, is, singleton_append] at enough ⊢
          refine (substitute_sound clean single ⟨text, rfl⟩).bind fun (piece, rest) ⟨validPiece, validRest, shorter⟩ => ?_
          have fits : rest.length < fuel := by
            rw [length_cons] at enough
            omega
          have next := ih (forall_mem_nil _) validRest fits
          refine next.map ?_
          rintro _ ⟨_, rfl, ok⟩
          exact ⟨_, rfl, validPiece.append ok⟩
        · have whole : Valid (lead :: conts) := is ▸ valid_char c
          rw [encode_cons, is, cons_append] at enough ⊢
          rw [if_neg (by simp), substitute_plain _ (high_ne_dollar isHigh)]
          have next := ih (fun byte mem => not_ascii_of_continuation (continues byte mem)) ⟨text, rfl⟩
            (Nat.lt_of_succ_lt_succ enough)
          refine next.map ?_
          rintro _ ⟨out, rfl, ok⟩
          exact ⟨lead :: conts ++ out, rfl, whole.append ok⟩

theorem appendReplacement_sound (clean : Clean source matchStart matchEnd captures) {out replacement : Bytes}
    (validOut : Valid out) (valid : Valid replacement) :
    (appendReplacement source matchStart matchEnd captures out replacement).Sound Valid := by
  have sound := replacementFrom_sound clean (replacement.length + 1) (forall_mem_nil _) valid (Nat.lt_succ_self _)
  refine sound.bind ?_
  rintro _ ⟨appended, rfl, ok⟩
  exact validOut.append ok

end

variable {source : Bytes}

/-- a part of a string between two valid ones, without captures -/
theorem clean_of_parts {c : Bytes} (is : source = a ++ (b ++ c)) (validA : Valid a) (validB : Valid b)
    (validC : Valid c) : Clean source a.length (a.length + b.length) .none where
  whole := by
    rw [range_eq is rfl rfl]
    exact validB
  before := by
    have front : range source 0 a.length = .ok a := range_eq (a := []) is rfl (by simp)
    rw [front]
    exact validA
  after := by
    rw [range_eq (a := a ++ b) (b := c) (c := []) (by simp [is]) (by simp) (by simp [is, Nat.add_assoc])]
    exact validC
  numbered _ := Valid.nil
  named _ := Valid.nil

variable {repl pat : Bytes}

theorem replaceFirst_sound (valid : Valid s) (validPat : Valid pat) (validRepl : Valid repl) :
    (replaceFirst s pat repl).Sound Valid := by
  rw [replaceFirst]
  cases found : findFrom s pat 0 with
  | none => exact valid
  | some i =>
    obtain ⟨-, inside, is⟩ := findFrom_some found
    have parts : Valid (s.take i) ∧ Valid (s.drop (i + pat.length)) := by
      rcases eq_or_ne pat [] with rfl | nonempty
      · have isZero : i = 0 := by
          simpa [findFrom] using found.symm
        subst isZero
        exact ⟨Valid.nil, by simpa using valid⟩
      · rw [is] at valid
        exact valid.around validPat nonempty
    have length : (s.take i).length = i := by
      rw [length_take]
      omega
    have clean := clean_of_parts is parts.1 validPat parts.2
    rw [length] at clean
    have front : range s 0 i = .ok (s.take i) := range_eq (a := []) is rfl (by simp [length])
    simp only [front]
    refine (appendReplacement_sound clean parts.1 validRepl).bind fun out validOut => ?_
    exact clean.after.bind fun back validBack => validOut.append validBack

variable {out : Bytes}

/-- one bound of an empty pattern: it lies between characters -/
theorem replaceAt_sound (validRepl : Valid repl) (validOut : Valid out) {before mid text : List Char}
    (is : s = encode before ++ (encode mid ++ encode text)) {next : Bytes → Run Bytes}
    (sound : ∀ out, Valid out → (next out).Sound Valid) :
    Run.Sound (do
      let piece ← range s (encode before).length (encode (before ++ mid)).length
      let out ← appendReplacement s (encode (before ++ mid)).length (encode (before ++ mid)).length .none (out ++ piece) repl
      next out) Valid := by
  have between : s = encode (before ++ mid) ++ ([] ++ encode text) := by simp [is]
  have clean := clean_of_parts between ⟨_, rfl⟩ Valid.nil ⟨_, rfl⟩
  have piece : range s (encode before).length (encode (before ++ mid)).length = .ok (encode mid) :=
    range_eq is rfl (by simp)
  rw [piece]
  exact (appendReplacement_sound clean (validOut.append ⟨mid, rfl⟩) validRepl).bind sound

theorem replaceBetween_sound (validRepl : Valid repl) (text before mid : List Char)
    (validOut : Valid out) (is : s = encode before ++ (encode mid ++ encode text)) :
    (replaceBetween s repl (encode before).length (charBounds (encode (before ++ mid)).length text) out).Sound Valid := by
  induction text generalizing before mid out with
  | nil => exact replaceAt_sound validRepl validOut is fun out ok => ok
  | cons c text ih =>
    refine replaceAt_sound validRepl validOut is fun out ok => ?_
    have is' : s = encode (before ++ mid) ++ (encode [c] ++ encode text) := by simp [is]
    have next := ih (before ++ mid) [c] ok is'
    rwa [encode_append (before ++ mid) [c], length_append, encode_cons, encode_nil, append_nil] at next

theorem replaceFrom_sound (nonempty : pat ≠ []) (valid : Valid s) (validPat : Valid pat)
    (validRepl : Valid repl) (fuel start : Nat) (within : start ≤ s.length) (enough : s.length < fuel + start)
    (validRest : Valid (s.drop start)) (validOut : Valid out) :
    (replaceFrom s pat repl fuel start out).Sound Valid := by
  induction fuel generalizing start out with
  | zero => omega
  | succ fuel ih =>
    rw [replaceFrom]
    cases found : findFrom s pat start with
    | none =>
      have back : range s start s.length = .ok (s.drop start) := by
        rw [range_from within (Nat.le_refl _), ← length_drop, take_length]
      simp only [back]
      exact validOut.append validRest
    | some i =>
      have length := length_pos_of_ne_nil nonempty
      obtain ⟨later, inside, is⟩ := findFrom_some found
      obtain ⟨isPiece, before, after⟩ := findFrom_around found nonempty validRest validPat
      have parts : Valid (s.take i) ∧ Valid (s.drop (i + pat.length)) := by
        rw [is] at valid
        exact valid.around validPat nonempty
      have front : (s.take i).length = i := by
        rw [length_take]
        omega
      have clean := clean_of_parts is parts.1 validPat parts.2
      rw [front] at clean
      simp only [isPiece]
      refine (appendReplacement_sound clean (validOut.append before) validRepl).bind fun out validOut => ?_
      exact ih (i + pat.length) inside (by omega) after validOut

theorem replaceAll_sound (valid : Valid s) (validPat : Valid pat) (validRepl : Valid repl) :
    (replaceAll s pat repl).Sound Valid := by
  rw [replaceAll]
  split_ifs with empty
  · split
    · next text is =>
      exact replaceBetween_sound validRepl text [] [] Valid.nil (decode?_eq_some.1 is).symm
    · exact valid
  · exact replaceFrom_sound (fun isNil => empty (isEmpty_iff.2 isNil)) valid validPat validRepl _ 0 (Nat.zero_le _)
      (by omega) (by rwa [drop_zero]) Valid.nil

/-! ### URIs and JSON -/

/-- escapes are made of ASCII -/
theorem escape_table : ∀ byte, ((encodeByte true byte).all isAscii ∧ (encodeByte false byte).all isAscii) ∧
    (isAscii byte = false → quoteByte byte = [byte]) ∧ (isAscii byte = true → (quoteByte byte).all isAscii) ∧
    ((hexValue byte).isSome = true → isAscii byte = true) :=
  forall_byte (by decide +kernel)

theorem encodeByte_ascii (component : Bool) (byte : UInt8) : ∀ b ∈ encodeByte component byte, isAscii b = true := by
  cases component
  · exact all_eq_true.1 (escape_table byte).1.2
  · exact all_eq_true.1 (escape_table byte).1.1

theorem uriEncode_valid (input : Bytes) (component : Bool) : Valid (uriEncode input component) := by
  refine Valid.of_ascii fun b mem => ?_
  obtain ⟨byte, -, mem⟩ := mem_flatMap.1 mem
  exact encodeByte_ascii component byte b mem

theorem appendQuoted_valid {output : Bytes} (validOutput : Valid output) (valid : Valid bytes) :
    Valid (appendQuoted output bytes) := by
  have quoted := valid.flatMap (fun byte => (escape_table byte).2.1) fun byte ascii =>
    all_eq_true.1 ((escape_table byte).2.2.1 ascii)
  exact validOutput.append ((quoted.append (Valid.nil.ascii_cons rfl)).ascii_cons rfl)

theorem Spelled.ascii (spelled : Spelled source bytes) : ∀ byte ∈ source, isAscii byte = true := by
  induction spelled with
  | nil => exact forall_mem_nil _
  | cons high low _ ih =>
    have digit {byte value : UInt8} (is : hexValue byte = some value) := (escape_table byte).2.2.2 (Option.isSome_of_eq_some is)
    exact forall_mem_cons.2 ⟨rfl, forall_mem_cons.2 ⟨digit high, forall_mem_cons.2 ⟨digit low, ih⟩⟩⟩

/-- As with a replacement, the bytes that are not ASCII go over one by one. -/
theorem Decodes.valid {component : Bool} {input output : Bytes} (decodes : Decodes component input output) {front tail : Bytes}
    (is : input = front ++ tail) (high : ∀ byte ∈ front, isAscii byte = false) (valid : Valid tail) :
    ∃ rest, output = front ++ rest ∧ Valid rest := by
  induction decodes generalizing front tail with
  | nil =>
    obtain ⟨rfl, rfl⟩ := append_eq_nil_iff.1 is.symm
    exact ⟨[], rfl, Valid.nil⟩
  | literal _ _ ih =>
    cases front with
    | cons byte front =>
      obtain ⟨rfl, rfl⟩ := cons.inj is
      obtain ⟨rest, rfl, validRest⟩ := ih rfl (forall_mem_cons.1 high).2 valid
      exact ⟨rest, rfl, validRest⟩
    | nil =>
      obtain ⟨_ | ⟨c, text⟩, rfl⟩ := valid
      · cases is
      rcases encodeChar_cases c with ⟨byte, isByte, single⟩ | ⟨lead, conts, isBytes, -, -, continues⟩
      · rw [nil_append, encode_cons, isByte] at is
        obtain ⟨rfl, rfl⟩ := cons.inj is
        obtain ⟨rest, rfl, validRest⟩ := ih rfl (forall_mem_nil _) ⟨text, rfl⟩
        exact ⟨_, rfl, validRest.ascii_cons single⟩
      · rw [nil_append, encode_cons, isBytes] at is
        obtain ⟨rfl, rfl⟩ := cons.inj is
        obtain ⟨rest, rfl, validRest⟩ := ih rfl (fun byte mem => not_ascii_of_continuation (continues byte mem)) ⟨text, rfl⟩
        have validChar := valid_char c
        rw [isBytes] at validChar
        exact ⟨_, rfl, validChar.append validRest⟩
  | scalar spelled _ ih =>
    cases front with
    | cons byte front =>
      obtain ⟨escapes, rfl⟩ := spelled.percent
      obtain ⟨rfl, -⟩ := cons.inj is
      cases high _ mem_cons_self
    | nil =>
      have validSource := Valid.of_ascii spelled.ascii
      subst is
      obtain ⟨rest, rfl, validRest⟩ := ih rfl (forall_mem_nil _) (valid.of_append validSource)
      refine ⟨_, rfl, Valid.append ?_ validRest⟩
      split_ifs
      · exact validSource
      · exact valid_char _

theorem strDecodeUri_sound (answer : Bool) {text : Bytes} (valid : Valid text) (component : Bool) (posId : Nat) :
    (strDecodeUri answer text component posId).Sound Valid := by
  obtain ⟨front, output, rest, rfl, decodes, rfl | malformed⟩ := decodes_or_malformed component text
  · rw [append_nil] at valid ⊢
    obtain ⟨_, rfl, validOut⟩ := decodes.valid rfl (forall_mem_nil _) valid
    rw [strDecodeUri, decodes.uriDecode]
    exact allocStr_sound answer posId validOut
  · rw [strDecodeUri, malformed.uriDecode decodes]
    exact .trap _ _ _

/-! ### All of them -/

theorem Run.Sound.single {run : Run Bytes} (h : run.Sound Valid) :
    Run.Sound (([·]) <$> run) fun out => ∀ piece ∈ out, Valid piece :=
  h.map fun _ valid => forall_mem_singleton.2 valid

/-- An operation on valid strings, with any numbers and whatever the allocator answers, makes valid strings or traps. -/
theorem strOp_valid (op : StrOp) (room : Nat → Bool) (posId : Nat) (valid : ∀ s ∈ op.arguments, Valid s) :
    (∃ out, op.run room posId = .ok out ∧ ∀ piece ∈ out, Valid piece) ∨ ∃ r, op.run room posId = .error (some r) := by
  have sound : (op.run room posId).Sound fun out => ∀ piece ∈ out, Valid piece := by
    cases op <;> simp only [StrOp.arguments, forall_mem_cons, not_mem_nil, false_implies,
      implies_true, and_true] at valid <;>
      rw [StrOp.run]
    case concat => exact (strConcat_sound _ posId valid.1 valid.2).single
    case slice start stop => exact (strSlice_sound _ valid start stop posId).single
    case substring start stop => exact (strSubstring_sound _ valid start stop posId).single
    case substr start length => exact (strSubstr_sound _ valid start length posId).single
    case charAt i => exact (strCharAt_sound _ valid i posId).single
    case atIndex i => exact (strAt_sound _ valid i posId).single
    case split limit => exact strSplit_sound room limit posId valid.1 valid.2
    case trim => exact (allocStr_sound _ posId (trimEnd_valid (trimStart_valid valid))).single
    case trimStart => exact (allocStr_sound _ posId (trimStart_valid valid)).single
    case trimEnd => exact (allocStr_sound _ posId (trimEnd_valid valid)).single
    case repeated n => exact (strRepeat_sound _ valid n posId).single
    case padStart target pad => exact (strPad_sound _ valid.1 valid.2 target true posId).single
    case padEnd target pad => exact (strPad_sound _ valid.1 valid.2 target false posId).single
    case replace =>
      exact ((replaceFirst_sound valid.1 valid.2.1 valid.2.2).bind fun out ok => allocStr_sound _ posId ok).single
    case replaceAll =>
      exact ((replaceAll_sound valid.1 valid.2.1 valid.2.2).bind fun out ok => allocStr_sound _ posId ok).single
    case encodeURI => exact (allocStr_sound _ posId (uriEncode_valid _ false)).single
    case encodeURIComponent => exact (allocStr_sound _ posId (uriEncode_valid _ true)).single
    case decodeURI => exact (strDecodeUri_sound _ valid false posId).single
    case decodeURIComponent => exact (strDecodeUri_sound _ valid true posId).single
    case jsonString => exact forall_mem_singleton.2 (appendQuoted_valid valid.1 valid.2)
  cases run : op.run room posId with
  | ok out =>
    rw [run] at sound
    exact .inl ⟨out, rfl, sound⟩
  | error e =>
    cases e with
    | none =>
      rw [run] at sound
      exact sound.elim
    | some r => exact .inr ⟨r, rfl⟩

/-- Whole copies of `é` fill four bytes; three would cut one. -/
theorem strOp_valid_pad :
    (StrOp.padStart [0x61] 5 [0xC3, 0xA9]).run (fun _ => true) 0 = .ok [[0xC3, 0xA9, 0xC3, 0xA9, 0x61]] ∧
      ((∃ out, (StrOp.padStart [0x61] 4 [0xC3, 0xA9]).run (fun _ => true) 0 = .ok out ∧ ∀ piece ∈ out, Valid piece) ∨
        ∃ r, (StrOp.padStart [0x61] 4 [0xC3, 0xA9]).run (fun _ => true) 0 = .error (some r)) := by
  refine ⟨by decide, strOp_valid _ _ _ ?_⟩
  simp only [StrOp.arguments, forall_mem_cons, not_mem_nil, false_implies, implies_true, and_true]
  exact ⟨⟨['a'], by decide⟩, ⟨['é'], by decide⟩⟩

end Subscript.Runtime.Str
