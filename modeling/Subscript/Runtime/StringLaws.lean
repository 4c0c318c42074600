import Subscript.Runtime.StringValid
import Subscript.Text.Scan

/-! Two ways to the same bytes: the padding that writes into the result and the one that builds a vector, and the loops of
`split` and of `replaceAll`, which make the same scan. -/

namespace Subscript.Runtime.Str

open List Text Text.Utf8

variable {s part repl pattern : Bytes}

/-! ### Padding -/

theorem getElem?_copies (k i : Nat) (within : i < k * pattern.length) :
    (List.replicate k pattern).flatten[i]? = pattern[i % pattern.length]? := by
  induction k generalizing i with
  | zero => omega
  | succ k ih =>
    rw [replicate_succ, flatten_cons]
    rcases Nat.lt_or_ge i pattern.length with first | later
    · rw [getElem?_append_left first, Nat.mod_eq_of_lt first]
    · rw [Nat.succ_mul] at within
      rw [getElem?_append_right later, ih _ (by omega), Nat.mod_eq_sub_mod later]

theorem getElem?_cyclic (nonempty : pattern ≠ []) {len i : Nat} (within : i < len) :
    (cyclic pattern len)[i]? = pattern[i % pattern.length]? := by
  have length := length_pos_of_ne_nil nonempty
  have copies : len ≤ len * pattern.length := Nat.le_mul_of_pos_right _ length
  rw [← take_replicate nonempty len len copies, getElem?_take_of_lt within, getElem?_copies _ _ (by omega)]

theorem length_cyclic {len : Nat} (some_ : len ≠ 0 → pattern ≠ []) : (cyclic pattern len).length = len := by
  rcases eq_or_ne len 0 with rfl | more
  · simp [cyclic]
  · have copies := Nat.le_mul_of_pos_right len (length_pos_of_ne_nil (some_ more))
    rw [← take_replicate (some_ more) len len copies]
    simp [copies]

theorem length_padded (s : Bytes) (atStart : Bool) {fill : Nat} (some_ : fill ≠ 0 → pattern ≠ []) :
    (padded s pattern atStart fill).length = s.length + fill := by
  rw [padded]
  split_ifs <;> simp [length_cyclic some_, Nat.add_comm]

theorem cyclic_eq_ofFn (nonempty : pattern ≠ []) (len : Nat) :
    cyclic pattern len = List.ofFn fun i : Fin len => pattern.getD (i % pattern.length) 0 := by
  refine ext_getElem? fun i => ?_
  rcases Nat.lt_or_ge i len with within | beyond
  · have inside := Nat.mod_lt i (length_pos_of_ne_nil nonempty)
    rw [getElem?_cyclic nonempty within, List.getElem?_ofFn, dif_pos within, List.getD_eq_getElem?_getD,
      getElem?_eq_getElem inside]
    rfl
  · rw [getElem?_eq_none (by rwa [length_cyclic fun _ => nonempty]), getElem?_eq_none (by simpa using beyond)]

/-- what the iterator over the copies gives -/
theorem cycleTake_eq (nonempty : pattern ≠ []) (count k : Nat) (left : Bytes)
    (within : count ≤ left.length + k * pattern.length) :
    cycleTake pattern count left = (left ++ (List.replicate k pattern).flatten).take count := by
  induction count generalizing left k with
  | zero => simp [cycleTake]
  | succ count ih =>
    cases left with
    | cons byte left =>
      rw [cycleTake, ih k left (by simp at within; omega)]
      rfl
    | nil =>
      obtain ⟨byte, left, rfl⟩ := exists_cons_of_ne_nil nonempty
      cases k with
      | zero => simp at within
      | succ k =>
        rw [cycleTake, ih k left (by rw [Nat.succ_mul] at within; simp at within ⊢; omega)]
        rfl

theorem cycleTake_eq_cyclic (nonempty : pattern ≠ []) (count : Nat) :
    cycleTake pattern count pattern = cyclic pattern count := by
  have copies := Nat.le_mul_of_pos_right count (length_pos_of_ne_nil nonempty)
  rw [cycleTake_eq nonempty count count pattern (by omega), ← flatten_cons, ← replicate_succ,
    take_replicate nonempty _ _ (by rw [Nat.succ_mul]; omega)]

theorem pad_eq (s : Bytes) (target : Int) (padding : Bytes) (atStart : Bool)
    (uncut : padCutInsideSequence (padFillLen s.length target padding) padding = none) :
    pad s target padding atStart = .ok (padded s padding atStart (padFillLen s.length target padding)) := by
  simp only [pad, uncut, padded]
  by_cases full : padFillLen s.length target padding = 0
  · simp [full, cyclic]
  · rw [if_neg full, cycleTake_eq_cyclic (padFillLen_ne_zero _ _ full)]

/-- The padding into the buffer gives what the vector would, in the same cases; the fill repeats the pattern. -/
theorem strPad_eq_pad :
    (∀ (answer : Bool) (s : Bytes) (target : Int) (padding : Bytes) (atStart : Bool) (posId : Nat),
      strPad answer s target padding atStart posId =
        match pad s target padding atStart with
        | .ok out => allocStr answer out posId
        | .error cut =>
          trap .stringSlice
            ((if atStart then "padStart" else "padEnd") ++ "(" ++ toString target ++ "): the cut is at pad byte " ++
              toString cut ++ ", inside a UTF-8 sequence") posId) ∧
      ∀ (len : Nat) (byte : UInt8) (rest : Bytes), fillCyclic len (byte :: rest) =
        .ok (List.ofFn fun i : Fin len => (byte :: rest).getD (i % (byte :: rest).length) 0) := by
  refine ⟨fun answer s target padding atStart posId => ?_, fun len byte rest => ?_⟩
  · cases inside : padCutInsideSequence (padFillLen s.length target padding) padding with
    | some cut => simp only [strPad, pad, inside]
    | none =>
      have some_ : padFillLen s.length target padding ≠ 0 → padding ≠ [] := padFillLen_ne_zero s.length target
      have written := padInto_eq s atStart some_
      rw [pad_eq s target padding atStart inside]
      simp only [strPad, inside, allocStr, allocStrWith, written, length_padded s atStart some_]
  · rw [fillCyclic_eq (cons_ne_nil _ _), cyclic_eq_ofFn (cons_ne_nil _ _)]

/-! ### Splitting and replacing -/

/-- no dollar of the replacement begins a pattern; without captures digits and names are none -/
def plain : Bytes → Bool
  | byte :: next :: rest =>
    !(byte == dollar && (next == dollar || next == 0x26 || next == 0x60 || next == 0x27)) && plain (next :: rest)
  | _ => true

theorem captureOf_zero (next : UInt8) (after : Option UInt8) : captureOf 0 next after = none := by
  have none_ : ∀ two : Option Nat, ¬ (two.any fun index => 0 < index && index ≤ 0) = true := by
    intro two
    cases two with
    | none => exact Bool.false_ne_true
    | some index => simp [Nat.pos_iff_ne_zero]
  rw [captureOf, if_neg (none_ _), if_neg (by omega)]

theorem substitute_none {byte : UInt8} {rest : Bytes} (matchStart matchEnd : Nat) (is : plain (byte :: rest) = true) :
    substitute s matchStart matchEnd .none (byte :: rest) = .ok ([byte], rest) ∧ plain rest = true := by
  cases rest with
  | nil => exact ⟨rfl, rfl⟩
  | cons next rest =>
    rw [plain, Bool.and_eq_true, Bool.not_eq_true', Bool.and_eq_false_imp] at is
    refine ⟨?_, is.2⟩
    by_cases isDollar : byte = dollar
    · subst isDollar
      have other := is.1 (beq_self_eq_true _)
      simp only [Bool.or_eq_false_iff, beq_eq_false_iff_ne] at other
      obtain ⟨⟨⟨h₁, h₂⟩, h₃⟩, h₄⟩ := other
      rw [substitute, if_neg (by simp), if_neg h₁, if_neg h₂, if_neg h₃, if_neg h₄]
      split_ifs with digit named
      · have uncaptured : captureOf Captures.none.count next rest.head? = none := captureOf_zero _ _
        rw [uncaptured]
      · exact absurd named.2 Bool.false_ne_true
      · rfl
    · exact substitute_plain _ isDollar

theorem replacementFrom_plain (matchStart matchEnd fuel : Nat) (is : plain repl = true) (enough : repl.length < fuel) :
    replacementFrom s matchStart matchEnd .none fuel repl = .ok repl := by
  induction fuel generalizing repl with
  | zero => omega
  | succ fuel ih =>
    cases repl with
    | nil => rfl
    | cons byte rest =>
      obtain ⟨first, others⟩ := substitute_none (s := s) matchStart matchEnd is
      rw [replacementFrom, first]
      simp [ih others (by simpa using enough), bind, Except.bind, pure, Except.pure]

theorem appendReplacement_plain (matchStart matchEnd : Nat) (out : Bytes) (is : plain repl = true) :
    appendReplacement s matchStart matchEnd .none out repl = .ok (out ++ repl) := by
  rw [appendReplacement, replacementFrom_plain _ _ _ is (Nat.lt_succ_self _)]
  rfl

/-- an index at which the part stands and before which it does not, or that it does not stand anywhere -/
theorem findFrom_first (nonempty : part ≠ []) {start : Nat} (within : start ≤ s.length) :
    match findFrom s part start with
    | none => ¬ part <:+: s.drop start
    | some i => ∀ j < i - start, ¬ part <+: (s.drop start).drop j := by
  have length := length_pos_of_ne_nil nonempty
  have isPart : ∀ j, part <+: s.drop j → j + part.length ≤ s.length ∧ ((s.drop j).take part.length == part) = true := by
    intro j stands
    have short := stands.length_le
    rw [length_drop] at short
    exact ⟨by omega, by rw [beq_iff_eq, ← prefix_iff_eq_take.1 stands]⟩
  have notEmpty : part.isEmpty = false := by simpa using nonempty
  rw [findFrom, if_neg (by omega), notEmpty, if_neg Bool.false_ne_true]
  split_ifs with short
  · intro stands
    have := stands.length_le
    rw [length_drop] at this
    omega
  split
  · next none_ =>
    rw [find?_range'_eq_none] at none_
    rintro ⟨before, after, is⟩
    have stands : part <+: s.drop (start + before.length) := by
      rw [← drop_drop, ← is, append_assoc, drop_left]
      exact prefix_append _ _
    obtain ⟨inside, equal⟩ := isPart _ stands
    have differs := none_ (start + before.length) (by omega) (by omega)
    simp [equal] at differs
  · next i found =>
    intro j before stands
    rw [drop_drop] at stands
    have earlier := (find?_range'_eq_some.1 found).2.2 (start + j) (by omega) (by omega)
    simp [(isPart _ stands).2] at earlier

theorem scan_from (nonempty : part ≠ []) (is : plain repl = true) (fuel start : Nat) (within : start ≤ s.length)
    (enough : s.length < fuel + start) :
    ∃ pieces, splitFrom s part fuel start = .ok pieces ∧ Scan part (s.drop start) pieces ∧
      ∀ out, replaceFrom s part repl fuel start out = .ok (out ++ repl.intercalate pieces) := by
  induction fuel generalizing start with
  | zero => omega
  | succ fuel ih =>
    have first := findFrom_first nonempty within
    simp only [splitFrom, replaceFrom]
    cases found : findFrom s part start with
    | none =>
      rw [found] at first
      refine ⟨_, rfl, .last first, fun out => ?_⟩
      rw [range_from within (Nat.le_refl _), intercalate_singleton, ← length_drop, take_length]
      rfl
    | some i =>
      rw [found] at first
      have length := length_pos_of_ne_nil nonempty
      obtain ⟨later, inside, -⟩ := findFrom_some found
      obtain ⟨pieces, split, scan, replaced⟩ := ih (i + part.length) inside (by omega)
      have piece : range s start i = .ok ((s.drop start).take (i - start)) := range_from later (by omega)
      refine ⟨(s.drop start).take (i - start) :: pieces, ?_, ?_, fun out => ?_⟩
      · simp [piece, split, bind, Except.bind, pure, Except.pure]
      · have cut := findFrom_cut found
        rw [cut] at first
        have scanned := Scan.piece (fun j before => first j (before.trans_le (length_take_le _ _))) scan
        rwa [← cut] at scanned
      · simp only [piece, bind, Except.bind, appendReplacement_plain _ _ _ is, replaced]
        rw [intercalate_cons_of_ne_nil scan.ne_nil]
        simp

/-- between, before and after the characters that begin at the bounds -/
theorem replaceBetween_plain (is : plain repl = true) (text before mid : List Char) (out : Bytes)
    (source : s = encode before ++ (encode mid ++ encode text)) :
    replaceBetween s repl (encode before).length (charBounds (encode (before ++ mid)).length text) out =
      .ok (out ++ (encode mid ++ repl) ++ text.flatMap fun c => String.utf8EncodeChar c ++ repl) := by
  induction text generalizing before mid out with
  | nil =>
    have piece : range s (encode before).length (encode (before ++ mid)).length = .ok (encode mid) :=
      range_eq source rfl (by simp)
    simp only [charBounds, replaceBetween, piece, bind, Except.bind, appendReplacement_plain _ _ _ is]
    simp
  | cons c text ih =>
    have piece : range s (encode before).length (encode (before ++ mid)).length = .ok (encode mid) :=
      range_eq source rfl (by simp)
    have next := ih (before ++ mid) [c] (out ++ (encode mid ++ repl)) (by simp [source])
    rw [encode_append (before ++ mid) [c], length_append, encode_cons, encode_nil, append_nil] at next
    simp only [charBounds, replaceBetween, piece, bind, Except.bind, appendReplacement_plain _ _ _ is, append_assoc]
    simpa using next

/-- `split` gives the pieces of the leftmost scan, and `replaceAll` puts a plain replacement between them. -/
theorem split_replaceAll (valid : Valid s) (is : plain repl = true) :
    (part ≠ [] → ∃ pieces, splitEach s part = .ok pieces ∧ Scan part s pieces ∧
      (∀ piece ∈ pieces, ¬ part <:+: piece) ∧ part.intercalate pieces = s ∧
        replaceAll s part repl = .ok (repl.intercalate pieces)) ∧
      ∃ text, encode text = s ∧ splitEach s [] = .ok (text.map String.utf8EncodeChar) ∧
        replaceAll s [] repl = .ok (repl ++ text.flatMap fun c => String.utf8EncodeChar c ++ repl) := by
  refine ⟨fun nonempty => ?_, ?_⟩
  · obtain ⟨pieces, split, scan, replaced⟩ := scan_from nonempty is (s.length + 1) 0 (Nat.zero_le _) (Nat.lt_succ_self _)
    rw [drop_zero] at scan
    have notEmpty : ¬ part.isEmpty = true := by simpa using nonempty
    refine ⟨pieces, ?_, scan, scan.not_within nonempty, scan.join, ?_⟩
    · rw [splitEach, if_neg notEmpty, split]
    · rw [replaceAll, if_neg notEmpty, replaced, nil_append]
  · obtain ⟨text, rfl⟩ := valid
    refine ⟨text, rfl, ?_, ?_⟩
    · simp only [splitEach, decode?_eq_some.2 rfl]
      rfl
    · have inserted := replaceBetween_plain is text [] [] [] (s := encode text) (by simp)
      simp only [replaceAll, decode?_eq_some.2 rfl]
      simpa using inserted

theorem split_replaceAll_overlapping :
    Valid (ascii "aaa") ∧ splitEach (ascii "aaa") (ascii "aa") = .ok [[], ascii "a"] ∧
      ∃ pieces, splitEach (ascii "aaa") (ascii "aa") = .ok pieces ∧ Scan (ascii "aa") (ascii "aaa") pieces ∧
        (∀ piece ∈ pieces, ¬ ascii "aa" <:+: piece) ∧ (ascii "aa").intercalate pieces = ascii "aaa" ∧
          replaceAll (ascii "aaa") (ascii "aa") (ascii "$1aa") = .ok ((ascii "$1aa").intercalate pieces) :=
  have valid : Valid (ascii "aaa") := ⟨['a', 'a', 'a'], by decide⟩
  ⟨valid, by decide, (split_replaceAll valid (by decide)).1 (by decide)⟩

end Subscript.Runtime.Str
