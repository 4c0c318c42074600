import Mathlib.Data.List.Basic

/-! What a C11 program text made of string literals denotes: trigraphs are replaced, lines are spliced,
comments are blanks, escape sequences are decoded and adjacent literals are one string (translation phases 1 to
6). Texts and strings are lists of bytes; the source and execution character sets are ASCII and UTF-8. -/

namespace Text.CString

open List

def quote : UInt8 := 34
def apostrophe : UInt8 := 39
def backslash : UInt8 := 92
def newline : UInt8 := 10
def question : UInt8 := 63

/-- the character that `??x` stands for -/
def trigraph (x : UInt8) : Option UInt8 :=
  if x = '='.toUInt8 then some '#'.toUInt8
  else if x = '/'.toUInt8 then some backslash
  else if x = apostrophe then some '^'.toUInt8
  else if x = '('.toUInt8 then some '['.toUInt8
  else if x = ')'.toUInt8 then some ']'.toUInt8
  else if x = '!'.toUInt8 then some '|'.toUInt8
  else if x = '<'.toUInt8 then some 123
  else if x = '>'.toUInt8 then some 125
  else if x = '-'.toUInt8 then some '~'.toUInt8
  else none

/-- phase 1 -/
def replaceTrigraphs : List UInt8 → List UInt8
  | [] => []
  | [a] => [a]
  | [a, b] => [a, b]
  | a :: b :: x :: rest =>
    match if a = question ∧ b = question then trigraph x else none with
    | some c => c :: replaceTrigraphs rest
    | none => a :: replaceTrigraphs (b :: x :: rest)

/-- phase 2 -/
def spliceLines : List UInt8 → List UInt8
  | [] => []
  | [a] => [a]
  | a :: b :: rest =>
    if a = backslash ∧ b = newline then spliceLines rest else a :: spliceLines (b :: rest)

/-- where the reader stands: between literals, in a comment, in a literal, in an escape sequence -/
inductive Mode where
  | outside
  | slash
  | lineComment
  | blockComment
  | blockStar
  | inside
  | escape
  -- one or two digits were read
  | octal (digits value : Nat)
  -- the value of the digits, if there was one
  | hex (value : Option Nat)
  -- the digits of a universal character name still to come
  | universal (left value : Nat)
  deriving DecidableEq

def isBlank (c : UInt8) : Bool := c = ' '.toUInt8 || c = newline || c = 9 || (11 ≤ c && c ≤ 13)

def octalDigit (c : UInt8) : Option Nat := if 48 ≤ c ∧ c ≤ 55 then some (c.toNat - 48) else none

def hexDigit (c : UInt8) : Option Nat :=
  if 48 ≤ c ∧ c ≤ 57 then some (c.toNat - 48)
  else if 65 ≤ c ∧ c ≤ 70 then some (c.toNat - 55)
  else if 97 ≤ c ∧ c ≤ 102 then some (c.toNat - 87)
  else none

/-- the simple escape sequences -/
def simpleEscape (c : UInt8) : Option UInt8 :=
  if c = apostrophe ∨ c = quote ∨ c = question ∨ c = backslash then some c
  else if c = 'a'.toUInt8 then some 7
  else if c = 'b'.toUInt8 then some 8
  else if c = 'f'.toUInt8 then some 12
  else if c = 'n'.toUInt8 then some 10
  else if c = 'r'.toUInt8 then some 13
  else if c = 't'.toUInt8 then some 9
  else if c = 'v'.toUInt8 then some 11
  else none

/-- the byte of a numeric escape sequence, which has to fit -/
def numeric (value : Nat) : Option (List UInt8) := if value < 256 then some [UInt8.ofNat value] else none

/-- the UTF-8 bytes of a universal character name; those of the basic characters are not allowed -/
def universalBytes (v : Nat) : Option (List UInt8) :=
  if v < 0xA0 ∧ v ≠ 0x24 ∧ v ≠ 0x40 ∧ v ≠ 0x60 then none
  else if 0xD800 ≤ v ∧ v ≤ 0xDFFF then none
  else if v < 0x80 then some [UInt8.ofNat v]
  else if v < 0x800 then some [UInt8.ofNat (0xC0 + v / 64), UInt8.ofNat (0x80 + v % 64)]
  else if v < 0x10000 then
    some [UInt8.ofNat (0xE0 + v / 4096), UInt8.ofNat (0x80 + v / 64 % 64), UInt8.ofNat (0x80 + v % 64)]
  else if v < 0x110000 then
    some [UInt8.ofNat (0xF0 + v / 262144), UInt8.ofNat (0x80 + v / 4096 % 64), UInt8.ofNat (0x80 + v / 64 % 64),
      UInt8.ofNat (0x80 + v % 64)]
  else none

def stepInside (c : UInt8) : Option (List UInt8 × Mode) :=
  if c = quote then some ([], .outside)
  else if c = backslash then some ([], .escape)
  else if c = newline then none
  else some ([c], .inside)

def stepEscape (c : UInt8) : Option (List UInt8 × Mode) :=
  match simpleEscape c, octalDigit c with
  | some b, _ => some ([b], .inside)
  | none, some d => some ([], .octal 1 d)
  | none, none =>
    if c = 'x'.toUInt8 then some ([], .hex none)
    else if c = 'u'.toUInt8 then some ([], .universal 4 0)
    else if c = 'U'.toUInt8 then some ([], .universal 8 0)
    else none

/-- a numeric escape sequence ends before `c` -/
def endNumeric (value : Nat) (c : UInt8) : Option (List UInt8 × Mode) := do
  let b ← numeric value
  let (out, mode) ← stepInside c
  pure (b ++ out, mode)

/-- what one character does -/
def step : Mode → UInt8 → Option (List UInt8 × Mode)
  | .outside, c =>
    if c = quote then some ([], .inside)
    else if isBlank c then some ([], .outside)
    else if c = '/'.toUInt8 then some ([], .slash)
    else none
  | .slash, c =>
    if c = '/'.toUInt8 then some ([], .lineComment)
    else if c = '*'.toUInt8 then some ([], .blockComment)
    else none
  | .lineComment, c => if c = newline then some ([], .outside) else some ([], .lineComment)
  | .blockComment, c => if c = '*'.toUInt8 then some ([], .blockStar) else some ([], .blockComment)
  | .blockStar, c =>
    if c = '/'.toUInt8 then some ([], .outside)
    else if c = '*'.toUInt8 then some ([], .blockStar)
    else some ([], .blockComment)
  | .inside, c => stepInside c
  | .escape, c => stepEscape c
  | .octal digits value, c =>
    match octalDigit c with
    | some d =>
      if digits < 2 then some ([], .octal (digits + 1) (value * 8 + d))
      else (numeric (value * 8 + d)).map (·, .inside)
    | none => endNumeric value c
  | .hex value, c =>
    match hexDigit c, value with
    | some d, value => some ([], .hex (some (value.getD 0 * 16 + d)))
    | none, some v => endNumeric v c
    | none, none => none
  | .universal left value, c =>
    match hexDigit c with
    | some d =>
      if 1 < left then some ([], .universal (left - 1) (value * 16 + d))
      else (universalBytes (value * 16 + d)).map (·, .inside)
    | none => none

/-- the bytes of the literals, and where the text ends -/
def run : Mode → List UInt8 → Option (List UInt8 × Mode)
  | mode, [] => some ([], mode)
  | mode, c :: cs => do
    let (out, mode) ← step mode c
    let (rest, mode) ← run mode cs
    pure (out ++ rest, mode)

/-- a text may end between literals and in a comment to the end of its line -/
def Mode.final : Mode → Bool
  | .outside => true
  | .lineComment => true
  | _ => false

/-- phases 3 to 6 -/
def decode (mode : Mode) (text : List UInt8) : Option (List UInt8) :=
  match run mode text with
  | some (out, mode) => if mode.final then some out else none
  | none => none

/-- the string that the text denotes -/
def denotes (text : List UInt8) : Option (List UInt8) :=
  decode .outside (spliceLines (replaceTrigraphs text))

section Phases

variable {a b : UInt8} {l l' : List UInt8}

theorem replaceTrigraphs_cons (h : a ≠ question) : replaceTrigraphs (a :: l) = a :: replaceTrigraphs l := by
  match l with
  | [] => rfl
  | [_] => rfl
  | _ :: _ :: _ => simp [replaceTrigraphs, h]

theorem replaceTrigraphs_append (h : question ∉ l) : replaceTrigraphs (l ++ l') = l ++ replaceTrigraphs l' := by
  induction l with
  | nil => rfl
  | cons a l ih =>
    have hne : a ≠ question := fun heq => h (heq ▸ mem_cons_self)
    rw [cons_append, replaceTrigraphs_cons hne, ih fun hmem => h (mem_cons_of_mem _ hmem), cons_append]

/-- a question mark that starts no trigraph -/
theorem replaceTrigraphs_question (h : ∀ x rest, l = question :: x :: rest → trigraph x = none) :
    replaceTrigraphs (question :: l) = question :: replaceTrigraphs l := by
  match l with
  | [] => rfl
  | [_] => rfl
  | b :: x :: rest =>
    by_cases hb : b = question
    · subst hb
      simp [replaceTrigraphs, h x rest rfl]
    · simp [replaceTrigraphs, hb]

theorem replaceTrigraphs_trigraph {x c : UInt8} (h : trigraph x = some c) :
    replaceTrigraphs (question :: question :: x :: l) = c :: replaceTrigraphs l := by
  simp [replaceTrigraphs, h]

theorem spliceLines_cons (h : a ≠ backslash ∨ l.head? ≠ some newline) : spliceLines (a :: l) = a :: spliceLines l := by
  match l with
  | [] => rfl
  | b :: rest =>
    have hne : ¬ (a = backslash ∧ b = newline) := by
      rintro ⟨rfl, rfl⟩
      rcases h with h | h <;> exact h rfl
    simp [spliceLines, hne]

theorem spliceLines_append (hl : newline ∉ l) (hl' : l'.head? ≠ some newline) :
    spliceLines (l ++ l') = l ++ spliceLines l' := by
  induction l with
  | nil => rfl
  | cons a l ih =>
    have hrest : newline ∉ l := fun hmem => hl (mem_cons_of_mem _ hmem)
    have hhead : (l ++ l').head? ≠ some newline := by
      cases l with
      | nil => exact hl'
      | cons b l =>
        intro heq
        exact hrest (Option.some.inj heq ▸ mem_cons_self)
    rw [cons_append, spliceLines_cons (.inr hhead), ih hrest, cons_append]

end Phases

variable {mode mode' : Mode} {a b out : List UInt8} {c : UInt8}

theorem run_cons : run mode (c :: a) = some (out, mode') ↔
    ∃ o mode₁ rest, step mode c = some (o, mode₁) ∧ run mode₁ a = some (rest, mode') ∧ out = o ++ rest := by
  simp only [run, Option.bind_eq_bind, Option.bind_eq_some_iff, Option.pure_def, Option.some.injEq, Prod.mk.injEq]
  constructor
  · rintro ⟨⟨o, mode₁⟩, hstep, ⟨rest, mode₂⟩, hrun, rfl, rfl⟩
    exact ⟨o, mode₁, rest, hstep, hrun, rfl⟩
  · rintro ⟨o, mode₁, rest, hstep, hrun, rfl⟩
    exact ⟨(o, mode₁), hstep, (rest, mode'), hrun, rfl, rfl⟩

theorem run_append : run mode (a ++ b) = some (out, mode') ↔
    ∃ o mode₁ rest, run mode a = some (o, mode₁) ∧ run mode₁ b = some (rest, mode') ∧ out = o ++ rest := by
  induction a generalizing mode out with
  | nil => simp [run]
  | cons c a ih =>
    simp only [cons_append, run_cons, ih]
    constructor
    · rintro ⟨o, mode₁, _, hstep, ⟨o', mode₂, rest, ha, hb, rfl⟩, rfl⟩
      exact ⟨o ++ o', mode₂, rest, ⟨o, mode₁, o', hstep, ha, rfl⟩, hb, (append_assoc _ _ _).symm⟩
    · rintro ⟨_, mode₂, rest, ⟨o, mode₁, o', hstep, ha, rfl⟩, hb, rfl⟩
      exact ⟨o, mode₁, o' ++ rest, hstep, ⟨o', mode₂, rest, ha, hb, rfl⟩, append_assoc _ _ _⟩

theorem decode_eq_some : decode mode a = some out ↔ ∃ mode', run mode a = some (out, mode') ∧ mode'.final = true := by
  unfold decode
  split
  · next o mode₁ hrun =>
    split
    · next hfinal => grind
    · next hfinal => grind
  · next hrun => simp [hrun]

theorem decode_append : decode mode (a ++ b) = some out ↔
    ∃ o mode₁ rest, run mode a = some (o, mode₁) ∧ decode mode₁ b = some rest ∧ out = o ++ rest := by
  simp only [decode_eq_some, run_append]
  constructor
  · rintro ⟨mode', ⟨o, mode₁, rest, ha, hb, rfl⟩, hfinal⟩
    exact ⟨o, mode₁, rest, ha, ⟨mode', hb, hfinal⟩, rfl⟩
  · rintro ⟨o, mode₁, rest, ha, ⟨mode', hb, hfinal⟩, rfl⟩
    exact ⟨mode', ⟨o, mode₁, rest, ha, hb, rfl⟩, hfinal⟩

theorem decode_cons : decode mode (c :: a) = some out ↔
    ∃ o mode₁ rest, step mode c = some (o, mode₁) ∧ decode mode₁ a = some rest ∧ out = o ++ rest := by
  have hrun : run mode [c] = step mode c := by
    cases h : step mode c <;> simp [run, h]
  rw [← singleton_append, decode_append, hrun]

/-- a quote between literals opens the next one -/
theorem decode_quote (l : List UInt8) : decode .outside (quote :: l) = decode .inside l := by
  have hstep : step .outside quote = some ([], .inside) := rfl
  simp only [decode, run, hstep, Option.bind_eq_bind, Option.bind_some, nil_append]
  cases run .inside l <;> rfl

/-- how many bytes more than characters a reader can still give, if no backslash comes -/
def Mode.slack : Mode → Nat
  | .escape => 3
  | .octal _ _ => 1
  | .hex _ => 1
  | .universal _ _ => 3
  | _ => 0

theorem length_of_numeric {value : Nat} {out : List UInt8} (h : numeric value = some out) : out.length = 1 := by
  rw [numeric] at h
  split at h
  · rw [← Option.some.inj h]
    rfl
  · cases h

/-- an escape sequence that a plain character starts gives no byte more than it has slack -/
theorem stepEscape_slack (h : stepEscape c = some (out, mode')) : out.length + mode'.slack ≤ 3 := by
  unfold stepEscape at h
  split at h
  · cases h
    simp [Mode.slack]
  · cases h
    simp [Mode.slack]
  · split_ifs at h <;> cases h <;> simp [Mode.slack]

theorem length_of_universalBytes {v : Nat} (h : universalBytes v = some out) : out.length ≤ 4 := by
  unfold universalBytes at h
  split_ifs at h <;> cases h <;> simp

theorem stepInside_slack (hc : c ≠ backslash) (h : stepInside c = some (out, mode')) :
    out.length + mode'.slack ≤ 1 := by
  unfold stepInside at h
  split_ifs at h <;> cases h <;> simp [Mode.slack]

theorem endNumeric_slack {value : Nat} (hc : c ≠ backslash) (h : endNumeric value c = some (out, mode')) :
    out.length + mode'.slack ≤ 2 := by
  simp only [endNumeric, Option.bind_eq_bind, Option.bind_eq_some_iff, Option.pure_def, Option.some.injEq,
    Prod.mk.injEq] at h
  obtain ⟨b, hb, ⟨o, mode₁⟩, hstep, rfl, rfl⟩ := h
  have hlen := length_of_numeric hb
  have hslack := stepInside_slack hc hstep
  simp only [length_append]
  omega

/-- a character other than a backslash gives one byte at most, if the slack is counted -/
theorem step_slack (hc : c ≠ backslash) (h : step mode c = some (out, mode')) :
    out.length + mode'.slack ≤ mode.slack + 1 := by
  cases mode with
  | inside => exact stepInside_slack hc h
  | escape =>
    have := stepEscape_slack h
    simp only [Mode.slack] at this ⊢
    omega
  | octal digits value =>
    simp only [step] at h
    split at h
    · split at h
      · cases h
        simp [Mode.slack]
      · simp only [Option.map_eq_some_iff, Prod.mk.injEq] at h
        obtain ⟨b, hb, rfl, rfl⟩ := h
        simp [length_of_numeric hb, Mode.slack]
    · exact endNumeric_slack hc h
  | hex value =>
    simp only [step] at h
    split at h
    · cases h
      simp [Mode.slack]
    · exact endNumeric_slack hc h
    · cases h
  | universal left value =>
    simp only [step] at h
    split at h
    · split at h
      · cases h
        simp [Mode.slack]
      · simp only [Option.map_eq_some_iff, Prod.mk.injEq] at h
        obtain ⟨b, hb, rfl, rfl⟩ := h
        simpa [Mode.slack] using length_of_universalBytes hb
    · cases h
  | outside => simp only [step] at h; grind [Mode.slack]
  | slash => simp only [step] at h; grind [Mode.slack]
  | lineComment => simp only [step] at h; grind [Mode.slack]
  | blockComment => simp only [step] at h; grind [Mode.slack]
  | blockStar => simp only [step] at h; grind [Mode.slack]

/-- a character that ends a number gives its byte -/
theorem endNumeric_of_stepInside {v : Nat} (hstep : stepInside c = some ([], mode)) (h : endNumeric v c = some (out, mode')) :
    mode' = mode ∧ out.length = 1 := by
  simp only [endNumeric, hstep, Option.bind_eq_bind, Option.bind_eq_some_iff, Option.pure_def, Option.some.injEq,
    Prod.mk.injEq] at h
  obtain ⟨b, hb, _, ⟨rfl, rfl⟩, rfl, rfl⟩ := h
  simpa using length_of_numeric hb

theorem stepInside_backslash : stepInside backslash = some ([], .escape) := by decide

/-- a backslash starts an escape sequence, is the second one of a pair, or is part of a comment -/
theorem step_backslash (h : step mode backslash = some (out, mode')) :
    mode' = .escape ∧ out.length = mode.slack ∧ mode.slack ≤ 1 ∨
      mode = .escape ∧ out = [backslash] ∧ mode' = .inside ∨
      mode = .lineComment ∨ mode = .blockComment ∨ mode = .blockStar := by
  cases mode with
  | inside =>
    cases h
    exact .inl ⟨rfl, rfl, by simp [Mode.slack]⟩
  | escape =>
    cases h
    exact .inr (.inl ⟨rfl, rfl, rfl⟩)
  | octal digits value =>
    obtain ⟨hmode, hlen⟩ := endNumeric_of_stepInside stepInside_backslash h
    exact .inl ⟨hmode, hlen, Nat.le_refl _⟩
  | hex value =>
    cases value with
    | none => cases h
    | some v =>
      obtain ⟨hmode, hlen⟩ := endNumeric_of_stepInside stepInside_backslash h
      exact .inl ⟨hmode, hlen, Nat.le_refl _⟩
  | universal left value => cases h
  | outside => cases h
  | slash => cases h
  | lineComment => exact .inr (.inr (.inl rfl))
  | blockComment => exact .inr (.inr (.inr (.inl rfl)))
  | blockStar => exact .inr (.inr (.inr (.inr rfl)))

theorem step_slack_three (h : step mode c = some (out, mode')) : out.length + mode'.slack ≤ mode.slack + 3 := by
  by_cases hc : c = backslash
  · subst hc
    obtain ⟨rfl, hlen, -⟩ | ⟨rfl, rfl, rfl⟩ | rfl | rfl | rfl := step_backslash h
    · simp [hlen, Mode.slack]
    · simp [Mode.slack]
    all_goals
      cases h
      simp [Mode.slack]
  · have := step_slack hc h
    omega

/-- a quote closes a literal, opens one or is escaped, or is part of a comment -/
theorem step_quote (h : step mode quote = some (out, mode')) :
    mode' = .outside ∧ out.length = mode.slack ∨ mode' = .inside ∨
      out = [] ∧ (mode' = .lineComment ∨ mode' = .blockComment) := by
  have hquote : stepInside quote = some ([], .outside) := by decide
  cases mode with
  | inside =>
    cases h
    exact .inl ⟨rfl, rfl⟩
  | octal digits value => exact .inl (endNumeric_of_stepInside hquote h)
  | hex value =>
    cases value with
    | none => cases h
    | some v => exact .inl (endNumeric_of_stepInside hquote h)
  | universal left value => cases h
  | outside =>
    cases h
    exact .inr (.inl rfl)
  | escape =>
    cases h
    exact .inr (.inl rfl)
  | slash => cases h
  | lineComment =>
    cases h
    exact .inr (.inr ⟨rfl, .inl rfl⟩)
  | blockComment =>
    cases h
    exact .inr (.inr ⟨rfl, .inr rfl⟩)
  | blockStar =>
    cases h
    exact .inr (.inr ⟨rfl, .inr rfl⟩)

end Text.CString
