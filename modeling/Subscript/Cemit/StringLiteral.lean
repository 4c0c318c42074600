import Subscript.Text.CString
import Subscript.Text.Utf8

/-! The C string literals of the ship emitter (`c_string_literal` of `cemit.rs`), read as C11 reads them. -/

namespace Subscript.Cemit

open List Text.CString
open Text.Utf8 (forall_byte)

/-- the text of one byte -/
def literalByte (byte : UInt8) : List UInt8 :=
  if byte = quote then [backslash, quote]
  else if byte = backslash then [backslash, backslash]
  else if 0x20 ≤ byte ∧ byte ≤ 0x7e then [byte]
  else [backslash, 48 + byte / 64, 48 + byte / 8 % 8, 48 + byte % 8]

/-- a literal is closed and a new one opened every 4000 bytes -/
def literalBreak (index : Nat) : List UInt8 :=
  if index ≠ 0 ∧ index % 4000 = 0 then [quote, newline, quote] else []

/-- the text from the byte with the index on -/
def literalFrom : Nat → List UInt8 → List UInt8
  | _, [] => [quote]
  | index, byte :: bytes => literalBreak index ++ (literalByte byte ++ literalFrom (index + 1) bytes)

def cStringLiteral (bytes : List UInt8) : List UInt8 := quote :: literalFrom 0 bytes

/-- `??x` at the position, for an `x` that makes it a trigraph, without a break of the literal inside of it -/
def TrigraphAt (index : Nat) (bytes : List UInt8) (p : Nat) : Prop :=
  bytes[p]? = some question ∧ bytes[p + 1]? = some question ∧ (∃ x, bytes[p + 2]? = some x ∧ (trigraph x).isSome) ∧
    (index + p + 1) % 4000 ≠ 0 ∧ (index + p + 2) % 4000 ≠ 0

section Bytes

/-- what is needed of the text of a byte; the last part counts the slack in the modes without data -/
theorem literalByte_table : ∀ b, (b ≠ question → question ∉ literalByte b) ∧ newline ∉ literalByte b ∧
    run .inside (literalByte b) = some ([b], .inside) ∧
    [Mode.lineComment, .blockComment, .blockStar, .escape].all fun mode =>
      (run mode (literalByte b)).all fun r => r.1.length + r.2.slack ≤ mode.slack + 1 :=
  forall_byte (by decide +kernel)

/-- what is needed of the bytes that end a trigraph -/
theorem trigraph_table : ∀ x : UInt8, (trigraph x).all fun c => (literalByte x = [x] ∧ x ≠ quote ∧ x ≠ backslash) ∧
    (c ≠ quote ∧ c ≠ newline ∧ c ≠ question) ∧ (c = backslash ∨ stepEscape c = none) :=
  forall_byte (by decide +kernel)

theorem literalByte_question : literalByte question = [question] := by decide

theorem newline_not_mem_literalByte (b : UInt8) : newline ∉ literalByte b := (literalByte_table b).2.1

/-- inside of a literal the text of a byte denotes the byte -/
theorem run_literalByte (b : UInt8) : run .inside (literalByte b) = some ([b], .inside) := (literalByte_table b).2.2.1

theorem trigraph_spec {x c : UInt8} (mem : c ∈ trigraph x) : (literalByte x = [x] ∧ x ≠ quote ∧ x ≠ backslash) ∧
    (c ≠ quote ∧ c ≠ newline ∧ c ≠ question) ∧ (c = backslash ∨ stepEscape c = none) := by
  have h := trigraph_table x
  rw [Option.mem_def.1 mem] at h
  exact of_decide_eq_true h

theorem literalByte_of_trigraph (x : UInt8) (some : (trigraph x).isSome) : literalByte x = [x] := by
  obtain ⟨c, mem⟩ := Option.isSome_iff_exists.1 some
  exact (trigraph_spec mem).1.1

/-- a byte is written as itself or with a backslash -/
theorem literalByte_cases (b : UInt8) :
    literalByte b = [b] ∧ b ≠ backslash ∨ ∃ rest, literalByte b = backslash :: rest := by
  unfold literalByte
  split_ifs with hquote hbackslash hplain
  · exact .inr ⟨_, rfl⟩
  · exact .inr ⟨_, rfl⟩
  · exact .inl ⟨rfl, hbackslash⟩
  · exact .inr ⟨_, rfl⟩

theorem literalByte_slack {mode mode' : Mode} {b : UInt8} {out : List UInt8}
    (h : run mode (literalByte b) = some (out, mode')) : out.length + mode'.slack ≤ mode.slack + 1 := by
  obtain ⟨hplain, hb⟩ | ⟨rest, hrest⟩ := literalByte_cases b
  · rw [hplain] at h
    obtain ⟨o, mode₁, _, hstep, hnil, rfl⟩ := run_cons.mp h
    cases hnil
    rw [append_nil]
    exact step_slack hb hstep
  · have hdecided : ∀ m ∈ [Mode.lineComment, .blockComment, .blockStar, .escape], mode = m →
        out.length + mode'.slack ≤ mode.slack + 1 := by
      rintro m hm rfl
      have hall := all_eq_true.mp (literalByte_table b).2.2.2 mode hm
      simpa [h] using hall
    rw [hrest] at h
    obtain ⟨o, mode₁, o', hstep, hrun, rfl⟩ := run_cons.mp h
    obtain ⟨rfl, hlen, -⟩ | ⟨hmode, -, -⟩ | hmode | hmode | hmode := step_backslash hstep
    · -- an escape sequence starts here, as it does inside of a literal
      have hinside := run_literalByte b
      rw [hrest] at hinside
      obtain ⟨_, _, o₂, hstart, hescape, hout⟩ := run_cons.mp hinside
      cases hstart
      rw [hescape] at hrun
      cases hrun
      rw [nil_append] at hout
      simp [← hout, hlen, Mode.slack]
    · exact hdecided _ (by simp) hmode
    · exact hdecided _ (by simp) hmode
    · exact hdecided _ (by simp) hmode
    · exact hdecided _ (by simp) hmode

theorem literalBreak_slack {mode mode' : Mode} {index : Nat} {out : List UInt8}
    (h : run mode (literalBreak index) = some (out, mode')) : out.length + mode'.slack ≤ mode.slack := by
  unfold literalBreak at h
  split_ifs at h
  · obtain ⟨o, mode₁, o', hstep, hrun, rfl⟩ := run_cons.mp h
    obtain ⟨rfl, hlen⟩ | rfl | ⟨rfl, rfl | rfl⟩ := step_quote hstep
    · cases hrun
      simp [hlen, Mode.slack]
    · cases hrun
    · cases hrun
      simp [Mode.slack]
    · cases hrun
      simp [Mode.slack]
  · cases h
    simp

theorem run_literalBreak (index : Nat) : run .inside (literalBreak index) = some ([], .inside) := by
  unfold literalBreak
  split_ifs
  · decide
  · rfl

end Bytes

section Translated

/-- the text after the first two phases -/
def translated (index : Nat) (bytes : List UInt8) : List UInt8 :=
  spliceLines (replaceTrigraphs (literalFrom index bytes))

variable {index : Nat} {b : UInt8} {bytes : List UInt8}

theorem question_not_mem_literalBreak (index : Nat) : question ∉ literalBreak index := by
  unfold literalBreak
  split_ifs <;> decide

theorem literalBreak_eq_nil : literalBreak (index + 1) = [] ↔ (index + 1) % 4000 ≠ 0 := by
  simp [literalBreak]

/-- a text that starts with neither a quote nor a backslash starts with a byte written as itself -/
theorem literalFrom_eq_cons {c : UInt8} {rest : List UInt8} (h : literalFrom index bytes = c :: rest)
    (hquote : c ≠ quote) (hbackslash : c ≠ backslash) :
    ∃ bytes', bytes = c :: bytes' ∧ literalBreak index = [] ∧ rest = literalFrom (index + 1) bytes' := by
  cases bytes with
  | nil =>
    cases h
    exact absurd rfl hquote
  | cons b bytes =>
    have hbreak : literalBreak index = [] := by
      by_contra hne
      have : literalBreak index = [quote, newline, quote] := by
        unfold literalBreak at hne ⊢
        split_ifs at hne ⊢
        · rfl
        · exact absurd rfl hne
      rw [literalFrom, this] at h
      exact hquote (cons.inj h).1.symm
    rw [literalFrom, hbreak, nil_append] at h
    obtain ⟨hplain, -⟩ | ⟨_, hescaped⟩ := literalByte_cases b
    · rw [hplain] at h
      obtain ⟨rfl, rfl⟩ := cons.inj h
      exact ⟨bytes, rfl, hbreak, rfl⟩
    · rw [hescaped] at h
      exact absurd (cons.inj h).1.symm hbackslash

theorem literalFrom_plain {x : UInt8} (hbreak : literalBreak index = []) (hx : literalByte x = [x]) :
    literalFrom index (x :: bytes) = x :: literalFrom (index + 1) bytes := by
  rw [literalFrom, hbreak, hx]
  rfl

theorem trigraph_ne (x : UInt8) (some : (trigraph x).isSome) : x ≠ quote ∧ x ≠ backslash := by
  obtain ⟨c, mem⟩ := Option.isSome_iff_exists.1 some
  exact (trigraph_spec mem).1.2

/-- the text of the bytes starts with two question marks and `x`, and no line break falls between them -/
def Opens (index : Nat) (bytes : List UInt8) (x : UInt8) (rest : List UInt8) : Prop :=
  bytes = question :: question :: x :: rest ∧ literalBreak (index + 1) = [] ∧ literalBreak (index + 2) = []

/-- either a trigraph starts with the byte, or the text of the byte stays as it is -/
theorem replaceTrigraphs_literalFrom (index : Nat) (b : UInt8) (bytes : List UInt8) :
    (∃ x c rest, Opens index (b :: bytes) x rest ∧ trigraph x = some c ∧
      replaceTrigraphs (literalFrom index (b :: bytes)) =
        literalBreak index ++ (c :: replaceTrigraphs (literalFrom (index + 3) rest))) ∨
    (¬ ∃ x rest, Opens index (b :: bytes) x rest ∧ (trigraph x).isSome) ∧
      replaceTrigraphs (literalFrom index (b :: bytes)) =
        literalBreak index ++ (literalByte b ++ replaceTrigraphs (literalFrom (index + 1) bytes)) := by
  rw [literalFrom, replaceTrigraphs_append (question_not_mem_literalBreak index)]
  by_cases hb : b = question
  · subst hb
    rw [literalByte_question, singleton_append]
    by_cases htrigraph : ∃ x rest, Opens index (question :: bytes) x rest ∧ (trigraph x).isSome
    · obtain ⟨x, rest, ⟨heq, hbreak₁, hbreak₂⟩, hx⟩ := htrigraph
      obtain rfl := (cons.inj heq).2
      obtain ⟨c, hc⟩ := Option.isSome_iff_exists.mp hx
      refine .inl ⟨x, c, rest, ⟨rfl, hbreak₁, hbreak₂⟩, hc, ?_⟩
      rw [literalFrom_plain hbreak₁ literalByte_question, literalFrom_plain hbreak₂ (literalByte_of_trigraph x hx),
        replaceTrigraphs_trigraph hc]
    · refine .inr ⟨htrigraph, ?_⟩
      rw [replaceTrigraphs_question, singleton_append]
      intro x rest heq
      by_contra hx
      have hx : (trigraph x).isSome := Option.isSome_iff_ne_none.mpr hx
      obtain ⟨bytes₁, rfl, hbreak₁, heq₁⟩ := literalFrom_eq_cons heq (by decide) (by decide)
      obtain ⟨bytes₂, rfl, hbreak₂, -⟩ := literalFrom_eq_cons heq₁.symm (trigraph_ne x hx).1 (trigraph_ne x hx).2
      exact htrigraph ⟨x, bytes₂, ⟨rfl, hbreak₁, hbreak₂⟩, hx⟩
  · refine .inr ⟨?_, by rw [replaceTrigraphs_append ((literalByte_table b).1 hb)]⟩
    rintro ⟨x, rest, ⟨heq, -⟩, -⟩
    exact hb (cons.inj heq).1

theorem trigraph_value (x c : UInt8) (mem : c ∈ trigraph x) : c ≠ quote ∧ c ≠ newline ∧ c ≠ question :=
  (trigraph_spec mem).2.1

theorem literalByte_ne_nil (b : UInt8) : literalByte b ≠ [] := by
  obtain ⟨h, -⟩ | ⟨rest, h⟩ := literalByte_cases b <;> rw [h] <;> exact cons_ne_nil _ _

theorem head_append_ne {l l' : List UInt8} (hl : l.head? ≠ some newline) (hl' : l'.head? ≠ some newline) :
    (l ++ l').head? ≠ some newline := by
  cases l with
  | nil => exact hl'
  | cons c l => exact hl

theorem head_literalBreak (index : Nat) : (literalBreak index).head? ≠ some newline := by
  unfold literalBreak
  split_ifs <;> decide

theorem head_literalByte (b : UInt8) : (literalByte b).head? ≠ some newline := by
  intro h
  exact newline_not_mem_literalByte b (mem_of_mem_head? h)

theorem head_replaceTrigraphs (index : Nat) (bytes : List UInt8) :
    (replaceTrigraphs (literalFrom index bytes)).head? ≠ some newline := by
  cases bytes with
  | nil => exact (by decide : [quote].head? ≠ some newline)
  | cons b bytes =>
    obtain ⟨x, c, rest, -, hx, h⟩ | ⟨-, h⟩ := replaceTrigraphs_literalFrom index b bytes
    · rw [h]
      apply head_append_ne (head_literalBreak index)
      intro hc
      exact (trigraph_value x c hx).2.1 (Option.some.inj hc)
    · rw [h]
      apply head_append_ne (head_literalBreak index)
      cases hb : literalByte b with
      | nil => exact absurd hb (literalByte_ne_nil b)
      | cons c _ =>
        have := head_literalByte b
        rwa [hb] at this

theorem spliceLines_literalBreak (index : Nat) (l : List UInt8) :
    spliceLines (literalBreak index ++ l) = literalBreak index ++ spliceLines l := by
  unfold literalBreak
  split_ifs
  · have hquote : quote ≠ backslash := by decide
    have hnewline : newline ≠ backslash := by decide
    rw [cons_append, spliceLines_cons (.inl hquote), cons_append, spliceLines_cons (.inl hnewline),
      cons_append, spliceLines_cons (.inl hquote)]
    rfl
  · rfl

/-- the translated text, byte by byte or by a trigraph -/
theorem translated_cons (index : Nat) (b : UInt8) (bytes : List UInt8) :
    (∃ x c rest, Opens index (b :: bytes) x rest ∧ trigraph x = some c ∧
      translated index (b :: bytes) = literalBreak index ++ (c :: translated (index + 3) rest)) ∨
    (¬ ∃ x rest, Opens index (b :: bytes) x rest ∧ (trigraph x).isSome) ∧
      translated index (b :: bytes) = literalBreak index ++ (literalByte b ++ translated (index + 1) bytes) := by
  obtain ⟨x, c, rest, hopens, hx, h⟩ | ⟨hno, h⟩ := replaceTrigraphs_literalFrom index b bytes
  · refine .inl ⟨x, c, rest, hopens, hx, ?_⟩
    rw [translated, h, spliceLines_literalBreak, spliceLines_cons (.inr (head_replaceTrigraphs _ _)), translated]
  · refine .inr ⟨hno, ?_⟩
    rw [translated, h, spliceLines_literalBreak,
      spliceLines_append (newline_not_mem_literalByte b) (head_replaceTrigraphs _ _), translated]

end Translated

section Denotes

variable {index : Nat} {bytes out : List UInt8} {mode : Mode}

/-- no text denotes more bytes than it was written for -/
theorem length_decode {n : Nat} (hn : bytes.length = n) (h : decode mode (translated index bytes) = some out) :
    out.length ≤ bytes.length + mode.slack := by
  -- a trigraph takes three bytes at once
  induction n using Nat.strongRecOn generalizing bytes index mode out with
  | ind n ih =>
    cases bytes with
    | nil =>
      obtain ⟨mode', hrun, hfinal⟩ := decode_eq_some.mp h
      obtain ⟨o, mode₁, _, hstep, hnil, rfl⟩ := run_cons.mp hrun
      cases hnil
      obtain ⟨-, hlen⟩ | rfl | ⟨rfl, -⟩ := step_quote hstep
      · simp [hlen]
      · cases hfinal
      · simp
    | cons b bytes =>
      obtain ⟨x, c, rest, ⟨heq, -⟩, hx, htext⟩ | ⟨-, htext⟩ := translated_cons index b bytes
      · rw [htext] at h
        obtain ⟨o₁, mode₁, rest₁, hbreak, hrest, rfl⟩ := decode_append.mp h
        obtain ⟨o₂, mode₂, rest₂, hc, hdecode, rfl⟩ := decode_cons.mp hrest
        have hlen : bytes.length = rest.length + 2 := by simpa using congrArg List.length heq
        have h₁ := literalBreak_slack hbreak
        have h₂ := step_slack_three hc
        have h₃ := ih rest.length (by simp at hn; omega) rfl hdecode
        simp only [length_append, length_cons]
        omega
      · rw [htext] at h
        obtain ⟨o₁, mode₁, rest₁, hbreak, hrest, rfl⟩ := decode_append.mp h
        obtain ⟨o₂, mode₂, rest₂, hbyte, hdecode, rfl⟩ := decode_append.mp hrest
        have h₁ := literalBreak_slack hbreak
        have h₂ := literalByte_slack hbyte
        have h₃ := ih bytes.length (by simp at hn; omega) rfl hdecode
        simp only [length_append, length_cons]
        omega

/-- after a backslash that the bytes do not have, a text of full length starts with a backslash -/
theorem decode_escape (h : decode .escape (translated index bytes) = some out) (hlen : out.length = bytes.length + 3) :
    out.head? = some backslash := by
  have hbreak : ∀ o mode, run .escape (literalBreak index) = some (o, mode) → o = [] ∧ mode = .escape := by
    intro o mode hrun
    unfold literalBreak at hrun
    split_ifs at hrun <;> cases hrun
    exact ⟨rfl, rfl⟩
  cases bytes with
  | nil => cases h
  | cons b bytes =>
    obtain ⟨x, c, rest, ⟨heq, -⟩, hx, htext⟩ | ⟨-, htext⟩ := translated_cons index b bytes
    · rw [htext] at h
      obtain ⟨o₁, mode₁, rest₁, hrun, hrest, rfl⟩ := decode_append.mp h
      obtain ⟨rfl, rfl⟩ := hbreak o₁ mode₁ hrun
      obtain ⟨o₂, mode₂, rest₂, hstep, -, rfl⟩ := decode_cons.mp hrest
      by_cases hc : c = backslash
      · subst hc
        cases hstep
        rfl
      · rw [step, (trigraph_spec hx).2.2.resolve_left hc] at hstep
        cases hstep
    · rw [htext] at h
      obtain ⟨o₁, mode₁, rest₁, hrun, hrest, rfl⟩ := decode_append.mp h
      obtain ⟨rfl, rfl⟩ := hbreak o₁ mode₁ hrun
      obtain ⟨hplain, -⟩ | ⟨digits, hescaped⟩ := literalByte_cases b
      · -- a sequence of plain characters has fewer bytes than characters
        rw [hplain] at hrest
        obtain ⟨o₂, mode₂, rest₂, hstep, hdecode, rfl⟩ := decode_cons.mp hrest
        have h₁ := stepEscape_slack hstep
        have h₂ := length_decode rfl hdecode
        simp only [nil_append, length_append, length_cons] at hlen
        omega
      · rw [hescaped] at hrest
        obtain ⟨o₂, mode₂, rest₂, hstep, -, rfl⟩ := decode_cons.mp hrest
        cases hstep
        rfl

theorem trigraphAt_zero {b : UInt8} : TrigraphAt index (b :: bytes) 0 ↔
    ∃ x rest, Opens index (b :: bytes) x rest ∧ (trigraph x).isSome := by
  simp only [TrigraphAt, Opens, literalBreak_eq_nil]
  constructor
  · rintro ⟨hb, h₁, ⟨x, h₂, hx⟩, hbreaks⟩
    match bytes, h₁, h₂ with
    | _ :: _ :: rest, h₁, h₂ =>
      simp only [getElem?_cons_zero, getElem?_cons_succ, Option.some.injEq] at hb h₁ h₂
      exact ⟨x, rest, ⟨by rw [hb, h₁, h₂], hbreaks⟩, hx⟩
  · rintro ⟨x, rest, ⟨heq, hbreaks⟩, hx⟩
    rw [heq]
    exact ⟨rfl, rfl, ⟨x, rfl, hx⟩, hbreaks⟩

theorem trigraphAt_succ {b : UInt8} {p : Nat} :
    TrigraphAt index (b :: bytes) (p + 1) ↔ TrigraphAt (index + 1) bytes p := by
  have hsum : index + (p + 1) = index + 1 + p := by omega
  simp only [TrigraphAt, getElem?_cons_succ, hsum]

theorem decode_translated (h : ∀ p, ¬ TrigraphAt index bytes p) :
    decode .inside (translated index bytes) = some bytes := by
  induction bytes generalizing index with
  | nil => rfl
  | cons b bytes ih =>
    obtain ⟨x, c, rest, hopens, hx, -⟩ | ⟨-, htext⟩ := translated_cons index b bytes
    · refine absurd (trigraphAt_zero.mpr ⟨x, rest, hopens, ?_⟩) (h 0)
      rw [hx]
      rfl
    · rw [htext, decode_append]
      refine ⟨[], .inside, b :: bytes, run_literalBreak index, ?_, rfl⟩
      rw [decode_append]
      exact ⟨[b], .inside, bytes, run_literalByte b, ih fun p hp => h (p + 1) (trigraphAt_succ.mpr hp), rfl⟩

theorem not_trigraphAt_of_decode (h : decode .inside (translated index bytes) = some bytes) (p : Nat) :
    ¬ TrigraphAt index bytes p := by
  induction bytes generalizing index p with
  | nil => rintro ⟨⟨⟩, -⟩
  | cons b bytes ih =>
    obtain ⟨x, c, rest, ⟨heq, -⟩, hx, htext⟩ | ⟨hno, htext⟩ := translated_cons index b bytes
    · rw [htext, heq] at h
      obtain ⟨o₁, mode₁, rest₁, hbreak, hrest, hout⟩ := decode_append.mp h
      rw [run_literalBreak] at hbreak
      cases hbreak
      obtain ⟨o₂, mode₂, rest₂, hstep, hdecode, rfl⟩ := decode_cons.mp hrest
      obtain ⟨hquote, hnewline, hquestion⟩ := trigraph_value x c hx
      by_cases hc : c = backslash
      · -- the bytes from here on are those of an escape sequence, and one of them is missing
        subst hc
        cases hstep
        rw [nil_append, nil_append] at hout
        have hhead := decode_escape hdecode (by rw [← hout]; rfl)
        rw [← hout] at hhead
        have hne : question ≠ backslash := by decide
        exact absurd (Option.some.inj hhead) hne
      · simp only [step, stepInside, hquote, hnewline, hc, if_false] at hstep
        cases hstep
        exact absurd (cons.inj hout).1.symm hquestion
    · rw [htext] at h
      obtain ⟨o₁, mode₁, rest₁, hbreak, hrest, hout⟩ := decode_append.mp h
      rw [run_literalBreak] at hbreak
      cases hbreak
      obtain ⟨o₂, mode₂, rest₂, hbyte, hdecode, rfl⟩ := decode_append.mp hrest
      rw [run_literalByte] at hbyte
      cases hbyte
      obtain rfl := (cons.inj hout).2
      cases p with
      | zero => exact fun hp => hno (trigraphAt_zero.mp hp)
      | succ p => exact fun hp => ih hdecode p (trigraphAt_succ.mp hp)

/-- the literal denotes the bytes exactly if they have no trigraph -/
theorem cStringLiteral_denotes_iff (bytes : List UInt8) :
    denotes (cStringLiteral bytes) = some bytes ↔ ∀ p, ¬ TrigraphAt 0 bytes p := by
  have hdenotes : denotes (cStringLiteral bytes) = decode .inside (translated 0 bytes) := by
    have hquestion : quote ≠ question := by decide
    have hbackslash : quote ≠ backslash := by decide
    rw [denotes, cStringLiteral, replaceTrigraphs_cons hquestion, spliceLines_cons (.inl hbackslash), decode_quote,
      translated]
  rw [hdenotes]
  exact ⟨not_trigraphAt_of_decode, decode_translated⟩

/-- the bytes of `??=` are read back as `#` -/
theorem cStringLiteral_trigraph : denotes (cStringLiteral [question, question, 61]) = some [35] ∧
    denotes (cStringLiteral [question, question, 61]) ≠ some [question, question, 61] := by decide

end Denotes

end Subscript.Cemit
