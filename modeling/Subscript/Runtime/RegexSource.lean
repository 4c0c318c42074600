import Mathlib.Data.List.Basic

/-! The source text of a RegExp (`regexops.rs`): the pattern with slashes and line terminators escaped, and what a
regular-expression literal with that body denotes. -/

namespace Subscript.Runtime.Regex

open List

/-- what stands behind the backslash for a line terminator -/
def terminatorEscape (c : Char) : List Char :=
  if c = '\n' then ['n']
  else if c = '\r' then ['r']
  else if c = '\u2028' then ['u', '2', '0', '2', '8']
  else if c = '\u2029' then ['u', '2', '0', '2', '9']
  else []

def isTerminator (c : Char) : Bool := terminatorEscape c ≠ []

/-- what the loop of `normalized_source` knows of the text behind it -/
structure SourceState where
  escaped : Bool := false
  inClass : Bool := false

namespace SourceState

/-- what is written for one character -/
def written (s : SourceState) (ch : Char) : List Char :=
  if ch = '/' ∧ !s.escaped ∧ !s.inClass then ['\\', '/']
  else if isTerminator ch then '\\' :: terminatorEscape ch
  else [ch]

def next (s : SourceState) (ch : Char) : SourceState :=
  if s.escaped then { s with escaped := false }
  else if ch = '\\' then { s with escaped := true }
  else if s.inClass then if ch = ']' then { s with inClass := false } else s
  else if ch = '[' then { s with inClass := true }
  else s

end SourceState

def sourceLoop : SourceState → List Char → List Char
  | _, [] => []
  | s, ch :: rest => s.written ch ++ sourceLoop (s.next ch) rest

/-- `normalized_source`, before the characters are written as UTF-8 -/
def normalizedSource (pattern : List Char) : List Char :=
  if pattern = [] then "(?:)".toList else sourceLoop {} pattern

/-! The body of a regular-expression literal, read as escape pairs and single characters. -/

inductive Token where
  | plain (c : Char)
  | pair (c : Char)
  deriving DecidableEq

def tokens : List Char → List Token
  | [] => []
  | [c] => [.plain c]
  | c :: d :: rest => if c = '\\' then .pair d :: tokens rest else .plain c :: tokens (d :: rest)

namespace Token

/-- whether the text behind a token is inside a character class -/
def inClass (k : Bool) : Token → Bool
  | plain c => if c = '[' then true else if c = ']' then false else k
  | pair _ => k

def char : Token → Char
  | plain c | pair c => c

def escapesTerminator : Token → Bool
  | plain _ => false
  | pair c => isTerminator c

end Token

/-- no slash would end the literal -/
def closed : Bool → List Token → Bool
  | _, [] => true
  | k, t :: rest => (k || t ≠ .plain '/') && closed (t.inClass k) rest

inductive Atom where
  /-- matches this character -/
  | unit (n : Nat)
  /-- another escape -/
  | escape (c : Char)
  /-- another character, with the meaning that it has where it stands -/
  | plain (c : Char)
  deriving DecidableEq

def hexDigit (c : Char) : Option Nat :=
  if '0' ≤ c ∧ c ≤ '9' then some (c.toNat - '0'.toNat)
  else if 'a' ≤ c ∧ c ≤ 'f' then some (c.toNat - 'a'.toNat + 10)
  else if 'A' ≤ c ∧ c ≤ 'F' then some (c.toNat - 'A'.toNat + 10)
  else none

def Token.hex? : Token → Option Nat
  | plain c => hexDigit c
  | pair _ => none

/-- the value of the `n` hexadecimal digits in front -/
def hexValue : Nat → Nat → List Token → Option Nat
  | 0, acc, _ => some acc
  | _ + 1, _, [] => none
  | n + 1, acc, t :: rest => t.hex?.bind fun d => hexValue n (acc * 16 + d) rest

def Token.atom : Token → Atom
  | plain c => if c = '/' ∨ isTerminator c then .unit c.toNat else .plain c
  | pair c =>
    if c = 'n' then .unit '\n'.toNat
    else if c = 'r' then .unit '\r'.toNat
    else if c = '/' ∨ isTerminator c then .unit c.toNat
    else .escape c

/-- the atoms of a body, of which the first `skip` tokens are read already -/
def denote : Nat → List Token → List Atom
  | _, [] => []
  | skip + 1, _ :: rest => denote skip rest
  | 0, t :: rest =>
    match if t = .pair 'u' then hexValue 4 0 rest else none with
    | some n => .unit n :: denote 4 rest
    | none => t.atom :: denote 0 rest

/-- what the body of a literal denotes -/
def bodyAtoms (body : List Char) : List Atom := denote 0 (tokens body)

/-- what a pattern denotes; the empty one is `(?:)` -/
def patternAtoms (pattern : List Char) : List Atom := bodyAtoms (if pattern = [] then "(?:)".toList else pattern)

/-! The loop on the tokens of the pattern. -/

namespace Token

def written (k : Bool) : Token → List Token
  | plain c =>
    if c = '/' ∧ !k then [pair '/']
    else
      match terminatorEscape c with
      | [] => [plain c]
      | e :: digits => pair e :: digits.map plain
  | pair c => if isTerminator c then pair '\\' :: (terminatorEscape c).map plain else [pair c]

end Token

def rewrite : Bool → List Token → List Token
  | _, [] => []
  | k, t :: rest => t.written k ++ rewrite (t.inClass k) rest

section Tokens

variable {c : Char} {k : Bool}

theorem tokens_plain (h : c ≠ '\\') (rest : List Char) : tokens (c :: rest) = .plain c :: tokens rest := by
  cases rest with
  | nil => rfl
  | cons d rest => rw [tokens, if_neg h]

theorem tokens_pair (rest : List Char) : tokens ('\\' :: c :: rest) = .pair c :: tokens rest := by
  rw [tokens, if_pos rfl]

theorem next_plain (h : c ≠ '\\') : (SourceState.mk false k).next c = ⟨false, (Token.plain c).inClass k⟩ := by
  simp only [SourceState.next, h, Bool.false_eq_true, if_false, Token.inClass]
  split_ifs <;> simp_all

theorem terminator_cases (h : isTerminator c) : c = '\n' ∨ c = '\r' ∨ c = '\u2028' ∨ c = '\u2029' := by
  unfold isTerminator terminatorEscape at h
  split_ifs at h <;> simp_all

theorem terminatorEscape_eq_nil (h : ¬ isTerminator c) : terminatorEscape c = [] := by simpa [isTerminator] using h

theorem written_plain (h : c ≠ '\\') (rest : List Char) :
    tokens ((SourceState.mk false k).written c ++ rest) = (Token.plain c).written k ++ tokens rest := by
  by_cases ht : isTerminator c
  · rcases terminator_cases ht with rfl | rfl | rfl | rfl <;>
      simp [SourceState.written, Token.written, isTerminator, terminatorEscape, tokens_pair, tokens_plain]
  · by_cases hslash : c = '/' ∧ k = false
    · obtain ⟨rfl, rfl⟩ := hslash
      exact tokens_pair rest
    · simp [SourceState.written, Token.written, ht, terminatorEscape_eq_nil ht, hslash, tokens_plain h]

theorem written_pair (rest : List Char) :
    tokens ('\\' :: (SourceState.mk true k).written c ++ rest) = (Token.pair c).written k ++ tokens rest := by
  by_cases ht : isTerminator c
  · rcases terminator_cases ht with rfl | rfl | rfl | rfl <;>
      simp [SourceState.written, Token.written, isTerminator, terminatorEscape, tokens_pair, tokens_plain]
  · simp [SourceState.written, Token.written, ht, tokens_pair]

/-- the loop rewrites token by token; `k` is the class state at the start -/
theorem tokens_sourceLoop (k : Bool) : ∀ pattern : List Char,
    tokens (sourceLoop ⟨false, k⟩ pattern) = rewrite k (tokens pattern)
  | [] => rfl
  | [c] => by
    by_cases h : c = '\\'
    · subst h
      rfl
    · simp only [sourceLoop, written_plain h]
      rfl
  | c :: d :: rest => by
    by_cases h : c = '\\'
    · subst h
      rw [tokens_pair, rewrite, Token.inClass, ← tokens_sourceLoop k rest, ← written_pair]
      rfl
    · rw [tokens_plain h, rewrite, sourceLoop, next_plain h, written_plain h, tokens_sourceLoop]

end Tokens

section Rewrite

variable {k : Bool} {t : Token}

/-- the rewriting of one token: of a terminator, of a slash outside a class, and of any other -/
theorem written_cases (k : Bool) (t : Token) :
    (∃ c ∈ ['\n', '\r', '\u2028', '\u2029'], t = .plain c ∨ t = .pair c) ∨ (t = .plain '/' ∧ k = false) ∨
      (t.written k = [t] ∧ isTerminator t.char = false ∧ (k || t ≠ .plain '/')) := by
  by_cases ht : isTerminator t.char
  · refine .inl ⟨t.char, by simpa using terminator_cases ht, ?_⟩
    cases t <;> simp [Token.char]
  · refine .inr ?_
    by_cases hslash : t = .plain '/' ∧ k = false
    · exact .inl hslash
    · refine .inr ⟨?_, by simpa using ht, by cases k <;> simp_all⟩
      cases t with
      | plain c =>
        have nil : terminatorEscape c = [] := terminatorEscape_eq_nil ht
        have open_slash : ¬ (c = '/' ∧ k = false) := by simpa using hslash
        simp [Token.written, nil, open_slash]
      | pair c =>
        have other : isTerminator c = false := Bool.eq_false_iff.mpr ht
        simp [Token.written, other]

theorem rewrite_clean (k : Bool) (ts : List Token) : ∀ t ∈ rewrite k ts, isTerminator t.char = false := by
  induction ts generalizing k with
  | nil => exact fun _ h => absurd h not_mem_nil
  | cons t ts ih =>
    refine forall_mem_append.mpr ⟨?_, ih _⟩
    rcases written_cases k t with ⟨c, hc, ht⟩ | ⟨rfl, rfl⟩ | ⟨hw, ht, -⟩
    · simp only [mem_cons, not_mem_nil, or_false] at hc
      rcases hc with rfl | rfl | rfl | rfl <;> rcases ht with rfl | rfl <;> cases k <;> decide
    · decide
    · simpa [hw] using ht

theorem rewrite_closed (k : Bool) (ts : List Token) : closed k (rewrite k ts) := by
  induction ts generalizing k with
  | nil => rfl
  | cons t ts ih =>
    rw [rewrite]
    rcases written_cases k t with ⟨c, hc, ht⟩ | ⟨rfl, rfl⟩ | ⟨hw, -, hs⟩
    · simp only [mem_cons, not_mem_nil, or_false] at hc
      rcases hc with rfl | rfl | rfl | rfl <;> rcases ht with rfl | rfl <;>
        simpa [Token.written, isTerminator, terminatorEscape, closed, Token.inClass] using ih k
    · simpa [Token.written, closed, Token.inClass] using ih false
    · simp only [hw, singleton_append, closed, Bool.and_eq_true]
      exact ⟨by simpa using hs, ih _⟩

/-- hexadecimal digits are left as they are, and nothing else becomes one -/
theorem hexValue_rewrite (n acc : Nat) (k : Bool) (ts : List Token) : hexValue n acc (rewrite k ts) = hexValue n acc ts := by
  induction ts generalizing n acc k with
  | nil => rfl
  | cons t ts ih =>
    cases n with
    | zero => rfl
    | succ n =>
      rw [rewrite]
      rcases written_cases k t with ⟨c, hc, ht⟩ | ⟨rfl, rfl⟩ | ⟨hw, -, -⟩
      · simp only [mem_cons, not_mem_nil, or_false] at hc
        rcases hc with rfl | rfl | rfl | rfl <;> rcases ht with rfl | rfl <;> cases k <;> rfl
      · rfl
      · simp only [hw, singleton_append, hexValue, ih]

/-- `a` is `b` when `bad` is zero, and longer otherwise -/
def Grown (bad : Nat) (a b : List Atom) : Prop := (bad = 0 → a = b) ∧ b.length + bad ≤ a.length

theorem Grown.cons {bad : Nat} {a b : List Atom} (h : Grown bad a b) (x : Atom) : Grown bad (x :: a) (x :: b) :=
  ⟨fun hbad => by rw [h.1 hbad], by simpa [Nat.add_right_comm] using h.2⟩

theorem Grown.pair {bad : Nat} {a b : List Atom} (h : Grown bad a b) (x : Atom) (xs : List Atom) (hxs : 2 ≤ xs.length) :
    Grown (bad + 1) (xs ++ a) (x :: b) := by
  refine ⟨fun hbad => absurd hbad (Nat.succ_ne_zero _), ?_⟩
  have := h.2
  simp only [length_cons, length_append]
  omega

def badPairs (ts : List Token) : Nat := (ts.filter Token.escapesTerminator).length

theorem badPairs_cons {ts : List Token} (h : isTerminator t.char = false) : badPairs (t :: ts) = badPairs ts := by
  have quiet : t.escapesTerminator = false := by
    cases t with
    | plain c => rfl
    | pair c => exact h
  rw [badPairs, filter_cons_of_neg (by simp [quiet])]
  rfl

theorem denote_rewrite (skip acc : Nat) (k : Bool) (ts : List Token) (h : (hexValue skip acc ts).isSome) :
    Grown (badPairs ts) (denote skip (rewrite k ts)) (denote skip ts) := by
  induction ts generalizing skip acc k with
  | nil => exact ⟨fun _ => by simp [rewrite, denote], by simp [rewrite, denote, badPairs]⟩
  | cons t ts ih =>
    rw [rewrite]
    rcases written_cases k t with ⟨c, hc, ht⟩ | ⟨rfl, rfl⟩ | ⟨hw, hclean, -⟩
    · cases skip with
      | succ skip =>
        simp only [mem_cons, not_mem_nil, or_false] at hc
        rcases hc with rfl | rfl | rfl | rfl <;> rcases ht with rfl | rfl <;>
          exact absurd h (by simp [hexValue, Token.hex?, hexDigit])
      | zero =>
        have hrest (k' : Bool) := ih 0 0 k' rfl
        simp only [mem_cons, not_mem_nil, or_false] at hc
        rcases ht with rfl | rfl
        · rcases hc with rfl | rfl | rfl | rfl <;> exact (hrest k).cons (.unit _)
        · rcases hc with rfl | rfl | rfl | rfl
          · exact (hrest k).pair _ ([.escape '\\', .plain 'n']) (by simp)
          · exact (hrest k).pair _ ([.escape '\\', .plain 'r']) (by simp)
          · exact (hrest k).pair _ (.escape '\\' :: ['u', '2', '0', '2', '8'].map .plain) (by simp)
          · exact (hrest k).pair _ (.escape '\\' :: ['u', '2', '0', '2', '9'].map .plain) (by simp)
    · cases skip with
      | succ skip => exact absurd h (by simp [hexValue, Token.hex?, hexDigit])
      | zero => exact (ih 0 0 false rfl).cons (.unit _)
    · rw [hw, singleton_append, badPairs_cons hclean]
      cases skip with
      | succ skip =>
        rw [hexValue] at h
        cases hd : t.hex? with
        | none => exact absurd h (by simp [hd])
        | some d => exact ih skip (acc * 16 + d) _ (by simpa [hd] using h)
      | zero =>
        simp only [denote, hexValue_rewrite]
        cases hu : if t = .pair 'u' then hexValue 4 0 ts else none with
        | none => exact (ih 0 0 _ rfl).cons _
        | some n =>
          have hsome : (hexValue 4 0 ts).isSome := by
            split_ifs at hu with hpair
            rw [hu]
            rfl
          exact (ih 4 0 _ hsome).cons _

end Rewrite

/-- a backslash that is not escaped itself has a line terminator right behind it -/
def EscapesTerminator (pattern : List Char) : Prop := ∃ t ∈ tokens pattern, t.escapesTerminator

theorem badPairs_eq_zero_iff (pattern : List Char) : badPairs (tokens pattern) = 0 ↔ ¬ EscapesTerminator pattern := by
  rw [badPairs, length_eq_zero_iff, filter_eq_nil_iff, EscapesTerminator]
  simp

/-- a character of a text stands in one of its tokens, unless it is the backslash of a pair -/
theorem mem_tokens {c : Char} : ∀ {text : List Char}, c ∈ text → c ≠ '\\' → ∃ t ∈ tokens text, t.char = c
  | [], h, _ => absurd h not_mem_nil
  | [d], h, _ => ⟨.plain d, mem_cons_self, (mem_singleton.mp h).symm⟩
  | d :: e :: rest, h, hc => by
    by_cases hd : d = '\\'
    · subst hd
      rcases mem_cons.mp ((mem_cons.mp h).resolve_left hc) with rfl | h
      · exact ⟨_, mem_cons_self, rfl⟩
      · obtain ⟨t, ht, rfl⟩ := mem_tokens h hc
        exact ⟨t, mem_cons_of_mem _ ht, rfl⟩
    · rw [tokens_plain hd]
      rcases mem_cons.mp h with rfl | h
      · exact ⟨_, mem_cons_self, rfl⟩
      · obtain ⟨t, ht, rfl⟩ := mem_tokens h hc
        exact ⟨t, mem_cons_of_mem _ ht, rfl⟩

/-- The source of a pattern has no line terminator and no open slash, and it denotes the pattern exactly when no backslash
of the pattern escapes a line terminator. -/
theorem normalizedSource_denotes_iff (pattern : List Char) :
    ((∀ c ∈ normalizedSource pattern, isTerminator c = false) ∧ closed false (tokens (normalizedSource pattern)) ∧
      bodyAtoms (normalizedSource pattern) = patternAtoms pattern) ↔ ¬ EscapesTerminator pattern := by
  by_cases hempty : pattern = []
  · subst hempty
    exact iff_of_true ⟨forall_mem_iff_forall_getElem.2 (by decide), by decide, rfl⟩ (by simp [EscapesTerminator, tokens])
  · have hsource : tokens (normalizedSource pattern) = rewrite false (tokens pattern) := by
      rw [normalizedSource, if_neg hempty, tokens_sourceLoop]
    have hclean : ∀ c ∈ normalizedSource pattern, isTerminator c = false := by
      intro c hc
      by_cases hback : c = '\\'
      · subst hback
        decide
      · obtain ⟨t, ht, rfl⟩ := mem_tokens hc hback
        rw [hsource] at ht
        exact rewrite_clean false _ t ht
    have hclosed : closed false (tokens (normalizedSource pattern)) := hsource ▸ rewrite_closed false _
    have grown := denote_rewrite 0 0 false (tokens pattern) rfl
    rw [and_iff_right hclean, and_iff_right hclosed, bodyAtoms, patternAtoms, if_neg hempty, bodyAtoms, hsource,
      ← badPairs_eq_zero_iff]
    refine ⟨fun heq => ?_, grown.1⟩
    have := grown.2
    rw [heq] at this
    omega

/-- The pattern of a backslash and a line feed, which matches a line feed: its source matches a backslash and an `n`. -/
theorem escapedNewline_denotes_other :
    patternAtoms ['\\', '\n'] = [.unit 10] ∧ normalizedSource ['\\', '\n'] = ['\\', '\\', 'n'] ∧
      bodyAtoms (normalizedSource ['\\', '\n']) = [.escape '\\', .plain 'n'] := by
  decide

end Subscript.Runtime.Regex
