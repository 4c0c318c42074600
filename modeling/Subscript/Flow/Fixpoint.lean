import Mathlib.Data.Nat.Find
import Mathlib.Logic.Function.Iterate

/-! The loop `while changed`: a round is repeated until it reports no change. -/

namespace Flow

variable {α : Type*}

/-- at most `fuel` rounds, each of which reports whether it changed the state -/
def untilStable (round : α → α × Bool) : Nat → α → α
  | 0, a => a
  | fuel + 1, a =>
    match round a with
    | (a', true) => untilStable round fuel a'
    | (a', false) => a'

/-- An invariant and a measure that falls with every change: with fuel above the measure the loop
ends in a state that a round left unchanged. -/
theorem untilStable_spec (round : α → α × Bool) (Inv : α → Prop) (μ : α → Nat)
    (hInv : ∀ a, Inv a → Inv (round a).1)
    (hμ : ∀ a, Inv a → (round a).2 = true → μ (round a).1 < μ a) :
    ∀ {fuel : Nat} {a : α}, Inv a → μ a < fuel →
      ∃ a', Inv a' ∧ (round a').2 = false ∧ untilStable round fuel a = (round a').1 := by
  intro fuel
  induction fuel with
  | zero => intro a _ h; exact absurd h (Nat.not_lt_zero _)
  | succ fuel ih =>
    intro a ha hlt
    have hI := hInv a ha
    have hM := hμ a ha
    rcases hr : round a with ⟨a', changed⟩
    rw [hr] at hI hM
    cases changed with
    | true =>
      obtain ⟨b, hb, hstable, heq⟩ := ih hI (lt_of_lt_of_le (hM rfl) (Nat.lt_succ_iff.mp hlt))
      exact ⟨b, hb, hstable, by simpa [untilStable, hr] using heq⟩
    | false => exact ⟨a, ha, by rw [hr], by simp [untilStable, hr]⟩

/-- The loop where nothing bounds the rounds: no result when the fuel runs out. -/
def loop (round : α → α × Bool) : Nat → α → Option α
  | 0, _ => none
  | fuel + 1, a =>
    match round a with
    | (a', true) => loop round fuel a'
    | (a', false) => some a'

variable {round : α → α × Bool} {a b : α} {n m : Nat}

/-- the state after `n` rounds, whatever they report -/
def rounds (round : α → α × Bool) (n : Nat) (a : α) : α := (fun a => (round a).1)^[n] a

theorem rounds_succ (round : α → α × Bool) (n : Nat) (a : α) :
    rounds round (n + 1) a = (round (rounds round n a)).1 := Function.iterate_succ_apply' _ n a

theorem rounds_add (round : α → α × Bool) (n m : Nat) (a : α) :
    rounds round (n + m) a = rounds round n (rounds round m a) := Function.iterate_add_apply _ n m a

/-- an answer of the loop is the result of a first round that changes nothing -/
theorem loop_eq_some_iff : loop round n a = some b ↔
    ∃ k < n, (∀ j < k, (round (rounds round j a)).2 = true) ∧ (round (rounds round k a)).2 = false ∧
      b = (round (rounds round k a)).1 := by
  induction n generalizing a with
  | zero => simp [loop]
  | succ n ih =>
    have hshift : ∀ k, rounds round k (round a).1 = rounds round (k + 1) a := fun k => (rounds_add round k 1 a).symm
    rcases hr : round a with ⟨a', changed⟩
    rw [hr] at hshift
    cases changed with
    | true =>
      simp only [loop, hr, ih, hshift]
      constructor
      · rintro ⟨k, hk, hall, hstable, heq⟩
        refine ⟨k + 1, Nat.succ_lt_succ hk, fun j hj => ?_, hstable, heq⟩
        cases j with
        | zero => exact congrArg Prod.snd hr
        | succ j => exact hall j (Nat.lt_of_succ_lt_succ hj)
      · rintro ⟨k, hk, hall, hstable, heq⟩
        cases k with
        | zero => exact absurd ((congrArg Prod.snd hr).symm.trans hstable) (by simp)
        | succ k =>
          exact ⟨k, Nat.lt_of_succ_lt_succ hk, fun j hj => hall (j + 1) (Nat.succ_lt_succ hj), hstable, heq⟩
    | false =>
      have hzero : round (rounds round 0 a) = (a', false) := hr
      simp only [loop, hr, Option.some.injEq]
      constructor
      · rintro rfl
        exact ⟨0, Nat.succ_pos n, fun j hj => absurd hj (Nat.not_lt_zero j), by rw [hzero], by rw [hzero]⟩
      · rintro ⟨k, -, hall, -, rfl⟩
        cases k with
        | zero => rw [hzero]
        | succ k => exact absurd ((hall 0 (Nat.succ_pos k)).symm.trans (congrArg Prod.snd hzero)) (by simp)

/-- the loop ends as soon as some round changes nothing -/
theorem loop_of_stable (h : (round (rounds round m a)).2 = false) : ∃ b, ∀ n, m < n → loop round n a = some b := by
  classical
  obtain ⟨k, hk, hleast⟩ : ∃ k, (round (rounds round k a)).2 = false ∧
      ∀ j < k, (round (rounds round j a)).2 = true := by
    have hex : ∃ k, (round (rounds round k a)).2 = false := ⟨m, h⟩
    exact ⟨Nat.find hex, Nat.find_spec hex, fun j hj => by simpa using Nat.find_min hex hj⟩
  have hle : k ≤ m := by
    by_contra hlt
    exact absurd ((hleast m (Nat.lt_of_not_le hlt)).symm.trans h) (by simp)
  exact ⟨_, fun n hn => loop_eq_some_iff.mpr ⟨k, Nat.lt_of_le_of_lt hle hn, hleast, hk, rfl⟩⟩

/-- and never, if every round changes the state -/
theorem loop_eq_none (h : ∀ k, (round (rounds round k a)).2 = true) (n : Nat) : loop round n a = none := by
  cases hl : loop round n a with
  | none => rfl
  | some b =>
    obtain ⟨k, -, -, hstable, -⟩ := loop_eq_some_iff.mp hl
    exact absurd ((h k).symm.trans hstable) (by simp)

/-- so a loop that comes back to a state without a round in between that changes nothing goes on for ever -/
theorem loop_eq_none_of_cycle {p : Nat} (hp : 0 < p) (hcycle : rounds round (m + p) a = rounds round m a)
    (hall : ∀ j < m + p, (round (rounds round j a)).2 = true) (n : Nat) : loop round n a = none := by
  refine loop_eq_none (fun k => ?_) n
  induction k using Nat.strong_induction_on with
  | _ k ih =>
    by_cases hk : k < m + p
    · exact hall k hk
    · obtain ⟨d, rfl⟩ := Nat.exists_eq_add_of_le' (Nat.le_of_not_lt hk)
      rw [rounds_add, hcycle, ← rounds_add]
      exact ih (d + m) (by omega)

/-- the answer does not depend on the fuel -/
theorem loop_unique {c : α} (hb : loop round n a = some b) (hc : loop round m a = some c) : b = c := by
  obtain ⟨j, -, hj, hjs, rfl⟩ := loop_eq_some_iff.mp hb
  obtain ⟨k, -, hk, hks, rfl⟩ := loop_eq_some_iff.mp hc
  rcases Nat.lt_trichotomy j k with hlt | rfl | hlt
  · exact absurd ((hk j hlt).symm.trans hjs) (by simp)
  · rfl
  · exact absurd ((hj k hlt).symm.trans hks) (by simp)

/-- what every round keeps holds of the answer -/
theorem rounds_inv {Inv : α → Prop} (hInv : ∀ a, Inv a → Inv (round a).1) (ha : Inv a) (n : Nat) :
    Inv (rounds round n a) := by
  induction n with
  | zero => exact ha
  | succ n ih =>
    rw [rounds_succ]
    exact hInv _ ih

/-- a measure that falls with every change bounds the rounds -/
theorem exists_stable {Inv : α → Prop} (μ : α → Nat) (hInv : ∀ a, Inv a → Inv (round a).1)
    (hμ : ∀ a, Inv a → (round a).2 = true → μ (round a).1 < μ a) (ha : Inv a) :
    ∃ k, (round (rounds round k a)).2 = false := by
  by_contra hnone
  have hall : ∀ k, (round (rounds round k a)).2 = true := fun k => by
    simpa using fun hk => hnone ⟨k, hk⟩
  have hfall : ∀ k, μ (rounds round k a) + k ≤ μ a := by
    intro k
    induction k with
    | zero => exact Nat.le_refl _
    | succ k ih =>
      have hlt := hμ _ (rounds_inv hInv ha k) (hall k)
      rw [rounds_succ]
      omega
  have := hfall (μ a + 1)
  omega

end Flow
