import Mathlib.Data.Nat.Log
import Mathlib.Tactic.Ring

/-! Rounding a natural number to `p` significant bits, to nearest with ties to even, and what a second rounding
to fewer bits does to the result. -/

namespace Numeric

/-- `n / 2 ^ e`, to nearest with ties to even -/
def roundShift (n e : ℕ) : ℕ :=
  if 2 ^ e < 2 * (n % 2 ^ e) ∨ 2 * (n % 2 ^ e) = 2 ^ e ∧ n / 2 ^ e % 2 = 1 then n / 2 ^ e + 1 else n / 2 ^ e

/-- the bits of `n` below its `p` most significant ones -/
def dropped (p n : ℕ) : ℕ := n.log2 + 1 - p

def roundBits (p n : ℕ) : ℕ := roundShift n (dropped p n) * 2 ^ dropped p n

variable {p g n m d e : ℕ}

theorem roundShift_zero : roundShift n 0 = n := by simp [roundShift, Nat.mod_one]

theorem roundBits_of_lt (hp : 0 < p) (h : n < 2 ^ p) : roundBits p n = n := by
  have hd : dropped p n = 0 := by
    rcases Nat.eq_zero_or_pos n with rfl | hn
    · exact Nat.sub_eq_zero_of_le hp
    · exact Nat.sub_eq_zero_of_le ((Nat.log2_lt hn.ne').mpr h)
  rw [roundBits, hd, roundShift_zero, pow_zero, mul_one]

/-- a common factor of the number and the unit does not count -/
theorem roundShift_mul : roundShift (m * 2 ^ d) (d + g) = roundShift m g := by
  have hpos : 0 < 2 ^ d := Nat.two_pow_pos d
  have hq : m * 2 ^ d / 2 ^ (d + g) = m / 2 ^ g := by
    rw [pow_add, mul_comm (2 ^ d), Nat.mul_div_mul_right _ _ hpos]
  have hr : m * 2 ^ d % 2 ^ (d + g) = m % 2 ^ g * 2 ^ d := by
    rw [pow_add, mul_comm (2 ^ d), Nat.mul_mod_mul_right]
  have hlt : 2 ^ (d + g) < 2 * (m % 2 ^ g * 2 ^ d) ↔ 2 ^ g < 2 * (m % 2 ^ g) := by
    rw [pow_add, mul_comm (2 ^ d), ← mul_assoc]
    exact Nat.mul_lt_mul_right hpos
  have heq : 2 * (m % 2 ^ g * 2 ^ d) = 2 ^ (d + g) ↔ 2 * (m % 2 ^ g) = 2 ^ g := by
    rw [pow_add, mul_comm (2 ^ d), ← mul_assoc]
    exact Nat.mul_left_inj hpos.ne'
  simp only [roundShift, hq, hr, hlt, heq]

/-- The upper bits decide, and the lower ones only whether a tie is one. -/
theorem roundShift_add (hg : 0 < g) : roundShift n (d + g) =
    if 2 ^ g < 2 * (n / 2 ^ d % 2 ^ g) ∨
        2 * (n / 2 ^ d % 2 ^ g) = 2 ^ g ∧ (0 < n % 2 ^ d ∨ n / 2 ^ d / 2 ^ g % 2 = 1)
      then n / 2 ^ d / 2 ^ g + 1 else n / 2 ^ d / 2 ^ g := by
  have hq : n / 2 ^ (d + g) = n / 2 ^ d / 2 ^ g := by rw [pow_add, Nat.div_div_eq_div_mul]
  have hr : n % 2 ^ (d + g) = n % 2 ^ d + 2 ^ d * (n / 2 ^ d % 2 ^ g) := by rw [pow_add, Nat.mod_mul]
  have hlow : n % 2 ^ d < 2 ^ d := Nat.mod_lt _ (Nat.two_pow_pos d)
  obtain ⟨h, hh⟩ : ∃ h, 2 ^ g = 2 * h := ⟨2 ^ (g - 1), by rw [← pow_succ', Nat.sub_add_cancel hg]⟩
  have hunit : 2 ^ (d + g) = 2 * (2 ^ d * h) := by rw [pow_add, hh]; ring
  generalize n / 2 ^ d % 2 ^ g = j at hr ⊢
  generalize n % 2 ^ d = r at hr hlow ⊢
  generalize 2 ^ d = B at hr hlow hunit hq ⊢
  have hup : 2 ^ (d + g) < 2 * (r + B * j) ↔ 2 ^ g < 2 * j ∨ 2 * j = 2 ^ g ∧ 0 < r := by
    rcases lt_trichotomy j h with hj | rfl | hj
    · have : B * j + B ≤ B * h := Nat.mul_le_mul_left B hj
      omega
    · omega
    · have : B * h + B ≤ B * j := Nat.mul_le_mul_left B hj
      omega
  have htie : 2 * (r + B * j) = 2 ^ (d + g) ↔ 2 * j = 2 ^ g ∧ r = 0 := by
    rw [hunit, hh]
    rcases lt_trichotomy j h with hj | rfl | hj
    · have : B * j + B ≤ B * h := Nat.mul_le_mul_left B hj
      omega
    · omega
    · have : B * h + B ≤ B * j := Nat.mul_le_mul_left B hj
      omega
  simp only [roundShift, hq, hr, hup, htie]
  congr 1
  apply propext
  omega

/-- `n`, rounded to a unit of `2 ^ d`, lands on the middle of the coarser unit `2 ^ (d + g)` without being it, and
the tie then goes to the other side of `n`. -/
def LandsOnTie (d g n : ℕ) : Prop :=
  n / 2 ^ (d + g) % 2 = 0 ∧ 2 ^ (d + g) < 2 * (n % 2 ^ (d + g)) ∧ 2 * (n % 2 ^ (d + g)) ≤ 2 ^ (d + g) + 2 ^ d ∨
    n / 2 ^ (d + g) % 2 = 1 ∧ 2 * (n % 2 ^ (d + g)) < 2 ^ (d + g) ∧ 2 ^ (d + g) ≤ 2 * (n % 2 ^ (d + g)) + 2 ^ d

theorem roundShift_twice (hd : 0 < d) (hg : 2 ≤ g) :
    roundShift (roundShift n d * 2 ^ d) (d + g) = roundShift n (d + g) ↔ ¬ LandsOnTie d g n := by
  rw [roundShift_mul, roundShift_add (by omega)]
  unfold LandsOnTie
  rw [show n / 2 ^ (d + g) = n / 2 ^ d / 2 ^ g by rw [pow_add, Nat.div_div_eq_div_mul],
    show n % 2 ^ (d + g) = n % 2 ^ d + 2 ^ d * (n / 2 ^ d % 2 ^ g) by rw [pow_add, Nat.mod_mul]]
  have hlow : n % 2 ^ d < 2 ^ d := Nat.mod_lt _ (Nat.two_pow_pos d)
  obtain ⟨D, hD⟩ : ∃ D, 2 ^ d = 2 * D := ⟨2 ^ (d - 1), by rw [← pow_succ', Nat.sub_add_cancel hd]⟩
  obtain ⟨h, hh⟩ : ∃ h, 2 ^ g = 4 * h := ⟨2 ^ (g - 2), by rw [← Nat.sub_add_cancel hg, pow_add]; simp [mul_comm]⟩
  have hpos : 0 < h := by
    have := Nat.two_pow_pos g
    omega
  have hj : n / 2 ^ d % 2 ^ g < 4 * h := hh ▸ Nat.mod_lt _ (Nat.two_pow_pos g)
  have hm : n / 2 ^ d = 4 * (h * (n / 2 ^ d / 2 ^ g)) + n / 2 ^ d % 2 ^ g := by
    conv_lhs => rw [← Nat.div_add_mod (n / 2 ^ d) (2 ^ g)]
    rw [hh]
    ring
  have hunit : 2 ^ (d + g) = 2 * (2 * (2 * (D * h))) := by rw [pow_add, hD, hh]; ring
  generalize hrr : n % 2 ^ d = r at hlow ⊢
  generalize hmm : n / 2 ^ d = m at hj hm ⊢
  generalize hjj : m % 2 ^ g = j at hj hm ⊢
  generalize hqq : m / 2 ^ g = Q at hm ⊢
  -- the two comparisons say that the bits above `d` are the middle, or one below it
  have hup : 2 ^ (d + g) < 2 * (r + 2 ^ d * j) ∧ 2 * (r + 2 ^ d * j) ≤ 2 ^ (d + g) + 2 ^ d ↔
      j = 2 * h ∧ 0 < r ∧ r ≤ D := by
    rw [hunit, hD]
    rcases lt_trichotomy j (2 * h) with hlt | rfl | hlt
    · have : D * j + D ≤ D * (2 * h) := Nat.mul_le_mul_left D hlt
      rw [mul_left_comm] at this
      rw [mul_assoc]
      omega
    · rw [mul_assoc, mul_left_comm D]
      omega
    · have : D * (2 * h) + D ≤ D * j := Nat.mul_le_mul_left D hlt
      rw [mul_left_comm] at this
      rw [mul_assoc]
      omega
  have hdown : 2 * (r + 2 ^ d * j) < 2 ^ (d + g) ∧ 2 ^ (d + g) ≤ 2 * (r + 2 ^ d * j) + 2 ^ d ↔
      j + 1 = 2 * h ∧ D ≤ r := by
    rw [hunit, hD]
    rcases lt_trichotomy (j + 1) (2 * h) with hlt | heq | hlt
    · have : D * j + D + D ≤ D * (2 * h) := Nat.mul_le_mul_left D hlt
      rw [mul_left_comm] at this
      rw [mul_assoc]
      omega
    · have : D * (j + 1) = D * (2 * h) := by rw [heq]
      rw [mul_add, mul_one, mul_left_comm] at this
      rw [mul_assoc]
      omega
    · have : D * (2 * h) ≤ D * j := Nat.mul_le_mul_left D (by omega)
      rw [mul_left_comm] at this
      rw [mul_assoc]
      omega
  have hnear : roundShift n d = if D < r ∨ r = D ∧ j % 2 = 1 then m + 1 else m := by
    unfold roundShift
    rw [hmm, hrr, hD]
    congr 1
    apply propext
    omega
  rw [hnear]
  split
  · -- rounded up to a unit of `2 ^ d`: the bits above it may carry
    rename_i hr
    unfold roundShift
    rw [hh]
    by_cases hcarry : j + 1 = 4 * h
    · have hq : (m + 1) / (4 * h) = Q + 1 := by
        rw [hm, add_assoc, hcarry, ← mul_assoc, ← Nat.mul_succ, Nat.mul_div_cancel_left _ (by omega)]
      have hmod : (m + 1) % (4 * h) = 0 := by
        rw [hm, add_assoc, hcarry, ← mul_assoc, ← Nat.mul_succ, Nat.mul_mod_right]
      split_ifs <;> omega
    · have hq : (m + 1) / (4 * h) = Q := by
        rw [hm, add_assoc, ← mul_assoc, Nat.mul_add_div (by omega), Nat.div_eq_of_lt (by omega), add_zero]
      have hmod : (m + 1) % (4 * h) = j + 1 := by
        rw [hm, add_assoc, ← mul_assoc, Nat.mul_add_mod, Nat.mod_eq_of_lt (by omega)]
      rw [hq, hmod]
      split_ifs <;> omega
  · unfold roundShift
    rw [hjj, hqq, hh]
    split_ifs <;> omega

/-- the part of `LandsOnTie` that a rounding to `p + g` bits and then to `p` bits meets -/
def DoubleRounds (p g n : ℕ) : Prop := p + g ≤ n.log2 ∧ LandsOnTie (dropped (p + g) n) g n

/-- Rounding to `p + g` bits first changes the rounding to `p` bits for exactly the numbers that land on a tie. -/
theorem roundBits_twice (hp : 0 < p) (hg : 2 ≤ g) :
    roundBits p (roundBits (p + g) n) = roundBits p n ↔ ¬ DoubleRounds p g n := by
  unfold DoubleRounds
  by_cases hsmall : n < 2 ^ (p + g)
  · rw [roundBits_of_lt (by omega) hsmall]
    refine iff_of_true rfl fun h => ?_
    have hn : n ≠ 0 := by
      rintro rfl
      have : Nat.log2 0 = 0 := rfl
      omega
    exact absurd ((Nat.log2_lt hn).mpr hsmall) (by omega)
  · have hn : n ≠ 0 := by
      rintro rfl
      exact hsmall (Nat.two_pow_pos _)
    have hlog : p + g ≤ n.log2 := by
      by_contra hlt
      exact hsmall ((Nat.log2_lt hn).mp (by omega))
    rw [and_iff_right hlog]
    obtain ⟨d, hd⟩ : ∃ d, dropped (p + g) n = d := ⟨_, rfl⟩
    have hdpos : 0 < d := by unfold dropped at hd; omega
    have hdrop : dropped p n = d + g := by unfold dropped at hd ⊢; omega
    rw [hd, ← roundShift_twice hdpos hg]
    have hexp : n.log2 + 1 = d + (p + g) := by unfold dropped at hd; omega
    have hlo : 2 ^ (p + g - 1) ≤ roundShift n d := by
      have hbits : 2 ^ (p + g - 1) * 2 ^ d ≤ n := by
        rw [← pow_add, show p + g - 1 + d = n.log2 by omega]
        exact Nat.log2_self_le hn
      have hq := (Nat.le_div_iff_mul_le (Nat.two_pow_pos d)).mpr hbits
      unfold roundShift
      split <;> omega
    have hhi : roundShift n d ≤ 2 ^ (p + g) := by
      have hbits : n < 2 ^ (p + g) * 2 ^ d := by
        rw [← pow_add, add_comm, ← hexp]
        exact Nat.lt_log2_self
      have hq := (Nat.div_lt_iff_lt_mul (Nat.two_pow_pos d)).mpr hbits
      unfold roundShift
      split <;> omega
    -- the second rounding drops `d + g` bits, also when the first one carried into a new bit
    have hsecond : roundBits p (roundShift n d * 2 ^ d) = roundShift (roundShift n d * 2 ^ d) (d + g) * 2 ^ (d + g) := by
      rcases hhi.lt_or_eq with hlt | heq
      · have hlog' : (roundShift n d * 2 ^ d).log2 = n.log2 := by
          have hpos : 0 < roundShift n d := lt_of_lt_of_le (Nat.two_pow_pos _) hlo
          rw [Nat.log2_eq_iff (Nat.mul_pos hpos (Nat.two_pow_pos d)).ne', hexp, add_comm d, pow_add _ _ d]
          refine ⟨?_, Nat.mul_lt_mul_of_pos_right hlt (Nat.two_pow_pos d)⟩
          rw [show n.log2 = p + g - 1 + d by omega, pow_add]
          exact Nat.mul_le_mul_right _ hlo
        rw [roundBits, dropped, hlog', ← dropped, hdrop]
      · have hpow : roundShift n d * 2 ^ d = 2 ^ (p - 1) * 2 ^ (d + g + 1) := by
          rw [heq, ← pow_add, ← pow_add]
          congr 1
          omega
        have hlog' : (2 ^ (p - 1) * 2 ^ (d + g + 1)).log2 + 1 - p = d + g + 1 := by
          rw [← pow_add, Nat.log2_two_pow]
          omega
        have hone : roundShift (2 ^ (p - 1) * 2 ^ (d + g + 1)) (d + g) = 2 ^ (p - 1) * 2 := by
          rw [show 2 ^ (p - 1) * 2 ^ (d + g + 1) = 2 ^ (p - 1) * 2 * 2 ^ (d + g) by ring]
          exact (roundShift_mul).trans roundShift_zero
        have htwo : roundShift (2 ^ (p - 1) * 2 ^ (d + g + 1)) (d + g + 1) = 2 ^ (p - 1) :=
          (roundShift_mul).trans roundShift_zero
        rw [hpow, hone, roundBits, dropped, hlog', htwo]
        ring
    have hfirst : roundBits (p + g) n = roundShift n d * 2 ^ d := by rw [roundBits, hd]
    have honce : roundBits p n = roundShift n (d + g) * 2 ^ (d + g) := by rw [roundBits, hdrop]
    rw [hfirst, hsecond, honce]
    exact Nat.mul_left_inj (Nat.two_pow_pos _).ne'

end Numeric
