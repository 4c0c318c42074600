import Subscript.Flow.Path
import Mathlib.Data.Finset.Lattice.Fold
import Mathlib.Data.Fintype.Pigeonhole
import Mathlib.Order.Lattice.Nat

/-! Sweeps over the vertices of a graph in the order of their numbers: each visit gives a vertex the least
value of its predecessors, those with smaller numbers being up to date already. Values that no source
supplies any more can travel round a loop for ever; they cannot when one sweep takes a value round the loop, that is,
when the edge back to the least vertex of the loop starts where edges to larger numbers lead from there. -/

namespace Flow

/-- from some time on the sequence does not change -/
def Settles {α : Type*} (u : ℕ → α) : Prop := ∃ T c, ∀ t ≥ T, u t = c

section Settles

variable {α : Type*} {u : ℕ → α}

theorem settles_of_antitone [LinearOrder α] [WellFoundedLT α] {T : ℕ} (h : ∀ t ≥ T, u (t + 1) ≤ u t) :
    Settles u := by
  -- the least value that the sequence takes after `T`
  obtain ⟨-, ⟨t₀, ht₀, rfl⟩, hleast⟩ := WellFounded.has_min (wellFounded_lt) (u '' {t | T ≤ t})
    ⟨u T, T, le_refl T, rfl⟩
  have hle : ∀ t ≥ t₀, u t ≤ u t₀ := by
    intro t ht
    induction t, ht using Nat.le_induction with
    | base => exact le_rfl
    | succ t ht ih => exact (h t (le_trans ht₀ ht)).trans ih
  refine ⟨t₀, u t₀, fun t ht => le_antisymm (hle t ht) ?_⟩
  exact not_lt.mp (hleast (u t) ⟨t, le_trans ht₀ ht, rfl⟩)

theorem Settles.congr {v : ℕ → α} {T : ℕ} (h : Settles u) (he : ∀ t ≥ T, v t = u t) : Settles v := by
  obtain ⟨T', c, hc⟩ := h
  exact ⟨max T T', c, fun t ht => (he t (le_of_max_le_left ht)).trans (hc t (le_of_max_le_right ht))⟩

theorem Settles.succ (h : Settles u) : Settles fun t => u (t + 1) := by
  obtain ⟨T, c, hc⟩ := h
  exact ⟨T, c, fun t ht => hc (t + 1) (Nat.le_succ_of_le ht)⟩

theorem Settles.of_succ (h : Settles fun t => u (t + 1)) : Settles u := by
  obtain ⟨T, c, hc⟩ := h
  refine ⟨T + 1, c, fun t ht => ?_⟩
  obtain ⟨s, rfl⟩ : ∃ s, t = s + 1 := ⟨t - 1, by omega⟩
  exact hc s (by omega)

theorem settles_of_finset {ι β : Type*} [DecidableEq ι] (P : Finset ι) {u : ι → ℕ → α} (F : (ι → α) → β)
    (hF : ∀ g g' : ι → α, (∀ i ∈ P, g i = g' i) → F g = F g') (h : ∀ i ∈ P, Settles (u i)) :
    Settles fun t => F fun i => u i t := by
  obtain ⟨T, hT⟩ : ∃ T, ∀ i ∈ P, ∀ t ≥ T, u i t = u i T := by
    clear hF
    induction P using Finset.induction with
    | empty => exact ⟨0, fun i hi => absurd hi (Finset.notMem_empty i)⟩
    | insert i P _ ih =>
      obtain ⟨T₁, hT₁⟩ := ih fun j hj => h j (Finset.mem_insert_of_mem hj)
      obtain ⟨T₂, c, hc⟩ := h i (Finset.mem_insert_self i P)
      refine ⟨max T₁ T₂, fun j hj t ht => ?_⟩
      rcases Finset.mem_insert.mp hj with rfl | hj
      · rw [hc t (le_of_max_le_right ht), hc _ (le_max_right T₁ T₂)]
      · rw [hT₁ j hj t (le_of_max_le_left ht), hT₁ j hj _ (le_max_left T₁ T₂)]
  exact ⟨T, F fun i => u i T, fun t ht => hF _ _ fun i hi => hT i hi t ht⟩

end Settles

section Sweep

variable {F : ℕ → ℕ → Prop} {U : Set ℕ}

/-- an edge into `U` to a larger number -/
def Rises (F : ℕ → ℕ → Prop) (U : Set ℕ) (a b : ℕ) : Prop := F a b ∧ a < b ∧ b ∈ U

/-- following predecessors inside a finite set comes back to where it has been -/
theorem exists_cycle {n : ℕ} (hn : ∀ b ∈ U, b < n) (hpred : ∀ b ∈ U, ∃ p ∈ U, F p b) (hne : U.Nonempty) :
    ∃ (c : ℕ → ℕ) (k : ℕ), 0 < k ∧ (∀ i, c i ∈ U) ∧ (∀ i, F (c (i + 1)) (c i)) ∧ ∀ i, c (i + k) = c i := by
  choose! pred hmem hF using hpred
  obtain ⟨b, hb⟩ := hne
  have hU : ∀ i, pred^[i] b ∈ U := by
    intro i
    induction i with
    | zero => exact hb
    | succ i ih => rw [Function.iterate_succ_apply']; exact hmem _ ih
  obtain ⟨i, j, hij, heq⟩ : ∃ i j, i < j ∧ pred^[i] b = pred^[j] b := by
    obtain ⟨i, j, hne, heq⟩ := Finite.exists_ne_map_eq_of_infinite
      fun i : ℕ => (⟨pred^[i] b, hn _ (hU i)⟩ : Fin n)
    rcases lt_or_gt_of_ne hne with h | h
    · exact ⟨i, j, h, congrArg Fin.val heq⟩
    · exact ⟨j, i, h, (congrArg Fin.val heq).symm⟩
  refine ⟨fun m => pred^[m + i] b, j - i, by omega, fun m => hU _, fun m => ?_, fun m => ?_⟩
  · have hedge := hF _ (hU (m + i))
    rw [← Function.iterate_succ_apply' pred] at hedge
    have hshift : m + 1 + i = (m + i).succ := by omega
    change F (pred^[m + 1 + i] b) (pred^[m + i] b)
    rwa [hshift]
  · have hshift : m + (j - i) + i = m + j := by omega
    change pred^[m + (j - i) + i] b = pred^[m + i] b
    rw [hshift, Function.iterate_add_apply, ← heq, ← Function.iterate_add_apply]

/-- the least value among the predecessors of `b` as a sweep finds them: `y` is up to date before `b` -/
def leastBefore (P : ℕ → Finset ℕ) (x y : ℕ → WithTop ℕ) (b : ℕ) : WithTop ℕ :=
  (P b).inf fun p => if p < b then y p else x p

section

variable {n T : ℕ} {P : ℕ → Finset ℕ} {x : ℕ → ℕ → WithTop ℕ}

/-- values only fall along edges to larger numbers -/
theorem le_of_rising {U : Set ℕ} (hx : ∀ b ∈ U, ∀ t ≥ T, x (t + 1) b = leastBefore P (x t) (x (t + 1)) b) {a b t : ℕ}
    {l : List ℕ} (h : Path (Rises (fun p b => p ∈ P b) U) a l b) (ht : T ≤ t) : x (t + 1) b ≤ x (t + 1) a := by
  induction h with
  | refl => exact le_rfl
  | @snoc l b c _ hbc ih =>
    obtain ⟨hP, hlt, hU⟩ := hbc
    refine le_trans ?_ ih
    rw [hx c hU t ht]
    refine (Finset.inf_le hP).trans ?_
    rw [if_pos hlt]

/-- a cycle that is followed against its edges, as a path from its start to the vertex before the start -/
theorem exists_path_of_cycle {c : ℕ → ℕ} {k : ℕ} (hk : 0 < k) (hF : ∀ i, F (c (i + 1)) (c i)) (hper : c k = c 0) :
    ∃ l, Path F (c 0) l (c 1) := by
  have hdown : ∀ j < k, ∃ l, Path F (c 0) l (c (k - j)) := by
    intro j
    induction j with
    | zero => exact fun _ => ⟨[], hper ▸ .refl⟩
    | succ j ih =>
      intro hj
      obtain ⟨l, hl⟩ := ih (Nat.lt_of_succ_lt hj)
      obtain ⟨i, hi⟩ : ∃ i, k - j = i + 1 := ⟨k - j - 1, by omega⟩
      rw [hi] at hl
      rw [show k - (j + 1) = i by omega]
      exact ⟨_, hl.snoc (hF i)⟩
  have := hdown (k - 1) (by omega)
  rwa [show k - (k - 1) = 1 by omega] at this

/-- Sweeps settle everywhere, when on every cycle of vertices that may not be settled the edge into the least vertex `v`
starts at a vertex which edges to larger numbers reach from `v`. -/
theorem sweep_settles (hlt : ∀ b ∈ U, b < n) (hU : ∀ b, ¬ Settles (x · b) → b ∈ U)
    (hx : ∀ b ∈ U, ∀ t ≥ T, x (t + 1) b = leastBefore P (x t) (x (t + 1)) b)
    (hback : ∀ u v l, v ∈ U → u ∈ P v → v ≤ u → Path (fun p q => p ∈ P q ∧ q ∈ U ∧ v ≤ q) v l u →
      ∃ l', Path (Rises (fun p q => p ∈ P q) U) v l' u) (b : ℕ) : Settles (x · b) := by
  by_contra hb
  -- an unsettled vertex has an unsettled predecessor
  have hpred : ∀ b ∈ {b | ¬ Settles (x · b)}, ∃ p ∈ {b | ¬ Settles (x · b)}, p ∈ P b := by
    intro b hb
    by_contra hnone
    refine hb (.of_succ (.congr ?_ (hx b (hU b hb))))
    refine settles_of_finset (P b) (fun g => (P b).inf g) (fun g g' h => Finset.inf_congr rfl h) fun p hp => ?_
    have hsettles : Settles (x · p) := by
      by_contra h
      exact hnone ⟨p, h, hp⟩
    split_ifs
    · exact hsettles.succ
    · exact hsettles
  obtain ⟨c, k, hk, hc, hF, hper⟩ := exists_cycle (fun b hb => hlt b (hU b hb)) hpred ⟨b, hb⟩
  -- the cycle from its least vertex, whose values can then only fall
  obtain ⟨-, ⟨i₀, rfl⟩, hleast⟩ := WellFounded.has_min (wellFounded_lt) (Set.range c) ⟨c 0, 0, rfl⟩
  have hmin : ∀ i, c i₀ ≤ c (i + i₀) := fun i => not_lt.mp (hleast (c (i + i₀)) ⟨_, rfl⟩)
  have hF' : ∀ i, c (i + 1 + i₀) ∈ P (c (i + i₀)) := fun i => by
    rw [Nat.add_right_comm]
    exact hF (i + i₀)
  obtain ⟨l, hl⟩ := exists_path_of_cycle (F := fun p q => p ∈ P q ∧ q ∈ U ∧ c i₀ ≤ q) (c := fun i => c (i + i₀)) hk
    (fun i => ⟨hF' i, hU _ (hc _), hmin i⟩) (by rw [Nat.add_comm k i₀, Nat.zero_add]; exact hper i₀)
  rw [Nat.zero_add] at hl
  have hedge : c (1 + i₀) ∈ P (c i₀) := by simpa using hF' 0
  obtain ⟨l', hl'⟩ := hback _ _ _ (hU _ (hc i₀)) hedge (hmin 1) hl
  refine hc i₀ (.of_succ (settles_of_antitone (T := T) fun t ht => ?_))
  calc x (t + 1 + 1) (c i₀)
      ≤ x (t + 1) (c (1 + i₀)) := by
        rw [hx _ (hU _ (hc i₀)) (t + 1) (Nat.le_succ_of_le ht)]
        refine (Finset.inf_le hedge).trans ?_
        rw [if_neg (not_lt.mpr (hmin 1))]
    _ ≤ x (t + 1) (c i₀) := le_of_rising hx hl' ht

end

end Sweep

end Flow
