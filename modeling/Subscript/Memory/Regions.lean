import Mathlib.Algebra.Ring.Nat
import Mathlib.Order.Interval.Finset.Nat

/-! Regions of memory, as a start and a length. Regions that are apart from each other do not fill more than the space
they lie in. -/

namespace Memory

abbrev Region := Nat × Nat

/-- no address lies in both -/
def Apart (r r' : Region) : Prop := r.1 + r.2 ≤ r'.1 ∨ r'.1 + r'.2 ≤ r.1

def Within (a : Nat) (r : Region) : Prop := r.1 ≤ a ∧ a < r.1 + r.2

variable {r r' : Region} {a : Nat}

theorem Apart.symm (h : Apart r r') : Apart r' r := Or.symm h

theorem Apart.not_within (h : Apart r r') (ha : Within a r) : ¬ Within a r' := by
  intro ha'
  unfold Apart Within at *
  omega

/-- a part of a region is apart from what the region is apart from -/
theorem Apart.part {s : Region} (h : Apart r r') (hstart : r.1 ≤ s.1) (hend : s.1 + s.2 ≤ r.1 + r.2) : Apart s r' := by
  unfold Apart at *
  omega

theorem Apart.of_pairwise {α : Type*} {f : α → Region} {l : List α} (h : (l.map f).Pairwise Apart) {x y : α}
    (hx : x ∈ l) (hy : y ∈ l) : x = y ∨ Apart (f x) (f y) := by
  by_cases heq : x = y
  · exact .inl heq
  · have : Std.Symm fun x y => Apart (f x) (f y) := ⟨fun _ _ h => h.symm⟩
    exact .inr ((List.pairwise_map.mp h).forall hx hy heq)

/-- the addresses of the regions -/
def covered (regions : List Region) : Finset Nat := regions.foldr (fun r acc => Finset.Ico r.1 (r.1 + r.2) ∪ acc) ∅

theorem mem_covered {regions : List Region} : a ∈ covered regions ↔ ∃ r ∈ regions, Within a r := by
  induction regions with
  | nil => simp [covered]
  | cons r regions ih =>
    have hcons : covered (r :: regions) = Finset.Ico r.1 (r.1 + r.2) ∪ covered regions := rfl
    rw [hcons, Finset.mem_union, Finset.mem_Ico, ih]
    simp [Within]

theorem card_covered {regions : List Region} (h : regions.Pairwise Apart) :
    (covered regions).card = (regions.map Prod.snd).sum := by
  induction regions with
  | nil => rfl
  | cons r regions ih =>
    obtain ⟨hr, hregions⟩ := List.pairwise_cons.mp h
    have hdisjoint : Disjoint (Finset.Ico r.1 (r.1 + r.2)) (covered regions) := by
      refine Finset.disjoint_left.mpr fun a ha ha' => ?_
      obtain ⟨r', hr', hwithin⟩ := mem_covered.mp ha'
      exact (hr r' hr').not_within (Finset.mem_Ico.mp ha) hwithin
    have hcons : covered (r :: regions) = Finset.Ico r.1 (r.1 + r.2) ∪ covered regions := rfl
    rw [hcons, Finset.card_union_of_disjoint hdisjoint, ih hregions, Nat.card_Ico, List.map_cons, List.sum_cons]
    omega

theorem sum_le_of_apart {regions : List Region} (low high : Nat) (h : regions.Pairwise Apart)
    (hspace : ∀ r ∈ regions, low ≤ r.1 ∧ r.1 + r.2 ≤ high) : (regions.map Prod.snd).sum ≤ high - low := by
  rw [← card_covered h, ← Nat.card_Ico]
  refine Finset.card_le_card fun a ha => ?_
  obtain ⟨r, hr, hwithin⟩ := mem_covered.mp ha
  have := hspace r hr
  unfold Within at hwithin
  exact Finset.mem_Ico.mpr (by omega)

end Memory
