import Mathlib.Data.Set.Insert
import Mathlib.Order.Interval.Set.Defs

/-! The positions of an interval that a set leaves free, as a list of half-open ranges. -/

namespace Memory

structure Gaps (lo hi : ℕ) (used : Set ℕ) (ranges : List (ℕ × ℕ)) : Prop where
  ordered : ranges.Pairwise fun r s => r.2 ≤ s.1
  within : ∀ r ∈ ranges, lo ≤ r.1 ∧ r.1 < r.2 ∧ r.2 ≤ hi
  inside : ∀ x ∈ used, lo ≤ x ∧ x < hi
  free : ∀ x, lo ≤ x → x < hi → ((∃ r ∈ ranges, r.1 ≤ x ∧ x < r.2) ↔ x ∉ used)

namespace Gaps

variable {lo mid hi : ℕ} {used used' : Set ℕ} {ranges ranges' : List (ℕ × ℕ)}

theorem full (lo hi : ℕ) : Gaps lo hi (Set.Ico lo hi) [] where
  ordered := .nil
  within := by simp
  inside _ hx := hx
  free x h₁ h₂ := by simpa using ⟨h₁, h₂⟩

theorem empty (h : lo < hi) : Gaps lo hi ∅ [(lo, hi)] where
  ordered := List.pairwise_singleton _ _
  within := by simpa using h
  inside _ hx := hx.elim
  free x h₁ h₂ := by simpa using ⟨h₁, h₂⟩

/-- the range from one position to a later one, if it is not empty -/
theorem upTo (h : lo ≤ hi) : Gaps lo hi ∅ (if lo < hi then [(lo, hi)] else []) := by
  split
  case isTrue lt => exact empty lt
  case isFalse ge =>
    obtain rfl := Nat.le_antisymm h (Nat.le_of_not_lt ge)
    exact ⟨.nil, by simp, by simp, fun x h₁ h₂ => absurd (h₁.trans_lt h₂) (lt_irrefl lo)⟩

theorem append (h : Gaps lo mid used ranges) (h' : Gaps mid hi used' ranges') (hlo : lo ≤ mid) (hhi : mid ≤ hi) :
    Gaps lo hi (used ∪ used') (ranges ++ ranges') where
  ordered := by
    refine List.pairwise_append.2 ⟨h.ordered, h'.ordered, fun r hr s hs => ?_⟩
    exact (h.within r hr).2.2.trans (h'.within s hs).1
  within r hr := by
    rcases List.mem_append.1 hr with hr | hr
    · obtain ⟨h₁, h₂, h₃⟩ := h.within r hr
      exact ⟨h₁, h₂, h₃.trans hhi⟩
    · obtain ⟨h₁, h₂, h₃⟩ := h'.within r hr
      exact ⟨hlo.trans h₁, h₂, h₃⟩
  inside x hx := by
    rcases hx with hx | hx
    · exact ⟨(h.inside x hx).1, (h.inside x hx).2.trans_le hhi⟩
    · exact ⟨hlo.trans (h'.inside x hx).1, (h'.inside x hx).2⟩
  free x h₁ h₂ := by
    -- a position lies in one half, and what belongs to the other half is not there
    simp only [List.mem_append, or_and_right, exists_or, Set.mem_union, not_or]
    rcases Nat.lt_or_ge x mid with hx | hx
    · have other : ¬ ∃ r ∈ ranges', r.1 ≤ x ∧ x < r.2 := by
        rintro ⟨r, hr, hle, -⟩
        exact absurd ((h'.within r hr).1.trans hle) (Nat.not_le.2 hx)
      have unused : x ∉ used' := fun hm => absurd (h'.inside x hm).1 (Nat.not_le.2 hx)
      simp [h.free x h₁ hx, other, unused]
    · have other : ¬ ∃ r ∈ ranges, r.1 ≤ x ∧ x < r.2 := by
        rintro ⟨r, hr, -, hlt⟩
        exact absurd (hlt.trans_le (h.within r hr).2.2) (Nat.not_lt.2 hx)
      have unused : x ∉ used := fun hm => absurd (h.inside x hm).2 (Nat.not_lt.2 hx)
      simp [h'.free x hx h₂, other, unused]

end Gaps

end Memory
