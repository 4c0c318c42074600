import Mathlib.Algebra.Ring.Nat

/-! A queue of what came last, bounded by the weight of its items: the longest suffix of all that came which fits. -/

namespace Table.Window

variable {α : Type} {weight : α → Nat} {budget : Nat} {all kept kept' : List α} {x : α}

def total (weight : α → Nat) (items : List α) : Nat := (items.map weight).sum

@[simp] theorem total_nil : total weight [] = 0 := rfl

@[simp] theorem total_cons : total weight (x :: kept) = weight x + total weight kept := List.sum_cons

@[simp] theorem total_append : total weight (all ++ kept) = total weight all + total weight kept := by
  simp [total]

/-- `kept` is the longest suffix of `all` that fits the budget -/
structure Longest (weight : α → Nat) (budget : Nat) (all kept : List α) : Prop where
  suffix : kept <:+ all
  fits : total weight kept ≤ budget
  longest : ∀ t, t <:+ all → total weight t ≤ budget → t <:+ kept

theorem Longest.nil : Longest weight budget [] [] :=
  ⟨List.suffix_rfl, Nat.zero_le _, fun _ suffix _ => suffix⟩

theorem Longest.whole (fits : total weight all ≤ budget) : Longest weight budget all all :=
  ⟨List.suffix_rfl, fits, fun _ suffix _ => suffix⟩

/-- the first item goes when the whole does not fit -/
theorem Longest.pop (exceeds : budget < total weight (x :: all)) (h : Longest weight budget all kept) :
    Longest weight budget (x :: all) kept := by
  refine ⟨h.suffix.trans (List.suffix_cons x all), h.fits, fun t suffix fits => ?_⟩
  rcases List.suffix_cons_iff.1 suffix with rfl | suffix
  · omega
  · exact h.longest t suffix fits

theorem suffix_concat (h : kept <:+ all) (x : α) : kept ++ [x] <:+ all ++ [x] := by
  obtain ⟨front, rfl⟩ := h
  exact ⟨front, (List.append_assoc _ _ _).symm⟩

/-- a new item is put behind what fits beside it -/
theorem Longest.push (h : Longest weight budget all kept) (small : weight x ≤ budget)
    (h' : Longest weight (budget - weight x) kept kept') : Longest weight budget (all ++ [x]) (kept' ++ [x]) := by
  have single : total weight [x] = weight x := by simp [total]
  have fits := h'.fits
  refine ⟨?_, ?_, fun t suffix fits => ?_⟩
  · exact suffix_concat (h'.suffix.trans h.suffix) x
  · rw [total_append, single]
    omega
  · rcases List.suffix_concat_iff.1 suffix with rfl | ⟨front, rfl, front_suffix⟩
    · exact List.nil_suffix
    · rw [total_append, single] at fits
      have inKept := h.longest front front_suffix (by omega)
      exact suffix_concat (h'.longest front inKept (by omega)) x

end Table.Window
