import Mathlib.Data.List.AList

/-! What a finite map answers after one entry was put in or taken out. -/

namespace Table

variable {K V : Type} [DecidableEq K] {s : AList fun _ : K => V} {a : K} {b : V}

theorem lookup_insert_eq (x : K) : (s.insert a b).lookup x = if x = a then some b else s.lookup x := by
  by_cases same : x = a
  · subst same
    rw [AList.lookup_insert, if_pos rfl]
  · rw [AList.lookup_insert_ne same, if_neg same]

theorem lookup_erase_eq (x : K) : (s.erase a).lookup x = if x = a then none else s.lookup x := by
  by_cases same : x = a
  · subst same
    rw [AList.lookup_erase, if_pos rfl]
  · rw [AList.lookup_erase_ne same, if_neg same]

end Table
