import Mathlib.Data.List.Infix

/-! The leftmost scan of a list for the occurrences of a part, which do not overlap. -/

namespace Text

variable {α : Type*} {part s : List α} {pieces : List (List α)}

/-- the pieces of `s` between the occurrences: each of them ends where the first occurrence begins -/
inductive Scan (part : List α) : List α → List (List α) → Prop
  | last {s : List α} : ¬ part <:+: s → Scan part s [s]
  | piece {piece rest : List α} {pieces : List (List α)} :
      (∀ i < piece.length, ¬ part <+: (piece ++ (part ++ rest)).drop i) → Scan part rest pieces →
      Scan part (piece ++ (part ++ rest)) (piece :: pieces)

namespace Scan

theorem ne_nil (h : Scan part s pieces) : pieces ≠ [] := by
  cases h <;> exact List.cons_ne_nil _ _

/-- joined with the part the pieces are the list again -/
theorem join (h : Scan part s pieces) : part.intercalate pieces = s := by
  induction h with
  | last _ => exact List.intercalate_singleton
  | piece _ scan ih => rw [List.intercalate_cons_of_ne_nil scan.ne_nil, ih, List.append_assoc]

/-- no piece has an occurrence -/
theorem not_within (nonempty : part ≠ []) (h : Scan part s pieces) : ∀ piece ∈ pieces, ¬ part <:+: piece := by
  induction h with
  | last none_ => simpa using none_
  | piece first _ ih =>
    refine List.forall_mem_cons.2 ⟨?_, ih⟩
    rintro ⟨before, after, rfl⟩
    refine first before.length ?_ ?_
    · have := List.length_pos_of_ne_nil nonempty
      simp only [List.length_append]
      omega
    · simp only [List.append_assoc, List.drop_left]
      exact List.prefix_append _ _

end Scan

end Text
