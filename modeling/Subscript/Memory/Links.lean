import Mathlib.Data.List.Basic

/-! Lists that are linked through words of memory: the word at each address is the next address, and zero ends the
list. -/

namespace Memory

/-- the addresses that are linked from `head` on -/
def Linked (mem : Nat → Nat) : Nat → List Nat → Prop
  | head, [] => head = 0
  | head, p :: l => head = p ∧ p ≠ 0 ∧ Linked mem (mem p) l

variable {mem mem' : Nat → Nat} {head p : Nat} {l : List Nat}

/-- only the words of the list matter -/
theorem Linked.congr (h : Linked mem head l) (hsame : ∀ p ∈ l, mem' p = mem p) : Linked mem' head l := by
  induction l generalizing head with
  | nil => exact h
  | cons p l ih =>
    obtain ⟨rfl, hne, hrest⟩ := h
    refine ⟨rfl, hne, ?_⟩
    rw [hsame head List.mem_cons_self]
    exact ih hrest fun q hq => hsame q (List.mem_cons_of_mem _ hq)

theorem Linked.push (h : Linked mem head l) (hp : p ≠ 0) (hnew : p ∉ l) :
    Linked (Function.update mem p head) p (p :: l) := by
  refine ⟨rfl, hp, ?_⟩
  rw [Function.update_self]
  refine h.congr fun q hq => Function.update_of_ne ?_ ..
  rintro rfl
  exact hnew hq

theorem Linked.pop (h : Linked mem head l) (hhead : head ≠ 0) : ∃ rest, l = head :: rest ∧ Linked mem (mem head) rest := by
  cases l with
  | nil => exact absurd h hhead
  | cons p l =>
    obtain ⟨rfl, -, hrest⟩ := h
    exact ⟨l, rfl, hrest⟩

end Memory
