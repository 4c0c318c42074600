import Mathlib.Data.Set.Insert

/-! Paths of a directed graph, dominance (a vertex dominates another when every path from the entry meets it) and what
arrives at a vertex from a set of sources. -/

namespace Flow

open List

variable {V : Type*} {E : V → V → Prop} {a b c d e r : V} {l m : List V}

/-- `Path E a l b`: edges of `E` lead from `a` to `b`; `l` lists the vertices entered, newest first. -/
inductive Path (E : V → V → Prop) (a : V) : List V → V → Prop
  | refl : Path E a [] a
  | snoc {l : List V} {b c : V} : Path E a l b → E b c → Path E a (c :: l) c

namespace Path

theorem trans (h : Path E a l b) (h' : Path E b m c) : Path E a (m ++ l) c := by
  induction h' with
  | refl => exact h
  | snoc _ hE ih => exact ih.snoc hE

theorem head_mem (h : Path E a l b) : b = a ∨ b ∈ l := by
  cases h with
  | refl => exact .inl rfl
  | snoc _ _ => exact .inr mem_cons_self

theorem mono {E' : V → V → Prop} (h : Path E a l b) (hE : ∀ {x y}, E x y → E' x y) : Path E' a l b := by
  induction h with
  | refl => exact .refl
  | snoc _ hxy ih => exact ih.snoc (hE hxy)

/-- a path that enters `d` has a first part that ends there -/
theorem split (h : Path E a l b) (hd : d ∈ l) : ∃ l₁ l₂, l = l₂ ++ l₁ ∧ Path E a l₁ d ∧ d ∈ l₁ := by
  induction h with
  | refl => exact absurd hd not_mem_nil
  | @snoc l b c hp hE ih =>
    rcases mem_cons.mp hd with rfl | hd
    · exact ⟨d :: l, [], rfl, hp.snoc hE, mem_cons_self⟩
    · obtain ⟨l₁, l₂, rfl, h₁, hm⟩ := ih hd
      exact ⟨l₁, c :: l₂, rfl, h₁, hm⟩

end Path

def Reachable (E : V → V → Prop) (e b : V) : Prop := ∃ l, Path E e l b

/-- every path from `e` to `b` meets `d` -/
def Dominates (E : V → V → Prop) (e d b : V) : Prop := ∀ l, Path E e l b → d = e ∨ d ∈ l

/-- What holds of a table of candidate dominators that is closed under the edges. -/
structure ClosedTable (E : V → V → Prop) (e : V) (S : V → Set V) : Prop where
  entry : S e ⊆ {e}
  edge : ∀ {b c}, E b c → c ≠ e → S c ⊆ insert c (S b)

/-- A closed table names only dominators. -/
theorem ClosedTable.dominates {S : V → Set V} (hS : ClosedTable E e S) (hd : d ∈ S b) :
    Dominates E e d b := by
  intro l hp
  induction hp generalizing d with
  | refl => exact .inl (hS.entry hd)
  | @snoc l b c hp hE ih =>
    by_cases hc : c = e
    · subst hc
      exact .inl (hS.entry hd)
    · rcases hS.edge hE hc hd with rfl | hd
      · exact .inr mem_cons_self
      · exact (ih hd).imp id (mem_cons_of_mem _)

theorem Dominates.refl : Dominates E e b b := fun _ hp => hp.head_mem

theorem Dominates.eq_entry (h : Dominates E e d e) : d = e := by
  rcases h [] .refl with h | h
  · exact h
  · exact absurd h not_mem_nil

/-- a dominator of `c` is `c` or dominates each predecessor of `c` -/
theorem Dominates.pred (h : Dominates E e d c) (hE : E b c) : d = c ∨ Dominates E e d b := by
  by_cases hdc : d = c
  · exact .inl hdc
  · refine .inr fun l hp => ?_
    rcases h _ (hp.snoc hE) with h | h
    · exact .inl h
    · exact .inr ((mem_cons.mp h).resolve_left hdc)

/-- When `r` dominates `d`, a path to `r` can be cut back until it does not meet `d`. -/
theorem Dominates.exists_path_avoiding (h : Dominates E e r d) (hne : d ≠ r) (hr : Reachable E e r) :
    ∃ l, Path E e l r ∧ d ≠ e ∧ d ∉ l := by
  obtain ⟨l, hp⟩ := hr
  have hde : d ≠ e := by
    rintro rfl
    exact hne h.eq_entry.symm
  -- on the length of the path: a path that meets `d` contains a shorter one to `r`
  induction hn : l.length using Nat.strong_induction_on generalizing l with
  | _ n ih =>
    by_cases hd : d ∈ l
    · obtain ⟨l₁, l₂, rfl, h₁, hm⟩ := hp.split hd
      rcases h _ h₁ with rfl | hr₁
      · refine ⟨[], .refl, hde, not_mem_nil⟩
      · cases h₁ with
        | refl => exact absurd hm not_mem_nil
        | @snoc l₀ b _ h₀ hE =>
          rcases mem_cons.mp hr₁ with rfl | hr₀
          · exact absurd rfl hne
          · obtain ⟨k₁, k₂, rfl, hk, -⟩ := h₀.split hr₀
            exact ih k₁.length (by simp at hn; omega) k₁ hk rfl
    · exact ⟨l, hp, hde, hd⟩

/-- Between a dominator `r` of `d` and a vertex that `d` dominates, every path meets `d`. -/
theorem Dominates.mem_of_path (hrd : Dominates E e r d) (hdb : Dominates E e d b) (hne : d ≠ r)
    (hr : Reachable E e r) (hp : Path E r m b) : d ∈ m := by
  obtain ⟨l, hl, hde, hd⟩ := hrd.exists_path_avoiding hne hr
  rcases hdb _ (hl.trans hp) with h | h
  · exact absurd h hde
  · exact (mem_append.mp h).resolve_right hd

section Sources

/-- what leaves the source `c` comes to a vertex without passing another source -/
inductive Delivers (E : V → V → Prop) (S : V → Prop) (c : V) : V → Prop
  | edge {b : V} : S c → E c b → Delivers E S c b
  | snoc {a b : V} : Delivers E S c a → ¬ S a → E a b → Delivers E S c b

/-- what leaves two different sources comes to `b` -/
def Contested (E : V → V → Prop) (e : V) (S : V → Prop) (b : V) : Prop :=
  ∃ c d, c ≠ d ∧ Reachable E e c ∧ Reachable E e d ∧ Delivers E S c b ∧ Delivers E S d b

variable {S S' : V → Prop}

theorem Reachable.snoc (h : Reachable E e a) (hE : E a b) : Reachable E e b := by
  obtain ⟨l, hl⟩ := h
  exact ⟨_, hl.snoc hE⟩

theorem Delivers.source (h : Delivers E S c b) : S c := by
  induction h with
  | edge hc _ => exact hc
  | snoc _ _ _ ih => exact ih

theorem Delivers.reachable (h : Delivers E S c b) (hr : Reachable E e c) : Reachable E e b := by
  induction h with
  | edge _ hE => exact hr.snoc hE
  | snoc _ _ hE ih => exact ih.snoc hE

/-- only what the sources are among the reachable vertices matters -/
theorem Delivers.congr (hS : ∀ b, Reachable E e b → (S b ↔ S' b)) (hr : Reachable E e c) (h : Delivers E S c b) :
    Delivers E S' c b := by
  induction h with
  | edge hc hE => exact .edge ((hS c hr).mp hc) hE
  | snoc ha hn hE ih => exact ih.snoc (fun h => hn ((hS _ (ha.reachable hr)).mpr h)) hE

theorem Contested.reachable (h : Contested E e S b) : Reachable E e b := by
  obtain ⟨c, d, -, hc, -, hcb, -⟩ := h
  exact hcb.reachable hc

theorem Contested.snoc (h : Contested E e S a) (ha : ¬ S a) (hE : E a b) : Contested E e S b := by
  obtain ⟨c, d, hne, hc, hd, hca, hda⟩ := h
  exact ⟨c, d, hne, hc, hd, hca.snoc ha hE, hda.snoc ha hE⟩

theorem Contested.congr (hS : ∀ b, Reachable E e b → (S b ↔ S' b)) (h : Contested E e S b) : Contested E e S' b := by
  obtain ⟨c, d, hne, hc, hd, hcb, hdb⟩ := h
  exact ⟨c, d, hne, hc, hd, hcb.congr hS hc, hdb.congr hS hd⟩

end Sources

end Flow
