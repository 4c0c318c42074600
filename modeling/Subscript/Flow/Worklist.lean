import Mathlib.Algebra.BigOperators.Group.Finset.Basic

/-! Breadth-first search with a list of pending vertices and a set of visited ones. A visit says
whether the vertex ends the search and, if not, which vertices follow. -/

namespace Flow

open List

variable {α : Type*} [DecidableEq α]

/-- `fuel` bounds the number of vertices taken from `pending`. -/
def search (visit : α → Bool × List α) : Nat → List α → Finset α → Bool
  | 0, _, _ => false
  | _ + 1, [], _ => false
  | fuel + 1, x :: pending, visited =>
    if x ∈ visited then search visit fuel pending visited
    else
      match visit x with
      | (true, _) => true
      | (false, next) => search visit fuel (pending ++ next) (insert x visited)

/-- the search goes on from `x` to `y` -/
def Follows (visit : α → Bool × List α) (x y : α) : Prop := (visit x).1 = false ∧ y ∈ (visit x).2

/-- the vertices still to be taken, counting those that unvisited vertices of `U` will add -/
def searchWork (visit : α → Bool × List α) (U : Finset α) (pending : List α) (visited : Finset α) :
    Nat :=
  pending.length + ∑ x ∈ U \ visited, (visit x).2.length

variable {fuel : Nat} {visited : Finset α} {visit : α → Bool × List α} {pending : List α}

theorem search_sound (h : search visit fuel pending visited = true) :
    ∃ x ∈ pending, ∃ y, Relation.ReflTransGen (Follows visit) x y ∧ (visit y).1 = true := by
  induction fuel generalizing pending visited with
  | zero => simp [search] at h
  | succ fuel ih =>
    cases pending with
    | nil => simp [search] at h
    | cons x pending =>
      unfold search at h
      split at h
      · obtain ⟨z, hz, y, hzy, hy⟩ := ih h
        exact ⟨z, mem_cons_of_mem _ hz, y, hzy, hy⟩
      · split at h
        · rename_i hv
          exact ⟨x, mem_cons_self, x, .refl, by rw [hv]⟩
        · rename_i next hv
          obtain ⟨z, hz, y, hzy, hy⟩ := ih h
          rcases mem_append.mp hz with hz | hz
          · exact ⟨z, mem_cons_of_mem _ hz, y, hzy, hy⟩
          · exact ⟨x, mem_cons_self, y, .head ⟨by rw [hv], by rw [hv]; exact hz⟩ hzy, hy⟩

variable {U : Finset α}

/-- taking a new vertex lowers the work by one -/
theorem searchWork_insert (hU : ∀ x ∉ U, (visit x).2 = []) {x : α} (hx : x ∉ visited)
    (pending : List α) :
    searchWork visit U (pending ++ (visit x).2) (insert x visited) + 1 =
      searchWork visit U (x :: pending) visited := by
  simp only [searchWork, length_cons, length_append]
  by_cases hxU : x ∈ U
  · have hmem : x ∈ U \ visited := Finset.mem_sdiff.mpr ⟨hxU, hx⟩
    have hsum := Finset.add_sum_erase (U \ visited) (fun z => (visit z).2.length) hmem
    have herase : U \ insert x visited = (U \ visited).erase x := by
      ext z
      simp only [Finset.mem_sdiff, Finset.mem_insert, Finset.mem_erase]
      tauto
    rw [herase]
    omega
  · have hsame : U \ insert x visited = U \ visited := by
      ext z
      simp only [Finset.mem_sdiff, Finset.mem_insert, not_or]
      refine ⟨fun hz => ⟨hz.1, hz.2.2⟩, fun hz => ⟨hz.1, ?_, hz.2⟩⟩
      rintro rfl
      exact hxU hz.1
    rw [hsame, hU x hxU]
    simp only [length_nil]
    omega

variable {s : α}

/-- The same search with nothing to find: the set of all vertices it visits. -/
def visits (next : α → List α) : Nat → List α → Finset α → Finset α
  | 0, _, visited => visited
  | _ + 1, [], visited => visited
  | fuel + 1, x :: pending, visited =>
    if x ∈ visited then visits next fuel pending visited
    else visits next fuel (pending ++ next x) (insert x visited)

variable {next : α → List α}

theorem visits_sound (hpending : ∀ x ∈ pending, Relation.ReflTransGen (fun a b => b ∈ next a) s x)
    (hvisited : ∀ x ∈ visited, Relation.ReflTransGen (fun a b => b ∈ next a) s x) :
    ∀ x ∈ visits next fuel pending visited, Relation.ReflTransGen (fun a b => b ∈ next a) s x := by
  induction fuel generalizing pending visited with
  | zero => exact hvisited
  | succ fuel ih =>
    cases pending with
    | nil => exact hvisited
    | cons x pending =>
      obtain ⟨hx, hrest⟩ := forall_mem_cons.mp hpending
      unfold visits
      split
      · exact ih hrest hvisited
      · refine ih (forall_mem_append.mpr ⟨hrest, fun y hy => hx.tail hy⟩) fun y hy => ?_
        rcases Finset.mem_insert.mp hy with rfl | hy
        · exact hx
        · exact hvisited y hy

theorem visits_closed (hU : ∀ x ∉ U, next x = [])
    (hfuel : searchWork (fun x => (false, next x)) U pending visited < fuel)
    (hvisited : ∀ x ∈ visited, ∀ y ∈ next x, y ∈ visited ∨ y ∈ pending) :
    (∀ x ∈ visited, x ∈ visits next fuel pending visited) ∧
      (∀ x ∈ pending, x ∈ visits next fuel pending visited) ∧
      ∀ x ∈ visits next fuel pending visited, ∀ y ∈ next x, y ∈ visits next fuel pending visited := by
  induction fuel generalizing pending visited with
  | zero => exact absurd hfuel (Nat.not_lt_zero _)
  | succ fuel ih =>
    cases pending with
    | nil =>
      refine ⟨fun _ hx => hx, fun _ hx => absurd hx not_mem_nil, fun x hx y hy => ?_⟩
      exact (hvisited x hx y hy).resolve_right not_mem_nil
    | cons x pending =>
      unfold visits
      split
      · rename_i hx
        have hwork : searchWork (fun x => (false, next x)) U pending visited < fuel := by
          simp only [searchWork, length_cons] at hfuel ⊢
          omega
        obtain ⟨h₁, h₂, h₃⟩ := ih hwork fun z hz y hy => by
          rcases hvisited z hz y hy with hy | hy
          · exact .inl hy
          · rcases mem_cons.mp hy with rfl | hy
            · exact .inl hx
            · exact .inr hy
        exact ⟨h₁, forall_mem_cons.mpr ⟨h₁ x hx, h₂⟩, h₃⟩
      · rename_i hx
        have hwork : searchWork (fun x => (false, next x)) U (pending ++ next x) (insert x visited) < fuel := by
          have hstep : searchWork (fun x => (false, next x)) U (pending ++ next x) (insert x visited) + 1 =
              searchWork (fun x => (false, next x)) U (x :: pending) visited := searchWork_insert hU hx pending
          exact Nat.lt_of_succ_lt_succ (lt_of_eq_of_lt hstep hfuel)
        obtain ⟨h₁, h₂, h₃⟩ := ih hwork fun z hz y hy => by
          rcases Finset.mem_insert.mp hz with rfl | hz
          · exact .inr (mem_append_right _ hy)
          · rcases hvisited z hz y hy with hy | hy
            · exact .inl (Finset.mem_insert_of_mem hy)
            · rcases mem_cons.mp hy with rfl | hy
              · exact .inl (Finset.mem_insert_self _ _)
              · exact .inr (mem_append_left _ hy)
        refine ⟨fun z hz => h₁ z (Finset.mem_insert_of_mem hz), ?_, h₃⟩
        exact forall_mem_cons.mpr ⟨h₁ x (Finset.mem_insert_self _ _), fun z hz => h₂ z (mem_append_left _ hz)⟩

/-- With fuel for every edge the visited vertices are those that edges lead to. -/
theorem mem_visits_iff (hU : ∀ x ∉ U, next x = []) {x : α}
    (hfuel : searchWork (fun x => (false, next x)) U [s] ∅ < fuel) :
    x ∈ visits next fuel [s] ∅ ↔ Relation.ReflTransGen (fun a b => b ∈ next a) s x := by
  constructor
  · refine visits_sound (fun y hy => ?_) (fun y hy => absurd hy (Finset.notMem_empty y)) x
    rw [mem_singleton.mp hy]
  · intro h
    obtain ⟨-, hs, hclosed⟩ := visits_closed hU hfuel fun y hy => absurd hy (Finset.notMem_empty y)
    induction h with
    | refl => exact hs s (mem_singleton.mpr rfl)
    | tail _ hbc ih => exact hclosed _ ih _ hbc

/-- a search that fails has seen no hit -/
theorem visits_of_search (h : search visit fuel pending visited = false) :
    ∀ x ∈ visits (fun x => (visit x).2) fuel pending visited, x ∈ visited ∨ (visit x).1 = false := by
  induction fuel generalizing pending visited with
  | zero => exact fun x hx => .inl hx
  | succ fuel ih =>
    cases pending with
    | nil => exact fun x hx => .inl hx
    | cons x pending =>
      intro y hy
      unfold visits at hy
      unfold search at h
      split at h
      · rename_i seen
        rw [if_pos seen] at hy
        exact ih h y hy
      · rename_i new
        rw [if_neg new] at hy
        split at h
        · exact absurd h (by simp)
        · rename_i next hv
          rw [hv] at hy
          rcases ih h y hy with hy | hy
          · rcases Finset.mem_insert.mp hy with rfl | hy
            · exact .inr (by rw [hv])
            · exact .inl hy
          · exact .inr hy

/-- With fuel for every edge the search decides whether a hit can be reached from `s`. -/
theorem search_iff (hU : ∀ x ∉ U, (visit x).2 = [])
    (hfuel : searchWork visit U [s] ∅ < fuel) :
    search visit fuel [s] ∅ = true ↔
      ∃ y, Relation.ReflTransGen (Follows visit) s y ∧ (visit y).1 = true := by
  constructor
  · intro h
    obtain ⟨x, hx, y, hxy, hy⟩ := search_sound h
    rw [mem_singleton] at hx
    exact ⟨y, hx ▸ hxy, hy⟩
  · rintro ⟨y, hsy, hy⟩
    by_contra hfalse
    rw [Bool.not_eq_true] at hfalse
    have hmem : y ∈ visits (fun x => (visit x).2) fuel [s] ∅ :=
      (mem_visits_iff hU hfuel).mpr (hsy.lift id fun _ _ => And.right)
    rcases visits_of_search hfalse y hmem with hin | hmiss
    · exact Finset.notMem_empty y hin
    · rw [hmiss] at hy
      cases hy

variable {E : Type*}

/-- The search that goes through to the end and lists what the visits find. -/
def report (visit : α → List E × List α) : Nat → List α → Finset α → List E
  | 0, _, _ => []
  | _ + 1, [], _ => []
  | fuel + 1, x :: pending, visited =>
    if x ∈ visited then report visit fuel pending visited
    else (visit x).1 ++ report visit fuel (pending ++ (visit x).2) (insert x visited)

section Report

variable {visit : α → List E × List α} {U : Finset α}

/-- within a closed set of vertices an empty report speaks for every visited one -/
theorem visits_of_report (closed : ∀ x ∈ U, ∀ y ∈ (visit x).2, y ∈ U)
    (inside : ∀ x ∈ pending, x ∈ U) (empty : report visit fuel pending visited = []) :
    ∀ x ∈ visits (fun x => if x ∈ U then (visit x).2 else []) fuel pending visited, x ∈ visited ∨ (visit x).1 = [] := by
  induction fuel generalizing pending visited with
  | zero => exact fun x hx => .inl hx
  | succ fuel ih =>
    cases pending with
    | nil => exact fun x hx => .inl hx
    | cons x pending =>
      obtain ⟨hx, hrest⟩ := forall_mem_cons.mp inside
      intro y hy
      unfold visits at hy
      unfold report at empty
      split at empty
      · rename_i seen
        rw [if_pos seen] at hy
        exact ih hrest empty y hy
      · rename_i new
        rw [if_neg new, if_pos hx] at hy
        obtain ⟨here, later⟩ := append_eq_nil_iff.mp empty
        rcases ih (forall_mem_append.mpr ⟨hrest, closed x hx⟩) later y hy with hy | hy
        · rcases Finset.mem_insert.mp hy with rfl | hy
          · exact .inr here
          · exact .inl hy
        · exact .inr hy

/-- With fuel for every edge an empty report says that no vertex that edges lead to has a finding. -/
theorem report_eq_nil (closed : ∀ x ∈ U, ∀ y ∈ (visit x).2, y ∈ U) {x : α} (start : s ∈ U)
    (hfuel : searchWork (fun x => (false, (visit x).2)) U [s] ∅ < fuel) (empty : report visit fuel [s] ∅ = [])
    (reached : Relation.ReflTransGen (fun a b => b ∈ (visit a).2) s x) : (visit x).1 = [] := by
  have outside : ∀ x ∉ U, (fun x => if x ∈ U then (visit x).2 else []) x = [] := fun x hx => if_neg hx
  have work : searchWork (fun x => (false, if x ∈ U then (visit x).2 else [])) U [s] ∅ < fuel := by
    refine lt_of_eq_of_lt (congrArg ([s].length + ·) (Finset.sum_congr rfl fun y hy => ?_)) hfuel
    exact congrArg List.length (if_pos (Finset.mem_sdiff.mp hy).1)
  have known : x ∈ U ∧ Relation.ReflTransGen (fun a b => b ∈ if a ∈ U then (visit a).2 else []) s x := by
    induction reached with
    | refl => exact ⟨start, .refl⟩
    | tail _ hbc ih => exact ⟨closed _ ih.1 _ hbc, ih.2.tail (by rwa [if_pos ih.1])⟩
  have visited := (mem_visits_iff outside work).mpr known.2
  have single : ∀ y ∈ [s], y ∈ U := fun y hy => mem_singleton.mp hy ▸ start
  exact (visits_of_report closed single empty x visited).resolve_left (Finset.notMem_empty x)

end Report

end Flow
