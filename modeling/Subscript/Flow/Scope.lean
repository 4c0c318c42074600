import Mathlib.Data.List.Forall2

/-! Environments with scopes, as lists with the innermost variable first: what stays of one while a program
declares, assigns and leaves its scopes again. -/

namespace Flow

variable {α β : Type}

theorem forall₂_split {R : α → β → Prop} {front back : List α} {l : List β} (h : List.Forall₂ R (front ++ back) l) :
    ∃ front' back', l = front' ++ back' ∧ List.Forall₂ R front front' ∧ List.Forall₂ R back back' :=
  ⟨l.take front.length, l.drop front.length, (List.take_append_drop _ _).symm,
    (List.forall₂_take_append l front back h.flip).flip, (List.forall₂_drop_append l front back h.flip).flip⟩

theorem forall₂_exists_of_mem {R : α → β → Prop} {l : List α} {l' : List β} (h : List.Forall₂ R l l') {b : β} (hb : b ∈ l') :
    ∃ a ∈ l, R a b := by
  induction h with
  | nil => cases hb
  | cons hab _ ih =>
    rcases List.mem_cons.mp hb with rfl | hb
    · exact ⟨_, List.mem_cons_self, hab⟩
    · obtain ⟨a, ha, hR⟩ := ih hb
      exact ⟨a, List.mem_cons_of_mem _ ha, hR⟩

abbrev Scope (α β : Type) := List (α × β)

namespace Scope

/-- the innermost variable of the name gets the value -/
def assign [DecidableEq α] (name : α) (value : β) : Scope α β → Scope α β
  | [] => []
  | (n, v) :: env => if n = name then (n, value) :: env else (n, v) :: assign name value env

/-- what is left of `env` at the end of a scope that began with `outer` -/
def leave (outer env : Scope α β) : Scope α β := env.drop (env.length - outer.length)

/-- the same variables, those of `kept` with the same values -/
def Same (kept : α → Prop) : Scope α β → Scope α β → Prop :=
  List.Forall₂ fun p q => p.1 = q.1 ∧ (kept p.1 → p.2 = q.2)

/-- the same variables, with new ones in front -/
def Kept (kept : α → Prop) (outer env : Scope α β) : Prop :=
  ∃ pushed base, env = pushed ++ base ∧ Same kept outer base

variable {kept kept' : α → Prop} {s s₁ s₂ : Scope α β}

namespace Same

theorem refl (s : Scope α β) : Same kept s s := List.forall₂_same.mpr fun _ _ => ⟨rfl, fun _ => rfl⟩

theorem trans (h : Same kept s s₁) (h' : Same kept s₁ s₂) : Same kept s s₂ := by
  induction h generalizing s₂ with
  | nil => exact h'
  | cons hpq _ ih =>
    obtain _ | ⟨hqr, hrest⟩ := h'
    refine .cons ⟨hpq.1.trans hqr.1, fun hk => ?_⟩ (ih hrest)
    exact (hpq.2 hk).trans (hqr.2 (hpq.1 ▸ hk))

theorem mono (h : Same kept' s s₁) (hsub : ∀ a, kept a → kept' a) : Same kept s s₁ :=
  List.Forall₂.imp (fun _ _ hpq => ⟨hpq.1, fun hk => hpq.2 (hsub _ hk)⟩) h

theorem lookup_eq [DecidableEq α] (h : Same kept s s₁) {name : α} (hk : kept name) : s₁.lookup name = s.lookup name := by
  induction h with
  | nil => rfl
  | @cons p q l l' hpq _ ih =>
    obtain ⟨n, v⟩ := p
    obtain ⟨m, w⟩ := q
    obtain ⟨rfl, hv⟩ := hpq
    by_cases hn : name = n
    · subst hn
      have hw : v = w := hv hk
      simp [hw]
    · have hne : (name == n) = false := beq_false_of_ne hn
      simp [List.lookup_cons, hne, ih]

theorem assign [DecidableEq α] {name : α} (value : β) (hk : ¬ kept name) : Same kept s (assign name value s) := by
  induction s with
  | nil => exact .nil
  | cons p s ih =>
    obtain ⟨n, v⟩ := p
    rw [Scope.assign]
    split
    · next hn => exact .cons ⟨rfl, fun h => absurd (hn ▸ h) hk⟩ (refl s)
    · exact .cons ⟨rfl, fun _ => rfl⟩ ih

theorem cons_inv {name : α} {value : β} (h : Same kept ((name, value) :: s) s₁) (hk : kept name) :
    ∃ base, s₁ = (name, value) :: base ∧ Same kept s base := by
  obtain _ | ⟨hpq, hrest⟩ := h
  next q base =>
    obtain ⟨m, w⟩ := q
    obtain ⟨rfl, hv⟩ := hpq
    obtain rfl : value = w := hv hk
    exact ⟨base, rfl, hrest⟩

end Same

namespace Kept

theorem of_same (h : Same kept s s₁) : Kept kept s s₁ := ⟨[], s₁, rfl, h⟩

theorem push (h : Kept kept s s₁) (p : α × β) : Kept kept s (p :: s₁) := by
  obtain ⟨pushed, base, rfl, hsame⟩ := h
  exact ⟨p :: pushed, base, rfl, hsame⟩

theorem trans (h : Kept kept s s₁) (h' : Kept kept s₁ s₂) : Kept kept s s₂ := by
  obtain ⟨pushed, base, rfl, hsame⟩ := h
  obtain ⟨pushed', base', rfl, hsame'⟩ := h'
  -- the later part has the pushed variables and the base of the earlier one
  obtain ⟨front, back, hsplit, -, hback⟩ := forall₂_split hsame'
  exact ⟨pushed' ++ front, back, by rw [hsplit, List.append_assoc], hsame.trans hback⟩

/-- at the end of the scope the variables that were pushed are gone -/
theorem leave_same (h : Kept kept s s₁) : Same kept s (leave s s₁) := by
  obtain ⟨pushed, base, rfl, hsame⟩ := h
  have hlen : s.length = base.length := hsame.length_eq
  have hdrop : leave s (pushed ++ base) = base := by
    rw [leave, List.length_append, hlen, Nat.add_sub_cancel, List.drop_left]
  rwa [hdrop]

end Kept

theorem leave_of_length (h : s.length = s₁.length) : leave s s₁ = s₁ := by simp [leave, h]

end Scope

end Flow
