import Mathlib.Data.List.Basic
import Mathlib.Data.Nat.ModEq

/-! Tables with open addressing and linear probing, with tombstones for what was removed: the slots name the
entries of a list kept elsewhere. An entry is found on the path from its home slot, before the first empty
slot. -/

namespace Table

inductive Slot where
  | empty
  | tombstone
  | entry (index : Nat)
  deriving DecidableEq

def Slot.isEntry : Slot → Bool
  | .entry _ => true
  | _ => false

@[simp]
theorem Slot.isEntry_entry (index : Nat) : (Slot.entry index).isEntry = true := rfl

/-- the slot after `offset` steps from the home slot -/
def pathAt (cap home offset : Nat) : Nat := (home + offset) % cap

section Path

variable {cap home : Nat}

theorem pathAt_lt (h : 0 < cap) (home offset : Nat) : pathAt cap home offset < cap := Nat.mod_lt _ h

theorem pathAt_zero (h : home < cap) : pathAt cap home 0 = home := Nat.mod_eq_of_lt h

theorem pathAt_succ (offset : Nat) : pathAt cap home (offset + 1) = (pathAt cap home offset + 1) % cap := by
  rw [pathAt, pathAt, Nat.mod_add_mod, Nat.add_assoc]

/-- the path comes to every slot -/
theorem exists_pathAt {b : Nat} (h : b < cap) (home : Nat) : ∃ offset < cap, pathAt cap home offset = b := by
  have hcap : 0 < cap := by omega
  refine ⟨(b + (cap - home % cap)) % cap, Nat.mod_lt _ hcap, ?_⟩
  have hlt := Nat.mod_lt home hcap
  have hsum : home % cap + (b + (cap - home % cap)) = b + cap := by omega
  rw [pathAt, Nat.add_mod_mod, ← Nat.mod_add_mod, hsum, Nat.add_mod_right, Nat.mod_eq_of_lt h]

end Path

variable {slots : List Slot} {home : Nat → Option Nat} {start b e : Nat}

/-- the slot is on the path, and nothing before it is empty -/
def Reaches (slots : List Slot) (start b : Nat) : Prop :=
  ∃ offset < slots.length, b = pathAt slots.length start offset ∧
    ∀ i < offset, slots[pathAt slots.length start i]? ≠ some .empty

/-- the slots name the entries that have a home slot, each once and where the probing from there finds it -/
structure Indexed (slots : List Slot) (home : Nat → Option Nat) : Prop where
  reached : ∀ b e : Nat, slots[b]? = some (.entry e) → ∃ start, home e = some start ∧ Reaches slots start b
  found : ∀ e start, home e = some start → ∃ b : Nat, slots[b]? = some (.entry e)
  once : ∀ b b' e : Nat, slots[b]? = some (.entry e) → slots[b']? = some (.entry e) → b = b'

theorem indexed_fresh (cap : Nat) : Indexed (List.replicate cap .empty) fun _ => none := by
  have hnone : ∀ b e : Nat, (List.replicate cap Slot.empty)[b]? ≠ some (.entry e) := by
    intro b e h
    rw [List.getElem?_replicate] at h
    split at h <;> cases h
  exact ⟨fun b e h => absurd h (hnone b e), fun _ _ h => (nomatch h), fun b _ e h => absurd h (hnone b e)⟩

theorem getElem?_set_slot {s : Slot} {b' : Nat} (hb : b < slots.length) :
    (slots.set b s)[b']? = if b = b' then some s else slots[b']? := by
  rw [List.getElem?_set, if_pos hb]

/-- no slot becomes empty -/
theorem Reaches.set (h : Reaches slots start e) (s : Slot) (hs : s ≠ .empty) (b : Nat) :
    Reaches (slots.set b s) start e := by
  obtain ⟨offset, hlt, rfl, hbefore⟩ := h
  refine ⟨offset, by rwa [List.length_set], by rw [List.length_set], fun i hi => ?_⟩
  rw [List.length_set, List.getElem?_set]
  split
  · split
    · exact fun h => hs (Option.some.inj h)
    · exact fun h => nomatch h
  · exact hbefore i hi

/-- an entry is put into a free slot that its probing reaches -/
theorem Indexed.place (h : Indexed slots home) (hb : b < slots.length) (hfree : ∀ e', slots[b]? ≠ some (.entry e'))
    (hreach : Reaches slots start b) (hnew : home e = none) :
    Indexed (slots.set b (.entry e)) (Function.update home e (some start)) := by
  have hother : ∀ b' e' : Nat, slots[b']? = some (.entry e') → e' ≠ e := by
    rintro b' _ h' rfl
    obtain ⟨start', hstart, -⟩ := h.reached b' _ h'
    rw [hnew] at hstart
    cases hstart
  constructor
  · intro b' e' h'
    rw [getElem?_set_slot hb] at h'
    split at h'
    · next heq =>
      cases h'
      exact ⟨start, Function.update_self .., heq ▸ hreach.set (.entry e) nofun b⟩
    · obtain ⟨start', hstart, hreach'⟩ := h.reached b' e' h'
      exact ⟨start', by rw [Function.update_of_ne (hother b' e' h'), hstart], hreach'.set (.entry e) nofun b⟩
  · intro e' start' h'
    by_cases he : e' = e
    · exact ⟨b, by rw [getElem?_set_slot hb, if_pos rfl, he]⟩
    · rw [Function.update_of_ne he] at h'
      obtain ⟨b', hb'⟩ := h.found e' start' h'
      have hne : b ≠ b' := fun heq => hfree e' (heq ▸ hb')
      exact ⟨b', by rw [getElem?_set_slot hb, if_neg hne, hb']⟩
  · intro b₁ b₂ e' h₁ h₂
    rw [getElem?_set_slot hb] at h₁ h₂
    split at h₁
    · next heq₁ =>
      cases h₁
      split at h₂
      · next heq₂ => exact heq₁ ▸ heq₂
      · exact absurd rfl (hother b₂ e h₂)
    · split at h₂
      · cases h₂
        exact absurd rfl (hother b₁ e h₁)
      · exact h.once b₁ b₂ e' h₁ h₂

/-- the slot of an entry becomes a tombstone -/
theorem Indexed.bury (h : Indexed slots home) (hb : slots[b]? = some (.entry e)) :
    Indexed (slots.set b .tombstone) (Function.update home e none) := by
  have hlt : b < slots.length := (List.getElem?_eq_some_iff.mp hb).1
  have hold : ∀ {b' e' : Nat}, (slots.set b .tombstone)[b']? = some (.entry e') → e' ≠ e ∧ slots[b']? = some (.entry e') := by
    intro b' e' h'
    rw [getElem?_set_slot hlt] at h'
    split at h'
    · cases h'
    · next hne =>
      refine ⟨?_, h'⟩
      rintro rfl
      exact hne (h.once b b' _ hb h')
  constructor
  · intro b' e' h'
    obtain ⟨hne, h'⟩ := hold h'
    obtain ⟨start', hstart, hreach⟩ := h.reached b' e' h'
    exact ⟨start', by rw [Function.update_of_ne hne, hstart], hreach.set .tombstone nofun b⟩
  · intro e' start' h'
    by_cases he : e' = e
    · rw [he, Function.update_self] at h'
      cases h'
    · rw [Function.update_of_ne he] at h'
      obtain ⟨b', hb'⟩ := h.found e' start' h'
      have hne : b ≠ b' := by
        rintro rfl
        rw [hb] at hb'
        exact he (Slot.entry.inj (Option.some.inj hb')).symm
      exact ⟨b', by rw [getElem?_set_slot hlt, if_neg hne, hb']⟩
  · intro b₁ b₂ e' h₁ h₂
    exact h.once b₁ b₂ e' (hold h₁).2 (hold h₂).2

/-- probing for an entry that is there comes to it before it comes to an empty slot -/
theorem Indexed.before_empty (h : Indexed slots home) (he : home e = some start) {offset : Nat}
    (hempty : slots[pathAt slots.length start offset]? = some .empty) :
    ∃ i < offset, slots[pathAt slots.length start i]? = some (.entry e) := by
  obtain ⟨b, hb⟩ := h.found e start he
  obtain ⟨start', hstart, i, hi, rfl, hbefore⟩ := h.reached b e hb
  obtain rfl : start = start' := Option.mem_unique he hstart
  refine ⟨i, ?_, hb⟩
  by_contra hle
  rcases Nat.lt_or_ge offset i with hlt | hge
  · exact hbefore offset hlt hempty
  · obtain rfl : i = offset := by omega
    rw [hb] at hempty
    cases hempty

/-- a slot is empty, a tombstone or an entry -/
theorem length_eq_counts (slots : List Slot) :
    slots.length = slots.count .empty + slots.count .tombstone + slots.countP Slot.isEntry := by
  induction slots with
  | nil => rfl
  | cons s slots ih =>
    cases s <;> simp [Slot.isEntry, List.countP_cons, ih] <;> omega

/-- the probing comes to an empty slot if there is one -/
theorem exists_empty (start : Nat) (h : slots.count .tombstone + slots.countP Slot.isEntry < slots.length) :
    ∃ offset < slots.length, slots[pathAt slots.length start offset]? = some .empty := by
  have hpos : 0 < slots.count .empty := by
    have := length_eq_counts slots
    omega
  obtain ⟨b, hb⟩ := List.mem_iff_getElem?.mp (List.count_pos_iff.mp hpos)
  obtain ⟨offset, hlt, heq⟩ := exists_pathAt (List.getElem?_eq_some_iff.mp hb).1 start
  exact ⟨offset, hlt, heq ▸ hb⟩

/-- what a slot becomes changes the counts by what it was -/
theorem counts_set {s t : Slot} (h : slots[b]? = some s) :
    (slots.set b t).count .tombstone + (if s = .tombstone then 1 else 0) =
        slots.count .tombstone + (if t = .tombstone then 1 else 0) ∧
      (slots.set b t).countP Slot.isEntry + (if s.isEntry then 1 else 0) =
        slots.countP Slot.isEntry + (if t.isEntry then 1 else 0) := by
  induction slots generalizing b with
  | nil => cases h
  | cons s' slots ih =>
    cases b with
    | zero =>
      cases h
      simp only [List.set_cons_zero, List.count_cons, List.countP_cons, beq_iff_eq]
      omega
    | succ b =>
      have := ih h
      simp only [List.set_cons_succ, List.count_cons, List.countP_cons]
      omega

end Table
