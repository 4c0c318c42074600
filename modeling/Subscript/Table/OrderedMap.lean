import Mathlib.Data.List.Basic

/-! Finite maps that remember the order in which their keys were first set. The keys are compared with a relation of
the caller's. -/

namespace Table

abbrev OrderedMap (K V : Type) := List (K × V)

namespace OrderedMap

variable {K V : Type} (same : K → K → Bool)

def find (m : OrderedMap K V) (key : K) : Option V := (m.find? fun p => same p.1 key).map Prod.snd

/-- a key that is there keeps its place, a new one goes to the end -/
def set (m : OrderedMap K V) (key : K) (value : V) : OrderedMap K V :=
  if (find same m key).isSome then m.map fun p => if same p.1 key then (p.1, value) else p else m ++ [(key, value)]

def erase (m : OrderedMap K V) (key : K) : OrderedMap K V := m.filter fun p => !same p.1 key

variable {same} {m before after : OrderedMap K V} {key stored : K} {value old : V}

section

variable (h : ∀ p ∈ m, same p.1 key = false)

include h

theorem find_absent : find same m key = none := by
  have : m.find? (fun p => same p.1 key) = none := List.find?_eq_none.mpr fun p hp => by simp [h p hp]
  rw [find, this]
  rfl

theorem set_absent : set same m key value = m ++ [(key, value)] := by
  rw [set, find_absent h]
  rfl

theorem erase_absent : erase same m key = m :=
  List.filter_eq_self.mpr fun p hp => by simp [h p hp]

end

/-! A map with the key in it is split at the pair that holds it. -/

section

variable (hbefore : ∀ p ∈ before, same p.1 key = false)

include hbefore

theorem find_split (h : same stored key) :
    find same (before ++ (stored, old) :: after) key = some old := by
  have : before.find? (fun p => same p.1 key) = none := List.find?_eq_none.mpr fun p hp => by simp [hbefore p hp]
  simp [find, List.find?_append, this, h]

theorem set_split (h : same stored key)
    (hafter : ∀ p ∈ after, same p.1 key = false) :
    set same (before ++ (stored, old) :: after) key value = before ++ (stored, value) :: after := by
  have hsame : ∀ m : OrderedMap K V, (∀ p ∈ m, same p.1 key = false) →
      m.map (fun p => if same p.1 key then (p.1, value) else p) = m := by
    intro m hm
    refine (List.map_congr_left fun p hp => ?_).trans (List.map_id m)
    rw [hm p hp]
    rfl
  rw [set, find_split hbefore h, if_pos Option.isSome_some, List.map_append, List.map_cons, hsame before hbefore,
    hsame after hafter, if_pos h]

theorem erase_split (h : same stored key)
    (hafter : ∀ p ∈ after, same p.1 key = false) :
    erase same (before ++ (stored, old) :: after) key = before ++ after := by
  have hgone : erase same ((stored, old) :: after) key = erase same after key := by simp [erase, h]
  rw [erase, List.filter_append]
  exact congrArg₂ _ (erase_absent hbefore) (hgone.trans (erase_absent hafter))

end

end OrderedMap

end Table
