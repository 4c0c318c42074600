import Subscript.Runtime.AssocRefines
import Mathlib.Algebra.Group.Nat.Defs
import Mathlib.Logic.Function.Basic

/-! The operations on two sets (`assocops.rs`): they visit the entries of one set in order, skip the holes, and ask the other
one. Which set is the smaller one is decided on counts that are cast to 32 bits. -/

namespace Subscript.Runtime

open List Table

instance : (kind : KeyKind) → DecidableEq (KeySlot kind)
  | .bits width => inferInstanceAs (DecidableEq (BitVec width.bits))
  | .f32 => inferInstanceAs (DecidableEq (BitVec 32))
  | .f64 => inferInstanceAs (DecidableEq (BitVec 64))
  | .str => inferInstanceAs (DecidableEq (Option (List UInt8)))
  | .ref => inferInstanceAs (DecidableEq (BitVec 64))

variable {kind : KeyKind}

namespace AssocHeader

/-- `ordered_keys`: the keys of the active entries -/
def keys (h : AssocHeader kind Unit) : List (KeySlot kind) := h.entries.reduceOption.map Entry.key

theorem keys_eq (h : AssocHeader kind Unit) : h.keys = h.walk.map Prod.fst := by
  rw [walk, map_map]
  rfl

variable (left right : AssocHeader kind Unit)

def setIsSubsetOf : Bool := left.size ≤ right.size && left.keys.all right.has

def setIsSupersetOf : Bool := right.size ≤ left.size && right.keys.all left.has

def setIsDisjointFrom : Bool :=
  let (source, other) := if left.size ≤ right.size then (left, right) else (right, left)
  !source.keys.any other.has

end AssocHeader

/-- the sets of a Context, by their handles -/
abbrev Sets (kind : KeyKind) := Nat → Option (AssocHeader kind Unit)

namespace Sets

/-- with a set and an answer, only the keys for which the set gives the answer are inserted -/
def skips (sets : Sets kind) (membership : Option (Nat × Bool)) (key : KeySlot kind) : Option Bool :=
  membership.elim (some false) fun (other, wanted) => (sets other).map fun set => set.has key != wanted

/-- the entries of the source from an index on; they and the other set are read as they are when an entry is reached -/
def insertFrom (out source : Nat) (membership : Option (Nat × Bool)) : Nat → Nat → Sets kind → Option (Sets kind)
  | 0, _, _ => none
  | fuel + 1, index, sets => do
    match (← sets source).entries[index]? with
    | none => return sets
    | some none => insertFrom out source membership fuel (index + 1) sets
    | some (some entry) =>
      if ← sets.skips membership entry.key then insertFrom out source membership fuel (index + 1) sets
      else
        let set ← (← sets out).insert entry.key ()
        insertFrom out source membership fuel (index + 1) (Function.update sets out (some set))

def setInsertOrdered (sets : Sets kind) (out source : Nat) (membership : Option (Nat × Bool)) : Option (Sets kind) := do
  insertFrom out source membership ((← sets source).entries.length + 1) 0 sets

/-- `new_set_like` at a handle that no set has -/
def newSetLike (sets : Sets kind) (out : Nat) : Sets kind := Function.update sets out (some .new)

variable (sets : Sets kind) (out left right : Nat)

def setUnion : Option (Sets kind) := do
  let sets ← (sets.newSetLike out).setInsertOrdered out left none
  sets.setInsertOrdered out right none

def setIntersection : Option (Sets kind) := do
  let sets := sets.newSetLike out
  let (source, other) := if (← sets left).size ≤ (← sets right).size then (left, right) else (right, left)
  sets.setInsertOrdered out source (some (other, true))

def setDifference : Option (Sets kind) := (sets.newSetLike out).setInsertOrdered out left (some (right, false))

def setSymmetricDifference : Option (Sets kind) := do
  let sets ← (sets.newSetLike out).setInsertOrdered out left (some (right, false))
  sets.setInsertOrdered out right (some (left, false))

end Sets

/-! ### The operations of ES2024 on lists without duplicates -/

section Abstract

variable {α : Type} [DecidableEq α] (a b : List α)

def listUnion : List α := a ++ b.filter (· ∉ a)

/-- the smaller one is visited, and `a` if none is -/
def listIntersection : List α := if a.length ≤ b.length then a.filter (· ∈ b) else b.filter (· ∈ a)

def listDifference : List α := a.filter (· ∉ b)

def listSymmetricDifference : List α := listDifference a b ++ listDifference b a

end Abstract

/-- a set that a script can have made -/
structure LiveSet (kind : KeyKind) where
  header : AssocHeader kind Unit
  inv : header.Inv

/-- two sets, or one set twice, and the handle at which the allocator makes the result -/
structure SetOperands (kind : KeyKind) where
  sets : Sets kind
  left : Nat
  right : Nat
  out : Nat
  a : LiveSet kind
  b : LiveSet kind
  isLeft : sets left = some a.header
  isRight : sets right = some b.header
  free : sets out = none

namespace LiveSet

def keys (s : LiveSet kind) : List (KeySlot kind) := s.header.keys

/-- the sets after the fresh one was made, and no other one has changed -/
def after (sets : Sets kind) (out : Nat) (s : LiveSet kind) : Sets kind := Function.update sets out (some s.header)

/-- a fresh set was made, with these keys, and no other set has changed -/
def Gives (sets : Sets kind) (out : Nat) (made : Option (Sets kind)) (keys : List (KeySlot kind)) : Prop :=
  ∃ s : LiveSet kind, made = some (s.after sets out) ∧ s.keys = keys

/-- what is asked of the operations on two sets -/
structure Correct (o : SetOperands kind) : Prop where
  union : Gives o.sets o.out (o.sets.setUnion o.out o.left o.right) (listUnion o.a.keys o.b.keys)
  intersection : Gives o.sets o.out (o.sets.setIntersection o.out o.left o.right) (listIntersection o.a.keys o.b.keys)
  difference : Gives o.sets o.out (o.sets.setDifference o.out o.left o.right) (listDifference o.a.keys o.b.keys)
  symmetricDifference :
    Gives o.sets o.out (o.sets.setSymmetricDifference o.out o.left o.right) (listSymmetricDifference o.a.keys o.b.keys)
  subset : o.a.header.setIsSubsetOf o.b.header = true ↔ o.a.keys ⊆ o.b.keys
  superset : o.a.header.setIsSupersetOf o.b.header = true ↔ o.b.keys ⊆ o.a.keys
  disjoint : o.a.header.setIsDisjointFrom o.b.header = true ↔ o.a.keys.Disjoint o.b.keys

/-- a count as a signed number of 32 bits -/
def int32 (n : Nat) : Int := (BitVec.ofNat 32 n).toInt

/-- A set that lies in the other one has not the larger count, and the counts compare as the sets do unless the common elements
stand in the same order in both. -/
structure CountsAgree (a b : LiveSet kind) : Prop where
  left : a.keys ⊆ b.keys → int32 a.keys.length ≤ int32 b.keys.length
  right : b.keys ⊆ a.keys → int32 b.keys.length ≤ int32 a.keys.length
  order : (int32 a.keys.length ≤ int32 b.keys.length ↔ a.keys.length ≤ b.keys.length) ∨
    a.keys.filter (· ∈ b.keys) = b.keys.filter (· ∈ a.keys)

section

variable (s : LiveSet kind)

include s

theorem size_eq : s.header.size = int32 s.keys.length := by
  rw [AssocHeader.size, int32, keys, AssocHeader.keys, length_map, s.inv.len]

theorem nodup : s.keys.Nodup := s.inv.distinct

theorem stored {key : KeySlot kind} (mem : key ∈ s.keys) : storedKey kind key = key := by
  obtain ⟨x, hx, rfl⟩ := mem_map.mp mem
  exact (s.inv.stored x hx).2

variable {key : KeySlot kind}

theorem has_iff (stored : storedKey kind key = key) : s.header.has key = true ↔ key ∈ s.keys := by
  rw [AssocHeader.has, AssocHeader.findEntry_eq]
  cases hentry : (s.header.lookup key (hashKey kind key)).entry with
  | none =>
    refine iff_of_false Bool.false_ne_true fun mem => ?_
    obtain ⟨x, hx, is⟩ := mem_map.mp mem
    exact s.inv.lookup_none hentry x hx (is.trans stored.symm)
  | some e =>
    refine iff_of_true rfl ?_
    obtain ⟨-, -, x, hx, is⟩ := s.inv.lookup_some hentry
    exact mem_map.mpr ⟨x, AssocHeader.mem_active.mpr ⟨e, hx⟩, is.trans stored⟩

theorem exists_insert (stored : storedKey kind key = key) :
    ∃ s' : LiveSet kind, s.header.insert key () = some s'.header ∧
      s'.keys = if key ∈ s.keys then s.keys else s.keys ++ [key] := by
  obtain ⟨h', is, inv, walk⟩ := s.inv.insert_eq key ()
  refine ⟨⟨h', inv⟩, is, ?_⟩
  rw [keys, AssocHeader.keys_eq, walk, stored, OrderedMap.set, ← s.inv.has_eq]
  by_cases mem : key ∈ s.keys
  · rw [if_pos mem, if_pos ((s.has_iff stored).mpr mem), map_map, keys, AssocHeader.keys_eq]
    refine map_congr_left fun p _ => ?_
    rw [Function.comp_apply]
    split_ifs <;> rfl
  · rw [if_neg mem, if_neg fun has => mem ((s.has_iff stored).mp has), map_append, keys, AssocHeader.keys_eq]
    rfl

end

/-! ### The insertions at a fresh handle -/

def empty : LiveSet kind := ⟨.new, AssocHeader.inv_new⟩

section Store

variable {sets : Sets kind} {out : Nat} (free : sets out = none)

include free

variable {h : AssocHeader kind Unit}

theorem after_of_some {handle : Nat} (is : sets handle = some h) (s : LiveSet kind) :
    s.after sets out handle = some h := by
  have ne : handle ≠ out := by
    rintro rfl
    exact Option.some_ne_none h (is.symm.trans free)
  rw [after, Function.update_of_ne ne, is]

variable {membership : Option (Nat × Bool)} {p : KeySlot kind → Bool}

/-- the keys with the property that stand from the index on are appended, unless they are there -/
theorem exists_insertFrom {source index : Nat} {rest : List (Option (Entry kind Unit))} (is : sets source = some h)
    (isRest : h.entries.drop index = rest)
    (answers : ∀ key ∈ rest.reduceOption.map Entry.key, ∀ s : LiveSet kind,
      (s.after sets out).skips membership key = some (!p key))
    (stored : ∀ key ∈ rest.reduceOption.map Entry.key, storedKey kind key = key)
    (nodup : (rest.reduceOption.map Entry.key).Nodup) (s : LiveSet kind) :
    ∃ s' : LiveSet kind,
      Sets.insertFrom out source membership (rest.length + 1) index (s.after sets out) = some (s'.after sets out) ∧
      s'.keys = s.keys ++ ((rest.reduceOption.map Entry.key).filter p).filter (· ∉ s.keys) := by
  induction rest generalizing index s with
  | nil =>
    have reached : h.entries[index]? = none := by rw [← head?_drop, isRest, head?_nil]
    refine ⟨s, ?_, (append_nil _).symm⟩
    simp only [Sets.insertFrom, after_of_some free is, Option.bind_eq_bind, Option.bind_some, reached, Option.pure_def]
  | cons entry rest ih =>
    have reached : h.entries[index]? = some entry := by rw [← head?_drop, isRest, head?_cons]
    have next : h.entries.drop (index + 1) = rest := by rw [← tail_drop, isRest, tail_cons]
    cases entry with
    | none =>
      obtain ⟨s', returns, keys⟩ := ih next answers stored nodup s
      refine ⟨s', ?_, keys⟩
      simp only [Sets.insertFrom, after_of_some free is, Option.bind_eq_bind, Option.bind_some, reached]
      exact returns
    | some entry =>
      rw [reduceOption_cons_of_some, map_cons] at answers stored nodup ⊢
      obtain ⟨answer, answers⟩ := forall_mem_cons.mp answers
      obtain ⟨isKey, stored⟩ := forall_mem_cons.mp stored
      obtain ⟨fresh, nodup⟩ := nodup_cons.mp nodup
      cases wanted : p entry.key with
      | false =>
        obtain ⟨s', returns, keys⟩ := ih next answers stored nodup s
        refine ⟨s', ?_, by rw [keys, filter_cons_of_neg (by simp [wanted])]⟩
        rw [wanted] at answer
        simp only [Sets.insertFrom, after_of_some free is, Option.bind_eq_bind, Option.bind_some, reached, answer,
          Bool.not_false, if_true]
        exact returns
      | true =>
        obtain ⟨s₁, inserts, keys₁⟩ := s.exists_insert isKey
        obtain ⟨s', returns, keys⟩ := ih next answers stored nodup s₁
        have isOut : s.after sets out out = some s.header := Function.update_self ..
        have updated : Function.update (s.after sets out) out (some s₁.header) = s₁.after sets out := Function.update_idem ..
        refine ⟨s', ?_, ?_⟩
        · rw [wanted] at answer
          simp only [Sets.insertFrom, after_of_some free is, Option.bind_eq_bind, Option.bind_some, reached, answer,
            Bool.not_true, Bool.false_eq_true, if_false, isOut, inserts, updated]
          exact returns
        · rw [keys, keys₁, filter_cons_of_pos wanted]
          by_cases mem : entry.key ∈ s.keys
          · rw [if_pos mem, filter_cons_of_neg (by simp [mem])]
          · have other : ∀ k ∈ (rest.reduceOption.map Entry.key).filter p,
                decide (k ∉ s.keys ++ [entry.key]) = decide (k ∉ s.keys) := by
              intro k hk
              have ne : k ≠ entry.key := fun is => fresh (is ▸ (mem_filter.mp hk).1)
              simp [ne]
            rw [if_neg mem, filter_cons_of_pos (by simp [mem]), append_assoc, singleton_append, filter_congr other]

variable {x y : Nat} {a b : LiveSet kind} (isX : sets x = some a.header)

include isX

theorem exists_insertOrdered
    (answers : ∀ key ∈ a.keys, ∀ s : LiveSet kind, (s.after sets out).skips membership key = some (!p key))
    (s : LiveSet kind) :
    ∃ s' : LiveSet kind, (s.after sets out).setInsertOrdered out x membership = some (s'.after sets out) ∧
      s'.keys = s.keys ++ (a.keys.filter p).filter (· ∉ s.keys) := by
  rw [Sets.setInsertOrdered, after_of_some free isX]
  exact exists_insertFrom free isX (drop_zero ..) answers (fun _ => a.stored) a.nodup s

theorem exists_inserted (s : LiveSet kind) :
    ∃ s' : LiveSet kind, (s.after sets out).setInsertOrdered out x none = some (s'.after sets out) ∧
      s'.keys = s.keys ++ a.keys.filter (· ∉ s.keys) := by
  have answers : ∀ key ∈ a.keys, ∀ s : LiveSet kind, (s.after sets out).skips none key = some !true := fun _ _ _ => rfl
  obtain ⟨s', returns, keys⟩ := exists_insertOrdered free isX answers s
  exact ⟨s', returns, by rw [keys, filter_eq_self.mpr fun _ _ => rfl]⟩

variable (isY : sets y = some b.header)

include isY

/-- one set is visited and the other one asked -/
theorem exists_asked (wanted : Bool) (s : LiveSet kind) :
    ∃ s' : LiveSet kind, (s.after sets out).setInsertOrdered out x (some (y, wanted)) = some (s'.after sets out) ∧
      s'.keys = s.keys ++ (a.keys.filter fun key => decide (key ∈ b.keys) == wanted).filter (· ∉ s.keys) := by
  refine exists_insertOrdered free isX (fun key mem s => ?_) s
  have answer := b.has_iff (a.stored mem)
  simp only [Sets.skips, Option.elim_some, after_of_some free isY, Option.map_some]
  cases has : b.header.has key <;> cases wanted <;> simp_all

theorem asked_empty (wanted : Bool) : Gives sets out ((sets.newSetLike out).setInsertOrdered out x (some (y, wanted)))
    (a.keys.filter fun key => decide (key ∈ b.keys) == wanted) := by
  obtain ⟨s, returns, keys⟩ := exists_asked free isX isY wanted empty
  exact ⟨s, returns, keys.trans (filter_eq_self.mpr fun _ _ => rfl)⟩

theorem union_gives : Gives sets out (sets.setUnion out x y) (listUnion a.keys b.keys) := by
  obtain ⟨s, first, keys⟩ := exists_inserted free isX empty
  obtain ⟨s', second, keys'⟩ := exists_inserted free isY s
  have visited : s.keys = a.keys := keys.trans (filter_eq_self.mpr fun _ _ => rfl)
  refine ⟨s', (congrArg (· >>= _) first).trans second, ?_⟩
  rw [keys', visited, listUnion]

theorem difference_gives : Gives sets out (sets.setDifference out x y) (listDifference a.keys b.keys) := by
  have gives := asked_empty free isX isY false
  simp only [beq_false, ← decide_not] at gives
  exact gives

theorem symmetricDifference_gives :
    Gives sets out (sets.setSymmetricDifference out x y) (listSymmetricDifference a.keys b.keys) := by
  obtain ⟨s, first, keys⟩ := difference_gives free isX isY
  obtain ⟨s', second, keys'⟩ := exists_asked free isY isX false s
  refine ⟨s', (congrArg (· >>= _) first).trans second, ?_⟩
  simp only [beq_false, ← decide_not] at keys'
  rw [keys', keys, filter_eq_self.mpr fun key mem => ?_]
  · rfl
  · have other := of_decide_eq_true (mem_filter.mp mem).2
    exact decide_eq_true fun mem => other (mem_filter.mp mem).1

theorem intersection_gives : Gives sets out (sets.setIntersection out x y)
    (if int32 a.keys.length ≤ int32 b.keys.length then a.keys.filter (· ∈ b.keys) else b.keys.filter (· ∈ a.keys)) := by
  have isLeft : sets.newSetLike out x = some a.header := after_of_some free isX empty
  have isRight : sets.newSetLike out y = some b.header := after_of_some free isY empty
  rw [Sets.setIntersection, isLeft, isRight, ← size_eq, ← size_eq]
  have one := asked_empty free isX isY true
  have other := asked_empty free isY isX true
  simp only [beq_true] at one other
  simp only [Option.bind_eq_bind, Option.bind_some]
  split_ifs
  · exact one
  · exact other

end Store

/-! ### The relations -/

variable (a b : LiveSet kind)

theorem all_has : a.keys.all b.header.has = true ↔ a.keys ⊆ b.keys := by
  rw [all_eq_true]
  exact forall₂_congr fun key mem => b.has_iff (a.stored mem)

theorem not_any_has : (!a.keys.any b.header.has) = true ↔ a.keys.Disjoint b.keys := by
  rw [Bool.not_eq_true', any_eq_false]
  exact forall₂_congr fun key mem => not_congr (b.has_iff (a.stored mem))

theorem disjoint_iff : a.header.setIsDisjointFrom b.header = true ↔ a.keys.Disjoint b.keys := by
  rw [AssocHeader.setIsDisjointFrom]
  split_ifs
  · exact a.not_any_has b
  · exact (b.not_any_has a).trans disjoint_comm

theorem subset_iff : a.header.setIsSubsetOf b.header = true ↔
    int32 a.keys.length ≤ int32 b.keys.length ∧ a.keys ⊆ b.keys := by
  rw [AssocHeader.setIsSubsetOf, Bool.and_eq_true, decide_eq_true_eq, size_eq, size_eq]
  exact and_congr_right fun _ => a.all_has b

theorem Gives.unique {sets : Sets kind} {out : Nat} {made : Option (Sets kind)} {keys keys' : List (KeySlot kind)}
    (h : Gives sets out made keys) (h' : Gives sets out made keys') : keys = keys' := by
  obtain ⟨s, is, rfl⟩ := h
  obtain ⟨s', is', rfl⟩ := h'
  have same := congrFun (Option.mem_unique is is') out
  rw [after, after, Function.update_self, Function.update_self] at same
  exact congrArg AssocHeader.keys (Option.some.inj same)

/-- The operations on two sets are those of ES2024, with holes in the entries or not and also on one set twice, as far as the
counts agree with the sets; the result is a fresh set, and no other set changes. -/
theorem correct_iff (o : SetOperands kind) : Correct o ↔ o.a.CountsAgree o.b := by
  have superset : o.a.header.setIsSupersetOf o.b.header = o.b.header.setIsSubsetOf o.a.header := rfl
  have intersection := intersection_gives o.free o.isLeft o.isRight
  constructor
  · intro correct
    refine ⟨fun sub => ((subset_iff ..).mp (correct.subset.mpr sub)).1, fun sub => ?_, ?_⟩
    · exact ((subset_iff ..).mp (superset ▸ correct.superset.mpr sub)).1
    · have keys := intersection.unique correct.intersection
      rw [listIntersection] at keys
      split_ifs at keys with counts lengths lengths
      · exact .inl (iff_of_true counts lengths)
      · exact .inr keys
      · exact .inr keys.symm
      · exact .inl (iff_of_false counts lengths)
  · intro agree
    refine ⟨union_gives o.free o.isLeft o.isRight, ?_, difference_gives o.free o.isLeft o.isRight,
      symmetricDifference_gives o.free o.isLeft o.isRight, ?_, ?_, disjoint_iff ..⟩
    · rcases agree.order with counts | same
      · rwa [if_congr counts rfl rfl] at intersection
      · rw [listIntersection]
        rw [same, ite_self] at intersection ⊢
        exact intersection
    · rw [subset_iff]
      exact and_iff_right_of_imp agree.left
    · rw [superset, subset_iff]
      exact and_iff_right_of_imp agree.right

theorem exists_numbers {n : Nat} (few : n ≤ 2 ^ 32) :
    ∃ s : LiveSet (.bits .four), s.keys = (List.range n).map (BitVec.ofNat 32) := by
  obtain ⟨h, -, inv, walk⟩ := assocRun_refines (addKeys n) AssocHeader.inv_new
  refine ⟨⟨h, inv⟩, ?_⟩
  rw [keys, AssocHeader.keys_eq, walk]
  exact (congrArg (List.map Prod.fst) (specRun_addKeys n few)).trans (by rw [map_map]; rfl)

/-- the set of the number zero is not found to lie in that of the numbers below 2^31 -/
theorem subset_of_many : ∃ a b : LiveSet (.bits .four), a.keys = (List.range 1).map (BitVec.ofNat 32) ∧
    b.keys = (List.range (2 ^ 31)).map (BitVec.ofNat 32) ∧ a.keys ⊆ b.keys ∧ a.header.setIsSubsetOf b.header = false := by
  obtain ⟨a, isA⟩ := exists_numbers (show 1 ≤ 2 ^ 32 by decide)
  obtain ⟨b, isB⟩ := exists_numbers (show 2 ^ 31 ≤ 2 ^ 32 by decide)
  refine ⟨a, b, isA, isB, ?_, ?_⟩
  · rw [isA, isB]
    exact map_subset _ (range_subset.mpr (by decide))
  · refine Bool.eq_false_iff.mpr fun is => ?_
    have counts := ((a.subset_iff b).mp is).1
    rw [isA, isB, length_map, length_map, length_range, length_range] at counts
    exact absurd counts (by decide)

end LiveSet

end Subscript.Runtime
