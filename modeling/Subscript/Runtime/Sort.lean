import Mathlib.Data.List.Sort

/-! `sort` of `arrops.rs`: the bottom-up merge sort over a copy of the array, with a comparator that is script code. -/

namespace Subscript.Runtime.Sort

open List

inductive ElemKind where
  | int | signedInt | f32 | f64 | str | f16

inductive Abi where
  | u8 | u16 | u32 | u64 | s8 | s16 | i32 | i64 | f32 | f64

def abiOf : ElemKind → Nat → Option Abi
  | .f32, size => if size = 4 then some .f32 else none
  | .f64, size => if size = 8 then some .f64 else none
  | .f16, size => if size = 2 then some .u16 else none
  | .int, 1 | .str, 1 => some .u8
  | .int, 2 | .str, 2 => some .u16
  | .int, 4 | .str, 4 => some .u32
  | .int, 8 | .str, 8 => some .u64
  | .signedInt, 1 => some .s8
  | .signedInt, 2 => some .s16
  | .signedInt, 4 => some .i32
  | .signedInt, 8 => some .i64
  | _, _ => none

variable {T ω : Type}

/-- What a comparator can change: the array that is being sorted, `none` for the null handle and once it is freed, whether
the Context has trapped, and everything else. -/
structure Heap (T ω : Type) where
  array : Option (List T)
  trapped : Bool
  world : ω

/-- `(ctx, env, T, T) -> i32`: the answer, and the heap that the call leaves -/
abbrev Comparator (T ω : Type) := T → T → Heap T ω → Int × Heap T ω

/-- The inner loops over one pair of runs. `out` is `tmp[..k]`: what stands behind `k` is written before it is read. -/
def merge (code : Comparator T ω) : List T → List T → List T → Heap T ω → Option (List T) × Heap T ω
  | l :: left, r :: right, out, heap =>
    let (c, heap) := code l r heap
    if heap.trapped then (none, heap)
    else if c ≤ 0 then merge code left (r :: right) (out ++ [l]) heap
    else merge code (l :: left) right (out ++ [r]) heap
  | left, right, out, heap => (some (out ++ left ++ right), heap)
termination_by left right => left.length + right.length

/-- one round, from `lo` on -/
def pass (code : Comparator T ω) (a : List T) (width : Nat) (positive : 0 < width) (lo : Nat) (tmp : List T)
    (heap : Heap T ω) : Option (List T) × Heap T ω :=
  if lo < a.length then
    let mid := min (lo + width) a.length
    let hi := min (lo + 2 * width) a.length
    match merge code (a.extract lo mid) (a.extract mid hi) tmp heap with
    | (none, heap) => (none, heap)
    | (some tmp, heap) => pass code a width positive (lo + 2 * width) tmp heap
  else (some tmp, heap)
termination_by a.length - lo

/-- `merge_sort_by`; the two buffers change places after every round -/
def mergeSortBy (code : Comparator T ω) (n width : Nat) (positive : 0 < width) (a : List T) (heap : Heap T ω) :
    Option (List T) × Heap T ω :=
  if width < n then
    match pass code a width positive 0 [] heap with
    | (none, heap) => (none, heap)
    | (some tmp, heap) => mergeSortBy code n (2 * width) (by omega) tmp heap
  else (some a, heap)
termination_by n - width

/-- `len_of` with the diagnostics of the dev policy, which trap on a handle that is not live; the ship policy reads on -/
def lenOf (heap : Heap T ω) : Nat × Heap T ω :=
  match heap.array with
  | none => (0, { heap with trapped := true })
  | some a => (a.length, heap)

def sort (code : Option (Comparator T ω)) (kind : ElemKind) (elemSize : Nat) (heap : Heap T ω) : Heap T ω :=
  match heap.array, code with
  | some elements, some code =>
    if heap.trapped then heap
    else if (abiOf kind elemSize).isNone then { heap with trapped := true }
    else if elements.length < 2 then heap
    else
      match mergeSortBy code elements.length 1 Nat.one_pos elements heap with
      | (none, heap) => heap
      | (some buf, heap) =>
        let (n, heap) := lenOf heap
        if n ≠ elements.length then heap else { heap with array := some buf }
  | _, _ => heap

/-! ### What a comparator may do, and what is asked of a good one -/

/-- the second heap is what some calls make of the first -/
def Calls (code : Comparator T ω) : Heap T ω → Heap T ω → Prop :=
  Relation.ReflTransGen fun heap heap' => ∃ x y, heap' = (code x y heap).2

/-- the answers are those of a total preorder, whatever else the calls change -/
structure Orders (code : Comparator T ω) (le : T → T → Bool) : Prop where
  trans : ∀ x y z, le x y = true → le y z = true → le x z = true
  total : ∀ x y, (le x y || le y x) = true
  sign : ∀ x y heap, (code x y heap).1 ≤ 0 ↔ le x y = true

def same (le : T → T → Bool) (z x : T) : Bool := le z x && le x z

/-- elements that compare as equal stand in `b` as they do in `a` -/
def Stable (le : T → T → Bool) (a b : List T) : Prop := ∀ z, b.filter (same le z) = a.filter (same le z)

/-- the calls have trapped, or they have left a list with the property -/
def Outcome (code : Comparator T ω) (heap : Heap T ω) (P : List T → Prop) (r : Option (List T) × Heap T ω) : Prop :=
  Calls code heap r.2 ∧ match r.1 with
    | none => r.2.trapped = true
    | some out => P out

section

variable {code : Comparator T ω} {le : T → T → Bool}

/-- what happens after some calls -/
theorem Outcome.after {heap heap' : Heap T ω} {P Q : List T → Prop} {r : Option (List T) × Heap T ω}
    (h : Outcome code heap' P r) (calls : Calls code heap heap') (imp : ∀ out, P out → Q out) : Outcome code heap Q r := by
  obtain ⟨_ | out, last⟩ := r
  · exact ⟨calls.trans h.1, h.2⟩
  · exact ⟨calls.trans h.1, imp out h.2⟩

theorem merge_outcome (code : Comparator T ω) (le : T → T → Bool) (left right out : List T) (heap : Heap T ω) :
    Outcome code heap (fun res => ∃ m, res = out ++ m ∧ m.Perm (left ++ right) ∧ (Orders code le → m = left.merge right le))
    (merge code left right out heap) := by
  fun_induction merge code left right out heap with
  | case1 l left r right out heap c heap' call trapped =>
    refine ⟨.single ⟨l, r, ?_⟩, trapped⟩
    rw [call]
  | case2 l left r right out heap c heap' call running first ih =>
    refine ih.after (.single ⟨l, r, by rw [call]⟩) ?_
    rintro _ ⟨m, rfl, perm, pure⟩
    refine ⟨l :: m, append_assoc _ _ _, perm.cons l, fun orders => ?_⟩
    have below : le l r = true := (orders.sign l r heap).1 (by rwa [call])
    rw [cons_merge_cons_pos le _ _ below, pure orders]
  | case3 l left r right out heap c heap' call running first ih =>
    refine ih.after (.single ⟨l, r, by rw [call]⟩) ?_
    rintro _ ⟨m, rfl, perm, pure⟩
    refine ⟨r :: m, append_assoc _ _ _, (perm.cons r).trans perm_middle.symm, fun orders => ?_⟩
    have above : ¬ le l r = true := fun below => first (by have := (orders.sign l r heap).2 below; rwa [call] at this)
    rw [cons_merge_cons_neg le _ _ above, pure orders]
  | case4 left right out heap other =>
    refine ⟨.refl, left ++ right, append_assoc _ _ _, .refl _, fun _ => ?_⟩
    cases left with
    | nil => rw [nil_merge, nil_append]
    | cons l left =>
      cases right with
      | nil => rw [merge_right, append_nil]
      | cons r right => exact (other l left r right rfl rfl).elim

/-! ### Runs -/

/-- every run of the width is sorted -/
def Runs (le : T → T → Bool) (width : Nat) (a : List T) : Prop :=
  ∀ k, ((a.drop (k * width)).take width).Pairwise fun x y => le x y = true

theorem Runs.tail {width : Nat} {a : List T} (runs : Runs le width a) : Runs le width (a.drop width) := by
  intro k
  rw [drop_drop, Nat.add_comm, ← Nat.succ_mul]
  exact runs (k + 1)

theorem Runs.head {width : Nat} {a : List T} (runs : Runs le width a) : (a.take width).Pairwise fun x y => le x y = true := by
  have first := runs 0
  rwa [Nat.zero_mul, drop_zero] at first

/-- a sorted run in front, which is a whole one unless it is the last -/
theorem Runs.cons {width : Nat} {m a : List T} (sorted : m.Pairwise fun x y => le x y = true)
    (whole : a ≠ [] → m.length = width) (runs : Runs le width a) : Runs le width (m ++ a) := by
  intro k
  by_cases last : a = []
  · rw [last, append_nil]
    exact (sorted.drop).take
  · have length := whole last
    cases k with
    | zero => rwa [Nat.zero_mul, drop_zero, ← length, take_left]
    | succ k =>
      rw [Nat.succ_mul, Nat.add_comm, ← drop_drop, ← length, drop_left, length]
      exact runs k

/-- what is equal to an element of the right run stands behind its equals of the left one -/
theorem Orders.stable_merge (orders : Orders code le) {left : List T} (sorted : left.Pairwise fun x y => le x y = true)
    (right : List T) : Stable le (left ++ right) (left.merge right le) := by
  intro z
  rw [filter_append]
  induction left generalizing right with
  | nil =>
    rw [nil_merge]
    rfl
  | cons l left ih =>
    obtain ⟨least, sorted'⟩ := pairwise_cons.1 sorted
    induction right with
    | nil => rw [merge_right, filter_nil, append_nil]
    | cons r right ihr =>
      by_cases below : le l r = true
      · rw [cons_merge_cons_pos le _ _ below]
        simp only [filter_cons, ih sorted']
        split_ifs <;> rfl
      · rw [cons_merge_cons_neg le _ _ below]
        by_cases equal : same le z r = true
        · -- an equal of `z` in the left run would put `l` below `r`
          have none : (l :: left).filter (same le z) = [] := by
            refine filter_eq_nil_iff.2 fun x mem equal' => below ?_
            have first : le l x = true := by
              rcases mem_cons.1 mem with rfl | mem
              · simpa using orders.total x x
              · exact least x mem
            have reach := orders.trans l x z first (Bool.and_eq_true_iff.1 equal').2
            exact orders.trans l z r reach (Bool.and_eq_true_iff.1 equal).1
          rw [filter_cons_of_pos equal, ihr, none, filter_cons_of_pos equal]
          rfl
        · rw [filter_cons_of_neg equal, ihr, filter_cons_of_neg equal]

/-- the two runs that are merged at `lo` -/
theorem extract_runs (a : List T) (lo width : Nat) :
    a.extract lo (min (lo + width) a.length) = (a.drop lo).take width ∧
      a.extract (min (lo + width) a.length) (min (lo + 2 * width) a.length) = ((a.drop lo).drop width).take width := by
  constructor
  · rw [extract_eq_take_drop, take_eq_take_iff, length_drop]
    omega
  · rw [extract_eq_take_drop, drop_drop]
    by_cases inside : lo + width ≤ a.length
    · rw [Nat.min_eq_left inside, take_eq_take_iff, length_drop]
      omega
    · rw [drop_eq_nil_of_le (by omega), take_nil, drop_eq_nil_of_le (by omega), take_nil]

/-- what a round makes of the elements from `lo` on -/
def Round (code : Comparator T ω) (le : T → T → Bool) (width : Nat) (rest tmp res : List T) : Prop :=
  ∃ m, res = tmp ++ m ∧ m.Perm rest ∧ (Orders code le → Runs le width rest → Runs le (2 * width) m ∧ Stable le rest m)

theorem pass_outcome (code : Comparator T ω) (le : T → T → Bool) (a : List T) (width : Nat) (positive : 0 < width) (lo : Nat)
    (tmp : List T) (heap : Heap T ω) :
    Outcome code heap (Round code le width (a.drop lo) tmp) (pass code a width positive lo tmp heap) := by
  fun_induction pass code a width positive lo tmp heap with
  | case1 lo tmp heap more mid hi heap' merged =>
    have here := merge_outcome code le (a.extract lo mid) (a.extract mid hi) tmp heap
    rw [merged] at here
    exact here
  | case2 lo tmp heap more mid hi tmp' heap' merged ih =>
    have here := merge_outcome code le (a.extract lo mid) (a.extract mid hi) tmp heap
    rw [merged] at here
    obtain ⟨calls, m, rfl, perm, pure⟩ := here
    obtain ⟨isLeft, isRight⟩ := extract_runs a lo width
    rw [isLeft, isRight] at perm pure
    have behind : a.drop (lo + 2 * width) = ((a.drop lo).drop width).drop width := by
      rw [drop_drop, drop_drop, Nat.two_mul]
    have cut : a.drop lo = (a.drop lo).take width ++ ((a.drop lo).drop width).take width ++ a.drop (lo + 2 * width) := by
      rw [behind, append_assoc, take_append_drop, take_append_drop]
    refine ih.after calls ?_
    rintro _ ⟨m', rfl, perm', pure'⟩
    refine ⟨m ++ m', append_assoc _ _ _, cut ▸ perm.append perm', fun orders runs => ?_⟩
    obtain ⟨runs', stable'⟩ := pure' orders (behind ▸ runs.tail.tail)
    constructor
    · refine .cons ?_ (fun more => ?_) runs'
      · rw [pure orders]
        exact pairwise_merge orders.trans orders.total _ _ runs.head runs.tail.head
      · have := length_pos_of_ne_nil more
        rw [perm'.length_eq, length_drop] at this
        simp only [perm.length_eq, length_append, length_take, length_drop]
        omega
    · intro z
      rw [filter_append, stable' z, pure orders, orders.stable_merge runs.head _ z, ← filter_append, ← cut]
  | case3 lo tmp heap done =>
    rw [drop_eq_nil_of_le (Nat.not_lt.1 done)]
    exact ⟨.refl, [], (append_nil _).symm, .refl _, fun _ _ => ⟨fun k => by simp, fun _ => rfl⟩⟩

theorem mergeSortBy_outcome (code : Comparator T ω) (le : T → T → Bool) (n width : Nat) (positive : 0 < width) (a : List T)
    (heap : Heap T ω) :
    Outcome code heap (fun res => res.Perm a ∧ (Orders code le → n = a.length → Runs le width a →
      res.Pairwise (fun x y => le x y = true) ∧ Stable le a res)) (mergeSortBy code n width positive a heap) := by
  fun_induction mergeSortBy code n width positive a heap with
  | case1 width positive a heap more heap' trapped =>
    have here := pass_outcome code le a width positive 0 [] heap
    rw [trapped] at here
    exact here
  | case2 width positive a heap more tmp heap' round ih =>
    have here := pass_outcome code le a width positive 0 [] heap
    rw [round] at here
    obtain ⟨calls, m, rfl, perm, pure⟩ := here
    refine ih.after calls ?_
    rintro res ⟨perm', pure'⟩
    refine ⟨perm'.trans perm, fun orders length runs => ?_⟩
    obtain ⟨runs', stable⟩ := pure orders runs
    obtain ⟨sorted, stable'⟩ := pure' orders (length.trans perm.length_eq.symm) runs'
    exact ⟨sorted, fun z => (stable' z).trans (stable z)⟩
  | case3 width positive a heap done =>
    refine ⟨.refl, .refl _, fun _ length runs => ⟨?_, fun _ => rfl⟩⟩
    have whole := runs.head
    rwa [take_of_length_le (by omega)] at whole

end

/-! ### The array -/

/-- the calls do not trap and do not resize the array -/
def Quiet (code : Comparator T ω) : Prop :=
  ∀ x y heap, (code x y heap).2.trapped = heap.trapped ∧ (code x y heap).2.array.map List.length = heap.array.map List.length

theorem Quiet.calls {code : Comparator T ω} (quiet : Quiet code) {heap last : Heap T ω} (calls : Calls code heap last) :
    last.trapped = heap.trapped ∧ last.array.map List.length = heap.array.map List.length := by
  induction calls with
  | refl => exact ⟨rfl, rfl⟩
  | tail _ call ih =>
    obtain ⟨x, y, rfl⟩ := call
    exact ⟨(quiet x y _).1.trans ih.1, (quiet x y _).2.trans ih.2⟩

/-- the elements in another order, in that of the comparator if it is one -/
def Sorted (code : Comparator T ω) (elements out : List T) : Prop :=
  out.Perm elements ∧ ∀ le, Orders code le → out.Pairwise (fun x y => le x y = true) ∧ Stable le elements out

/-- the array is as the calls left it, which trapped or resized it (or its elements have no ABI class, which no generated code
asks for) -/
def Untouched (abi : Option Abi) (n : Nat) (last after : Heap T ω) : Prop :=
  after.array = last.array ∧ (last.trapped = true ∨ abi.isNone = true ∨ last.array.map List.length ≠ some n)

theorem sort_cases (code : Comparator T ω) (kind : ElemKind) (elemSize : Nat) (elements : List T) (trapped : Bool) (world : ω) :
    ∃ last, Calls code ⟨some elements, trapped, world⟩ last ∧
      (Untouched (abiOf kind elemSize) elements.length last (sort (some code) kind elemSize ⟨some elements, trapped, world⟩) ∨
        ∃ out, sort (some code) kind elemSize ⟨some elements, trapped, world⟩ = { last with array := some out } ∧
          Sorted code elements out) := by
  simp only [sort]
  split_ifs with stopped unknown few
  · exact ⟨_, .refl, .inl ⟨rfl, .inl stopped⟩⟩
  · exact ⟨_, .refl, .inl ⟨rfl, .inr (.inl unknown)⟩⟩
  · refine ⟨_, .refl, .inr ⟨elements, rfl, .refl _, fun le _ => ⟨?_, fun _ => rfl⟩⟩⟩
    match elements, few with
    | [], _ => exact .nil
    | [x], _ => exact pairwise_singleton _ x
  · have outcome (le : T → T → Bool) :=
      mergeSortBy_outcome code le elements.length 1 Nat.one_pos elements ⟨some elements, trapped, world⟩
    have single (le : T → T → Bool) : Runs le 1 elements := fun k => by cases elements.drop (k * 1) <;> simp
    generalize mergeSortBy code elements.length 1 Nat.one_pos elements ⟨some elements, trapped, world⟩ = r at outcome
    obtain ⟨_ | buf, last⟩ := r
    · exact ⟨last, (outcome fun _ _ => true).1, .inl ⟨rfl, .inl (outcome fun _ _ => true).2⟩⟩
    · refine ⟨last, (outcome fun _ _ => true).1, ?_⟩
      have sorted : Sorted code elements buf :=
        ⟨(outcome fun _ _ => true).2.1, fun le orders => (outcome le).2.2 orders rfl (single le)⟩
      cases is : last.array with
      | none => exact .inl (by simp [Untouched, lenOf, is, show 0 ≠ elements.length by omega])
      | some a =>
        by_cases length : a.length = elements.length
        · exact .inr ⟨buf, by simp [lenOf, is, length], sorted⟩
        · exact .inl (by simp [Untouched, lenOf, is, length])

/-- Whatever the comparator does, `sort` ends. The array is left untouched after a trap or a change of its length, or it gets
the elements it had at first, sorted in a stable way where the comparator is a total preorder; and that is what it gets if the
comparator neither traps nor resizes it. -/
theorem sort_correct (code : Comparator T ω) (kind : ElemKind) (elemSize : Nat) (elements : List T) (trapped : Bool) (world : ω) :
    let before : Heap T ω := ⟨some elements, trapped, world⟩
    let after := sort (some code) kind elemSize before
    (∃ last, Calls code before last ∧ (Untouched (abiOf kind elemSize) elements.length last after ∨
        ∃ out, after = { last with array := some out } ∧ Sorted code elements out)) ∧
    (Quiet code → trapped = false → (abiOf kind elemSize).isSome = true →
      ∃ out, after.array = some out ∧ Sorted code elements out) := by
  intro before after
  have cases := sort_cases code kind elemSize elements trapped world
  refine ⟨cases, fun quiet running abi => ?_⟩
  obtain ⟨last, calls, ⟨-, trap | unknown | resized⟩ | ⟨out, is, sorted⟩⟩ := cases
  · cases running.symm.trans ((quiet.calls calls).1.symm.trans trap)
  · rw [Option.isNone_iff_eq_none.1 unknown] at abi
    cases abi
  · exact absurd (quiet.calls calls).2 resized
  · exact ⟨out, congrArg Heap.array is, sorted⟩

end Subscript.Runtime.Sort
