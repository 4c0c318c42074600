import Subscript.Runtime.AssocRefines

/-! Traversals of a `Map` or `Set` whose bodies change it: the loops that `for (… of …)` and `forEach` are compiled to. Such
a loop goes by the index of an entry and asks for the length of the entry vector again in every round, so that it comes to
what its body appends. The vector is not compacted from its first traversal on.

An entry has a stamp beside its value, which tells it from all entries that were inserted before or after. The program
does not read it: a value that is overwritten keeps the stamp of its entry. -/

namespace Subscript.Runtime

open List

variable {kind : KeyKind} {V : Type}

namespace AssocHeader

variable (h : AssocHeader kind V) (depth : Nat)

/-- `ensure_capacity` with `depth` traversals open -/
def ensureCapacityAt : Option (AssocHeader kind V) := do
  let h ← if depth = 0 then h.compactWhenFull else some h
  h.growWhenFull.rehashWhenLoaded

def insertAt (key : KeySlot kind) (value : V) : Option (AssocHeader kind V) :=
  let hash := hashKey kind key
  match (h.lookup key hash).entry with
  | some entry => some (h.overwrite entry value)
  | none => do
    let h ← h.ensureCapacityAt depth
    return h.append (h.lookup key hash).bucket hash key value

end AssocHeader

/-- an open traversal at the position of the entry it has visited last; only the position is the program's -/
structure Traversal where
  position : Nat
  /-- the first stamp that was not given away when it began -/
  base : Nat
  /-- the stamps of the entries it has visited, the last one at the end -/
  visited : List Nat
deriving DecidableEq, Repr

/-- a container with the traversals that are open on it, the innermost first -/
structure Traversed (kind : KeyKind) (V : Type) where
  header : AssocHeader kind (V × Nat)
  iterationDepth : Nat
  stack : List Traversal
  next : Nat

def u64Max : Nat := 2 ^ 64 - 1

/-- what a program does: it changes the container, begins a traversal, ends a round of the innermost one, or leaves it -/
inductive TraversalEvent (kind : KeyKind) (V : Type) where
  | set (key : KeySlot kind) (value : V)
  | delete (key : KeySlot kind)
  | clear
  | begin
  | next
  | leave

namespace Traversed

def new : Traversed kind V := ⟨.new, 0, [], 0⟩

/-- the stamps of the entry vector -/
def stamps (s : Traversed kind V) : List (Option Nat) := s.header.entries.map (Option.map fun x => x.value.2)

/-- the stamp of the entry that has the key, or a new one -/
def stampOf (s : Traversed kind V) (key : KeySlot kind) : Nat :=
  match s.header.get key with
  | some (_, stamp) => stamp
  | none => s.next

/-- `iteration_begin`: the length of the entry vector; compiled code asks for it here and ends no iteration -/
def iterationBegin (s : Traversed kind V) : Nat × Traversed kind V :=
  (s.header.entries.length, { s with iterationDepth := min (s.iterationDepth + 1) u64Max })

/-- `iteration_entry`: the entry at an index, if it is active -/
def iterationEntry (s : Traversed kind V) (index : Nat) : Option (Entry kind (V × Nat)) := s.header.entries[index]?.join

/-- the loop that passes over the deleted entries -/
def livePosition (s : Traversed kind V) (bound : Nat) : Nat → Nat → Nat
  | 0, candidate => candidate
  | rounds + 1, candidate =>
    if candidate < bound then
      if (s.iterationEntry candidate).isSome then candidate else s.livePosition bound rounds (candidate + 1)
    else candidate

def iteratorCreate (s : Traversed kind V) : Nat × Traversed kind V :=
  let (bound, s) := s.iterationBegin
  (s.livePosition bound bound 0, s)

/-- the bound of a live iterator is asked for before the loop and not used -/
def iteratorBound (s : Traversed kind V) : Traversed kind V := s.iterationBegin.2

def iteratorHasNext (s : Traversed kind V) (position : Nat) : Bool × Traversed kind V :=
  let (current, s) := s.iterationBegin
  (decide (position < current), s)

def iteratorAdvance (s : Traversed kind V) (position : Nat) : Nat × Traversed kind V :=
  let (current, s) := s.iterationBegin
  (s.livePosition current (current - (position + 1)) (position + 1), s)

/-- the header of the loop: the body is entered with the value at the position, or the loop ends -/
def loopHeader (s : Traversed kind V) (t : Traversal) : Traversed kind V :=
  let (more, s) := s.iteratorHasNext t.position
  if more then
    let visited := t.visited ++ ((s.iterationEntry t.position).map fun x => x.value.2).toList
    { s with stack := { t with visited } :: s.stack }
  else s

def step (s : Traversed kind V) : TraversalEvent kind V → Option (Traversed kind V)
  | .set key value => do
    let header ← s.header.insertAt s.iterationDepth key (value, s.stampOf key)
    return { s with header, next := s.next + 1 }
  | .delete key => some { s with header := (s.header.delete key).2 }
  | .clear => some { s with header := s.header.clear }
  | .begin =>
    let (position, s) := s.iteratorCreate
    some (s.iteratorBound.loopHeader ⟨position, s.next, []⟩)
  | .next =>
    match s.stack with
    | [] => some s
    | t :: rest =>
      let (position, s) := s.iteratorAdvance t.position
      some (loopHeader { s with stack := rest } { t with position })
  | .leave => some { s with stack := s.stack.tail }

def run (s : Traversed kind V) : List (TraversalEvent kind V) → Option (Traversed kind V)
  | [] => some s
  | e :: events => do
    let s ← s.step e
    s.run events

end Traversed

/-! ### What a traversal is for -/

/-- an ordered map whose values have the stamps of their entries, and for each open traversal what it has visited -/
structure Walks (kind : KeyKind) (V : Type) where
  entries : Table.OrderedMap (KeySlot kind) (V × Nat)
  next : Nat
  stack : List (List Nat)

namespace Walks

def new : Walks kind V := ⟨[], 0, []⟩

/-- The traversal goes on to the first entry of the map that was inserted after all it has visited, and ends when there
is none. -/
def visit (w : Walks kind V) (visited : List Nat) : Walks kind V :=
  match w.entries.find? fun e => ∀ n ∈ visited, n < e.2.2 with
  | some e => { w with stack := (visited ++ [e.2.2]) :: w.stack }
  | none => w

def step (w : Walks kind V) : TraversalEvent kind V → Walks kind V
  | .set key value =>
    let stamp := ((w.entries.find (sameValueZero kind) key).map Prod.snd).getD w.next
    { w with entries := w.entries.set (sameValueZero kind) (storedKey kind key) (value, stamp), next := w.next + 1 }
  | .delete key => { w with entries := w.entries.erase (sameValueZero kind) key }
  | .clear => { w with entries := [] }
  | .begin => w.visit []
  | .next =>
    match w.stack with
    | [] => w
    | visited :: rest => { w with stack := rest }.visit visited
  | .leave => { w with stack := w.stack.tail }

def run (w : Walks kind V) : List (TraversalEvent kind V) → Walks kind V
  | [] => w
  | e :: events => (w.step e).run events

end Walks

/-- the container as its program sees it -/
def Traversed.walks (s : Traversed kind V) : Walks kind V := ⟨s.header.walk, s.next, s.stack.map Traversal.visited⟩

namespace AssocHeader

variable {h h' : AssocHeader kind V} {depth : Nat} {key : KeySlot kind} {value : V}

theorem entries_rehash {cap : Nat} (returns : h.rehash cap = some h') : h'.entries = h.entries := by
  obtain ⟨buckets, _, is⟩ := Option.bind_eq_some_iff.1 returns
  cases is
  rfl

theorem entries_rehashWhenLoaded (returns : h.rehashWhenLoaded = some h') : h'.entries = h.entries := by
  unfold rehashWhenLoaded at returns
  split at returns
  · exact entries_rehash returns
  · cases returns
    rfl

theorem entries_growWhenFull (h : AssocHeader kind V) : h.growWhenFull.entries = h.entries := by
  unfold growWhenFull
  split <;> rfl

/-- with a traversal open the entries stay where they are -/
theorem Inv.ensureCapacityAt (inv : h.Inv) (depth : Nat) :
    ∃ h', h.ensureCapacityAt depth = some h' ∧ Rebuilt h h' ∧ h'.Ready ∧ (depth ≠ 0 → h'.entries = h.entries) := by
  by_cases outside : depth = 0
  · obtain ⟨h', returns, rebuilt, ready⟩ := inv.ensureCapacity
    refine ⟨h', ?_, rebuilt, ready, fun inside => absurd outside inside⟩
    rw [AssocHeader.ensureCapacityAt, if_pos outside]
    exact returns
  · obtain ⟨grown, order⟩ := inv.growWhenFull
    obtain ⟨h', returns, rebuilt, ready⟩ := grown.inv.rehashWhenLoaded order
    refine ⟨h', ?_, grown.trans rebuilt, ready, fun _ => ?_⟩
    · rw [AssocHeader.ensureCapacityAt, if_neg outside]
      exact returns
    · rw [entries_rehashWhenLoaded returns, entries_growWhenFull]

/-- what an insertion does to the vector -/
theorem Inv.insertAt (inv : h.Inv) (depth : Nat) (key : KeySlot kind) (value : V) :
    ∃ h', h.insertAt depth key value = some h' ∧ h'.Inv ∧
      h'.walk = h.walk.set (sameValueZero kind) (storedKey kind key) value ∧
      ((∃ e x, (h.lookup key (hashKey kind key)).entry = some e ∧ h.entries[e]? = some (some x) ∧
          h'.entries = h.entries.set e (some { x with value })) ∨
        (h.lookup key (hashKey kind key)).entry = none ∧ ∃ x : Entry kind V, x.value = value ∧
          h'.entries.reduceOption = h.entries.reduceOption ++ [x] ∧
          (depth ≠ 0 → h'.entries = h.entries ++ [some x])) := by
  have canonical := storedKey_storedKey kind key
  cases found : (h.lookup key (hashKey kind key)).entry with
  | some e =>
    obtain ⟨_, _, x, active, isKey⟩ := inv.lookup_some found
    obtain ⟨before, after, located⟩ := inv.located active (isKey.trans canonical.symm)
    refine ⟨h.overwrite e value, ?_, inv.overwrite located value, ?_, .inl ⟨e, x, rfl, active, ?_⟩⟩
    · rw [AssocHeader.insertAt]
      simp only [found]
    · rw [located.walk, Table.OrderedMap.set_split located.before_other located.same located.after_other, walk,
        located.overwrite value, reduceOption_append, reduceOption_cons_of_some, map_append, map_cons]
    · rw [located.overwrite value, located.entries, ← located.index, set_append_right _ _ (Nat.le_refl _), Nat.sub_self]
      rfl
  | none =>
    have absent := inv.lookup_none found
    obtain ⟨h', returns, rebuilt, ready, stays⟩ := inv.ensureCapacityAt depth
    have absent' : ∀ x ∈ h'.entries.reduceOption, x.key ≠ storedKey kind key := rebuilt.active ▸ absent
    obtain ⟨free, reach⟩ := rebuilt.inv.lookup_free ready.cap absent'
    have active : (h'.append (h'.lookup key (hashKey kind key)).bucket (hashKey kind key) key value).entries.reduceOption =
        h.entries.reduceOption ++ [⟨hashKey kind key, storedKey kind key, value⟩] := by
      rw [← rebuilt.active]
      simp [AssocHeader.append, reduceOption_append]
    refine ⟨_, ?_, rebuilt.inv.append ready free reach absent', ?_, .inr ⟨rfl, _, rfl, active, ?_⟩⟩
    · rw [AssocHeader.insertAt]
      simp only [found, returns]
      rfl
    · rw [Table.OrderedMap.set_absent (inv.absent_walk (canonical.symm ▸ absent)), walk, walk, active, map_append]
      rfl
    · intro inside
      rw [← stays inside]
      rfl

theorem delete_entries (h : AssocHeader kind V) (key : KeySlot kind) :
    (h.delete key).2.entries = h.entries ∨ ∃ e, (h.delete key).2.entries = h.entries.set e none := by
  rw [AssocHeader.delete]
  split_ifs
  · exact .inl rfl
  · dsimp only
    cases (h.lookup key (hashKey kind key)).entry with
    | none => exact .inl rfl
    | some e => exact .inr ⟨e, rfl⟩

end AssocHeader

theorem reduceOption_set_none {α : Type} (l : List (Option α)) (i : Nat) :
    (l.set i none).reduceOption.Sublist l.reduceOption := by
  induction l generalizing i with
  | nil => exact List.Sublist.refl _
  | cons head rest ih =>
    cases i with
    | zero =>
      rw [set_cons_zero, reduceOption_cons_of_none, ← singleton_append, reduceOption_append]
      exact sublist_append_right _ _
    | succ i =>
      cases head with
      | none => exact ih i
      | some x => exact (ih i).cons_cons x

/-- the first entry of a vector that meets a condition -/
theorem find?_reduceOption {α : Type} {l : List (Option α)} {p : α → Bool} {i : Nat} {x : α} (here : l[i]? = some (some x))
    (meets : p x = true) (first : ∀ j < i, ∀ y, l[j]? = some (some y) → p y = false) : l.reduceOption.find? p = some x := by
  induction l generalizing i with
  | nil => cases here
  | cons head rest ih =>
    cases i with
    | zero =>
      cases here
      rw [reduceOption_cons_of_some, find?_cons_of_pos meets]
    | succ i =>
      have later := ih here fun j lt y is => first (j + 1) (Nat.succ_lt_succ lt) y is
      cases head with
      | none => exact later
      | some y =>
        rw [reduceOption_cons_of_some, find?_cons_of_neg (Bool.eq_false_iff.1 (first 0 (Nat.succ_pos i) y rfl)), later]

namespace Traversed

variable {s s' : Traversed kind V} {t : Traversal} {key : KeySlot kind} {value : V}

/-- what holds of a traversal that goes on from the index `start`: the entries from there on are those that were inserted
after all it has visited, and the others it has visited -/
structure Ok (stamps : List (Option Nat)) (next start : Nat) (visited : List Nat) : Prop where
  given : ∀ n ∈ visited, n < next
  order : visited.Pairwise (· < ·)
  ahead : ∀ i n : Nat, stamps[i]? = some (some n) → (start ≤ i ↔ ∀ m ∈ visited, m < n)
  past : ∀ i n : Nat, stamps[i]? = some (some n) → i < start → n ∈ visited

/-- what holds of a container and its traversals -/
structure Inv (s : Traversed kind V) : Prop where
  header : s.header.Inv
  sorted : s.stamps.reduceOption.Pairwise (· < ·)
  given : ∀ n ∈ s.stamps.reduceOption, n < s.next
  depth : s.stack ≠ [] → s.iterationDepth ≠ 0
  traversals : ∀ t ∈ s.stack, Ok s.stamps s.next (t.position + 1) t.visited

theorem inv_new : Inv (new : Traversed kind V) :=
  ⟨AssocHeader.inv_new, Pairwise.nil, nofun, absurd rfl, nofun⟩

theorem mem_stamps {stamps : List (Option Nat)} {n : Nat} :
    n ∈ stamps.reduceOption ↔ ∃ i : Nat, stamps[i]? = some (some n) :=
  reduceOption_mem_iff.trans mem_iff_getElem?

/-- in a sorted vector an entry further on has a later stamp -/
theorem lt_of_sorted {stamps : List (Option Nat)} (sorted : stamps.reduceOption.Pairwise (· < ·)) {i j n m : Nat}
    (first : stamps[i]? = some (some n)) (second : stamps[j]? = some (some m)) (lt : i < j) : n < m := by
  obtain ⟨inside, atFirst⟩ := List.getElem?_eq_some_iff.1 first
  obtain ⟨inside', atSecond⟩ := List.getElem?_eq_some_iff.1 second
  exact pairwise_iff_getElem.1 (pairwise_filterMap.1 sorted) i j inside inside' lt n atFirst m atSecond

theorem stamps_getElem? (s : Traversed kind V) (i n : Nat) :
    s.stamps[i]? = some (some n) ↔ ∃ x, s.header.entries[i]? = some (some x) ∧ x.value.2 = n := by
  rw [stamps, getElem?_map]
  cases s.header.entries[i]? with
  | none => simp
  | some slot => cases slot <;> simp

theorem reduceOption_stamps (s : Traversed kind V) :
    s.stamps.reduceOption = s.header.entries.reduceOption.map fun x => x.value.2 := by
  rw [stamps, reduceOption_map]

/-! ### One round -/

theorem iterationDepth_begin (s : Traversed kind V) : s.iterationBegin.2.iterationDepth ≠ 0 := by
  show min (s.iterationDepth + 1) u64Max ≠ 0
  rw [u64Max]
  omega

/-- the first active entry from an index on, if there is one -/
structure Sought (s : Traversed kind V) (start position : Nat) : Prop where
  start_le : start ≤ position
  skipped : ∀ i, start ≤ i → i < position → s.iterationEntry i = none
  active : position < s.header.entries.length → (s.iterationEntry position).isSome = true

theorem sought_livePosition (s : Traversed kind V) {rounds start : Nat} (is : rounds = s.header.entries.length - start) :
    s.Sought start (s.livePosition s.header.entries.length rounds start) := by
  induction rounds generalizing start with
  | zero =>
    refine ⟨Nat.le_refl _, fun i le lt => absurd lt (Nat.not_lt.2 le), fun lt => ?_⟩
    rw [livePosition] at lt
    omega
  | succ rounds ih =>
    rw [livePosition, if_pos (show start < s.header.entries.length by omega)]
    split_ifs with found
    · exact ⟨Nat.le_refl _, fun i le lt => absurd lt (Nat.not_lt.2 le), fun _ => found⟩
    · have later := @ih (start + 1) (by omega)
      refine ⟨(Nat.le_succ _).trans later.start_le, fun i le lt => ?_, later.active⟩
      rcases Nat.eq_or_lt_of_le le with rfl | gt
      · exact Option.not_isSome_iff_eq_none.1 found
      · exact later.skipped i gt lt

section Round

variable {start position : Nat} {visited : List Nat} (sought : s.Sought start position)
  (ok : Ok s.stamps s.next start visited)

include sought ok

/-- the map has nothing more to visit when the position is at the end of the vector -/
theorem find?_ended (ended : s.header.entries.length ≤ position) :
    (s.header.walk.find? fun e => ∀ m ∈ visited, m < e.2.2) = none := by
  refine List.find?_eq_none.2 fun e mem meets => ?_
  obtain ⟨x, active, rfl⟩ := mem_map.1 mem
  obtain ⟨i, is⟩ := AssocHeader.mem_active.1 active
  have here := (ok.ahead i _ ((s.stamps_getElem? i _).2 ⟨x, is, rfl⟩)).2 (of_decide_eq_true meets)
  have inside := (List.getElem?_eq_some_iff.1 is).1
  have skipped := sought.skipped i here (by omega)
  rw [iterationEntry, is] at skipped
  cases skipped

/-- and otherwise the entry at the position is the next -/
theorem find?_position {x : Entry kind (V × Nat)} (is : s.header.entries[position]? = some (some x)) :
    (s.header.walk.find? fun e => ∀ m ∈ visited, m < e.2.2) = some (x.key, x.value) := by
  rw [AssocHeader.walk, find?_map, find?_reduceOption is, Option.map_some]
  · exact decide_eq_true ((ok.ahead _ _ ((s.stamps_getElem? _ _).2 ⟨x, is, rfl⟩)).1 sought.start_le)
  · intro j lt y at_j
    refine decide_eq_false fun later => ?_
    have skipped := sought.skipped j ((ok.ahead _ _ ((s.stamps_getElem? _ _).2 ⟨y, at_j, rfl⟩)).2 later) lt
    rw [iterationEntry, at_j] at skipped
    cases skipped

/-- when the entry at the position is visited, the traversal goes on behind it -/
theorem Inv.visits_position (inv : s.Inv) {n : Nat} (is : s.stamps[position]? = some (some n)) :
    Ok s.stamps s.next (position + 1) (visited ++ [n]) := by
  have later : ∀ m ∈ visited, m < n := (ok.ahead position n is).1 sought.start_le
  refine ⟨fun m mem => ?_, ?_, fun i m at_i => ⟨fun lt k mem => ?_, fun after => ?_⟩, fun i m at_i le => ?_⟩
  · rcases mem_append.1 mem with old | last
    · exact ok.given m old
    · rw [mem_singleton.1 last]
      exact inv.given n (mem_stamps.2 ⟨_, is⟩)
  · refine pairwise_append.2 ⟨ok.order, pairwise_singleton _ _, fun m mem k last => ?_⟩
    rw [mem_singleton.1 last]
    exact later m mem
  · rcases mem_append.1 mem with old | last
    · exact (ok.ahead i m at_i).1 (sought.start_le.trans (Nat.le_of_succ_le lt)) k old
    · rw [mem_singleton.1 last]
      exact lt_of_sorted inv.sorted is at_i lt
  · have lt := after n (mem_append_right _ (mem_singleton_self n))
    rcases Nat.lt_trichotomy position i with behind | rfl | before
    · exact behind
    · rw [is] at at_i
      cases at_i
      exact absurd lt (Nat.lt_irrefl _)
    · exact absurd lt (Nat.lt_asymm (lt_of_sorted inv.sorted at_i is before))
  · rcases Nat.lt_or_ge i start with before | from_start
    · exact mem_append_left _ (ok.past i m at_i before)
    · rcases Nat.eq_or_lt_of_le (Nat.le_of_lt_succ le) with rfl | lt
      · rw [is] at at_i
        cases at_i
        exact mem_append_right _ (mem_singleton_self _)
      · obtain ⟨x, active, -⟩ := (s.stamps_getElem? i m).1 at_i
        have skipped := sought.skipped i from_start lt
        rw [iterationEntry, active] at skipped
        cases skipped

theorem Inv.loopHeader (inv : s.Inv) (base : Nat) :
    (s.loopHeader ⟨position, base, visited⟩).Inv ∧
      (s.loopHeader ⟨position, base, visited⟩).walks = s.walks.visit visited := by
  rw [Traversed.loopHeader, iteratorHasNext]
  by_cases more : position < s.header.entries.length
  · obtain ⟨x, entry⟩ := Option.isSome_iff_exists.1 (sought.active more)
    have is : s.header.entries[position]? = some (some x) := Option.join_eq_some_iff.1 entry
    have stamp : s.stamps[position]? = some (some x.value.2) := (s.stamps_getElem? _ _).2 ⟨x, is, rfl⟩
    have entry' : s.iterationBegin.2.iterationEntry position = some x := entry
    simp only [show s.iterationBegin.1 = s.header.entries.length from rfl, more, decide_true, if_true, entry',
      Option.map_some, Option.toList_some]
    refine ⟨⟨inv.header, inv.sorted, inv.given, fun _ => s.iterationDepth_begin, fun t mem => ?_⟩, ?_⟩
    · rcases mem_cons.1 mem with rfl | mem
      · exact inv.visits_position sought ok stamp
      · exact inv.traversals t mem
    · have finds : (s.walks.entries.find? fun e => ∀ m ∈ visited, m < e.2.2) = some (x.key, x.value) :=
        find?_position sought ok is
      rw [Walks.visit, finds]
      rfl
  · simp only [show s.iterationBegin.1 = s.header.entries.length from rfl, more, decide_false, Bool.false_eq_true, if_false]
    refine ⟨⟨inv.header, inv.sorted, inv.given, fun _ => s.iterationDepth_begin, inv.traversals⟩, ?_⟩
    have finds : (s.walks.entries.find? fun e => ∀ m ∈ visited, m < e.2.2) = none :=
      find?_ended sought ok (Nat.le_of_not_lt more)
    rw [Walks.visit, finds]
    rfl

end Round

/-- `iteration_begin` changes nothing but the depth -/
theorem Inv.iterationBegin (inv : s.Inv) : s.iterationBegin.2.Inv :=
  ⟨inv.header, inv.sorted, inv.given, fun _ => s.iterationDepth_begin, inv.traversals⟩

theorem Inv.begin (inv : s.Inv) : ∃ s', s.step .begin = some s' ∧ s'.Inv ∧ s'.walks = s.walks.step .begin := by
  have begun : s.iteratorCreate.2.iteratorBound.Inv := inv.iterationBegin.iterationBegin
  have found : s.iterationBegin.2.Sought 0 s.iteratorCreate.1 := sought_livePosition _ (Nat.sub_zero _).symm
  have sought : s.iteratorCreate.2.iteratorBound.Sought 0 s.iteratorCreate.1 := ⟨found.start_le, found.skipped, found.active⟩
  have ok : Ok s.iteratorCreate.2.iteratorBound.stamps s.next 0 [] :=
    ⟨by simp, Pairwise.nil, fun i n _ => iff_of_true (Nat.zero_le i) (by simp), fun i n _ lt => absurd lt (Nat.not_lt_zero i)⟩
  exact ⟨_, rfl, Inv.loopHeader sought ok begun _⟩

theorem Inv.next (inv : s.Inv) : ∃ s', s.step .next = some s' ∧ s'.Inv ∧ s'.walks = s.walks.step .next := by
  cases opened : s.stack with
  | nil =>
    refine ⟨s, by simp only [step, opened], inv, ?_⟩
    simp only [Walks.step, walks, opened, map_nil]
  | cons t rest =>
    have ok := inv.traversals t (opened ▸ mem_cons_self)
    have popped : Inv { s.iterationBegin.2 with stack := rest } :=
      ⟨inv.header, inv.sorted, inv.given, fun _ => s.iterationDepth_begin,
        fun u mem => inv.traversals u (opened ▸ mem_cons_of_mem _ mem)⟩
    have found : s.iterationBegin.2.Sought (t.position + 1) (s.iteratorAdvance t.position).1 := sought_livePosition _ rfl
    have sought : Sought { s.iterationBegin.2 with stack := rest } (t.position + 1) (s.iteratorAdvance t.position).1 :=
      ⟨found.start_le, found.skipped, found.active⟩
    obtain ⟨inv', is⟩ := Inv.loopHeader sought ok popped t.base
    refine ⟨_, by simp only [step, opened]; rfl, inv', is.trans ?_⟩
    simp only [Walks.step, walks, opened, map_cons]
    rfl

/-! ### Changes of the container -/

theorem Ok.fewer {stamps stamps' : List (Option Nat)} {next start : Nat} {visited : List Nat}
    (ok : Ok stamps next start visited) (kept : ∀ i n : Nat, stamps'[i]? = some (some n) → stamps[i]? = some (some n)) :
    Ok stamps' next start visited :=
  ⟨ok.given, ok.order, fun i n is => ok.ahead i n (kept i n is), fun i n is => ok.past i n (kept i n is)⟩

/-- an entry that is appended behind the start of a traversal lies ahead of it -/
theorem Ok.append {stamps : List (Option Nat)} {next start : Nat} {visited : List Nat} (ok : Ok stamps next start visited)
    (behind : start ≤ stamps.length) : Ok (stamps ++ [some next]) (next + 1) start visited := by
  have cases_of : ∀ i n : Nat, (stamps ++ [some next])[i]? = some (some n) →
      stamps[i]? = some (some n) ∨ i = stamps.length ∧ n = next := by
    intro i n is
    rcases Nat.lt_or_ge i stamps.length with old | new
    · exact .inl (by rwa [getElem?_append_left old] at is)
    · rw [getElem?_append_right new, getElem?_singleton] at is
      split_ifs at is with last
      cases is
      exact .inr ⟨by omega, rfl⟩
  refine ⟨fun n mem => Nat.lt_succ_of_lt (ok.given n mem), ok.order, fun i n is => ?_, fun i n is before => ?_⟩
  · rcases cases_of i n is with old | ⟨rfl, rfl⟩
    · exact ok.ahead i n old
    · exact iff_of_true behind ok.given
  · rcases cases_of i n is with old | ⟨rfl, rfl⟩
    · exact ok.past i n old before
    · omega

/-- a change that takes entries away -/
theorem Inv.fewer (inv : s.Inv) {header : AssocHeader kind (V × Nat)} (ok : header.Inv)
    (sub : { s with header }.stamps.reduceOption.Sublist s.stamps.reduceOption)
    (kept : ∀ i n : Nat, { s with header }.stamps[i]? = some (some n) → s.stamps[i]? = some (some n)) :
    Inv { s with header } :=
  ⟨ok, inv.sorted.sublist sub, fun n mem => inv.given n (sub.subset mem), inv.depth,
    fun t mem => (inv.traversals t mem).fewer kept⟩

theorem Inv.clear (inv : s.Inv) : Inv { s with header := s.header.clear } :=
  inv.fewer AssocHeader.inv_new (nil_sublist _) nofun

theorem Inv.delete (inv : s.Inv) (key : KeySlot kind) : Inv { s with header := (s.header.delete key).2 } := by
  rcases s.header.delete_entries key with same | ⟨e, gone⟩
  · refine inv.fewer (inv.header.delete_eq key).2.1 ?_ fun i n is => ?_
    · simp only [stamps, same, List.Sublist.refl]
    · simpa only [stamps, same] using is
  · refine inv.fewer (inv.header.delete_eq key).2.1 ?_ fun i n is => ?_
    · rw [reduceOption_stamps, reduceOption_stamps]
      exact (gone ▸ reduceOption_set_none s.header.entries e).map _
    · obtain ⟨x, active, is⟩ := (stamps_getElem? _ i n).1 is
      refine (s.stamps_getElem? i n).2 ⟨x, ?_, is⟩
      simp only [gone, getElem?_set] at active
      split_ifs at active
      · cases active
      · exact active

theorem Inv.stampOf_eq (inv : s.Inv) (key : KeySlot kind) :
    s.stampOf key = ((s.header.walk.find (sameValueZero kind) key).map Prod.snd).getD s.next := by
  rw [stampOf, ← inv.header.get_eq]
  cases s.header.get key <;> rfl

/-- the stamps after a key is set: those of before, or one more at the end -/
theorem Inv.set_stamps (inv : s.Inv) (key : KeySlot kind) (value : V) :
    ∃ header, s.step (.set key value) = some { s with header, next := s.next + 1 } ∧ header.Inv ∧
      { s with header, next := s.next + 1 }.walks = s.walks.step (.set key value) ∧
      ({ s with header }.stamps = s.stamps ∨
        s.header.get key = none ∧ { s with header }.stamps.reduceOption = s.stamps.reduceOption ++ [s.next] ∧
          (s.iterationDepth ≠ 0 → { s with header }.stamps = s.stamps ++ [some s.next])) := by
  obtain ⟨header, returns, ok, walk, change⟩ := inv.header.insertAt s.iterationDepth key (value, s.stampOf key)
  refine ⟨header, by simp only [step, returns]; rfl, ok, ?_, ?_⟩
  · rw [walks, walk, inv.stampOf_eq]
    rfl
  rcases change with ⟨e, x, found, active, is⟩ | ⟨absent, x, isValue, order, inside⟩
  · left
    have gives : s.header.get key = some x.value := by
      rw [AssocHeader.get, AssocHeader.findEntry_eq, found]
      simp [active]
    have stamp : s.stampOf key = x.value.2 := by
      rw [stampOf, gives]
    simp only [stamps, is, map_set, Option.map_some, stamp]
    refine ext_getElem? fun i => ?_
    rw [getElem?_set]
    split_ifs with eq inside
    · subst eq
      rw [getElem?_map, active]
      rfl
    · subst eq
      rw [getElem?_eq_none (Nat.le_of_not_lt inside)]
    · rfl
  · right
    have gives : s.header.get key = none := by
      rw [AssocHeader.get, AssocHeader.findEntry_eq, absent]
      rfl
    have stamp : x.value.2 = s.next := by
      rw [isValue, stampOf, gives]
    refine ⟨gives, ?_, fun opened => ?_⟩
    · rw [reduceOption_stamps, reduceOption_stamps, order, map_append, map_singleton, stamp]
    · simp only [stamps, inside opened, map_append, map_singleton, Option.map_some, stamp]

theorem Inv.set (inv : s.Inv) (key : KeySlot kind) (value : V)
    (behind : s.header.get key = none → ∀ t ∈ s.stack, t.position < s.header.entries.length) :
    ∃ s', s.step (.set key value) = some s' ∧ s'.Inv ∧ s'.walks = s.walks.step (.set key value) := by
  obtain ⟨header, returns, ok, is, same | ⟨absent, order, inside⟩⟩ := inv.set_stamps key value
  · have same' : stamps { s with header, next := s.next + 1 } = s.stamps := same
    refine ⟨_, returns, ⟨ok, same'.symm ▸ inv.sorted, fun n mem => ?_, inv.depth, fun t mem => ?_⟩, is⟩
    · exact Nat.lt_succ_of_lt (inv.given n (same' ▸ mem))
    · have ok := inv.traversals t mem
      rw [same']
      exact ⟨fun n visited => Nat.lt_succ_of_lt (ok.given n visited), ok.order, ok.ahead, ok.past⟩
  · have order' : (stamps { s with header, next := s.next + 1 }).reduceOption = s.stamps.reduceOption ++ [s.next] := order
    refine ⟨_, returns, ⟨ok, ?_, fun n mem => ?_, inv.depth, fun t mem => ?_⟩, is⟩
    · rw [order']
      refine pairwise_append.2 ⟨inv.sorted, pairwise_singleton _ _, fun n old m new => ?_⟩
      rw [mem_singleton.1 new]
      exact inv.given n old
    · rw [order', mem_append, mem_singleton] at mem
      rcases mem with old | rfl
      · exact Nat.lt_succ_of_lt (inv.given n old)
      · exact Nat.lt_succ_self _
    · -- a traversal is open, so the new entry was appended behind the others
      have added : stamps { s with header, next := s.next + 1 } = s.stamps ++ [some s.next] :=
        inside (inv.depth (ne_nil_of_mem mem))
      have length : s.stamps.length = s.header.entries.length := length_map _
      rw [added]
      exact (inv.traversals t mem).append (length.symm ▸ behind absent t mem)

/-! ### Runs -/

/-- A new key comes to lie behind the position of every open traversal. It does so unless the container was cleared since
the traversal began. -/
def LiesBehind (s : Traversed kind V) : TraversalEvent kind V → Prop
  | .set key _ => s.header.get key = none → ∀ t ∈ s.stack, t.position < s.header.entries.length
  | _ => True

/-- the events of a run all meet the condition in the states they are made in -/
def Meets (s : Traversed kind V) : List (TraversalEvent kind V) → Prop
  | [] => True
  | e :: events => LiesBehind s e ∧ ∀ s' ∈ s.step e, s'.Meets events

instance (s : Traversed kind V) (e : TraversalEvent kind V) : Decidable (LiesBehind s e) :=
  match e with
  | .set key _ => inferInstanceAs (Decidable (s.header.get key = none → ∀ t ∈ s.stack, _ < _))
  | .delete _ | .clear | .begin | .next | .leave => .isTrue trivial

def decidableMeets : (events : List (TraversalEvent kind V)) → (s : Traversed kind V) → Decidable (s.Meets events)
  | [], _ => .isTrue trivial
  | e :: events, s =>
    have : ∀ s' : Traversed kind V, Decidable (s'.Meets events) := decidableMeets events
    inferInstanceAs (Decidable (LiesBehind s e ∧ ∀ s' ∈ s.step e, s'.Meets events))

instance (s : Traversed kind V) (events : List (TraversalEvent kind V)) : Decidable (s.Meets events) :=
  decidableMeets events s

theorem Inv.step (inv : s.Inv) (e : TraversalEvent kind V) (meets : LiesBehind s e) :
    ∃ s', s.step e = some s' ∧ s'.Inv ∧ s'.walks = s.walks.step e := by
  cases e with
  | set key value => exact inv.set key value meets
  | delete key =>
    refine ⟨_, rfl, inv.delete key, ?_⟩
    rw [walks, (inv.header.delete_eq key).2.2]
    rfl
  | clear => exact ⟨_, rfl, inv.clear, rfl⟩
  | begin => exact inv.begin
  | next => exact inv.next
  | leave =>
    refine ⟨_, rfl, ⟨inv.header, inv.sorted, inv.given, fun opened => ?_, fun t mem => ?_⟩, ?_⟩
    · exact inv.depth fun none => opened (by rw [none]; rfl)
    · exact inv.traversals t (mem_of_mem_tail mem)
    · rw [walks, map_tail]
      rfl

theorem Inv.run {events : List (TraversalEvent kind V)} (inv : s.Inv) (meets : s.Meets events) :
    ∃ s', s.run events = some s' ∧ s'.Inv ∧ s'.walks = s.walks.run events := by
  induction events generalizing s with
  | nil => exact ⟨s, rfl, inv, rfl⟩
  | cons e events ih =>
    obtain ⟨s₁, steps, inv₁, is₁⟩ := inv.step e meets.1
    obtain ⟨s', runs, inv', is'⟩ := ih inv₁ (meets.2 s₁ steps)
    refine ⟨s', ?_, inv', ?_⟩
    · rw [Traversed.run, steps]
      exact runs
    · rw [is', is₁]
      rfl

/-- Every run whose insertions come to lie behind the open traversals is carried out, and what its traversals visit is what
they visit in the ordered map: the next entry is always the first one that was inserted after all that were visited, and
the traversal ends when there is none. So each traversal has visited entries in the order of their insertion and none twice,
and of the entries that stand in the container it has left out only those that are still ahead. -/
theorem traversals_live (kind : KeyKind) (V : Type) (events : List (TraversalEvent kind V))
    (meets : (new : Traversed kind V).Meets events) :
    ∃ s, (new : Traversed kind V).run events = some s ∧ s.walks = Walks.new.run events ∧
      ∀ visited ∈ s.walks.stack, visited.Pairwise (· < ·) ∧
        ∀ e ∈ s.walks.entries, e.2.2 ∈ visited ∨ ∀ n ∈ visited, n < e.2.2 := by
  obtain ⟨s, runs, inv, is⟩ := inv_new.run meets
  refine ⟨s, runs, is, fun visited mem => ?_⟩
  obtain ⟨t, opened, rfl⟩ := mem_map.1 mem
  have ok := inv.traversals t opened
  refine ⟨ok.order, fun e mem => ?_⟩
  obtain ⟨x, active, rfl⟩ := mem_map.1 mem
  obtain ⟨i, is⟩ := AssocHeader.mem_active.1 active
  have stamp := (s.stamps_getElem? i _).2 ⟨x, is, rfl⟩
  rcases Nat.lt_or_ge i (t.position + 1) with before | behind
  · exact .inl (ok.past i _ stamp before)
  · exact .inr ((ok.ahead i _ stamp).1 behind)

/-- A traversal of `{1, 2, 3}` whose body deletes 2, adds 4 and traverses the set itself; in its last round it clears the
set. -/
theorem traversals_live_nested :
    let events : List (TraversalEvent (.bits .four) Unit) :=
      [.set 1 (), .set 2 (), .set 3 (), .begin, .delete 2, .set 4 (), .begin, .next, .next, .next, .next, .next, .clear]
    ∃ s, (new : Traversed (.bits .four) Unit).run events = some s ∧ s.walks = Walks.new.run events ∧
      ∀ visited ∈ s.walks.stack, visited.Pairwise (· < ·) ∧
        ∀ e ∈ s.walks.entries, e.2.2 ∈ visited ∨ ∀ n ∈ visited, n < e.2.2 :=
  traversals_live _ _ _ (by decide)

/-- The body of a traversal of `{1}` adds 2, which the traversal visits although it was inserted after it began. -/
theorem traversal_visits_appended :
    ∃ s, (new : Traversed (.bits .four) Unit).run [.set 1 (), .begin, .set 2 (), .next] = some s ∧
      s.stack = [⟨1, 1, [0, 1]⟩] ∧ ¬∀ t ∈ s.stack, ∀ n ∈ t.visited, n < t.base := by
  have stack : ((new : Traversed (.bits .four) Unit).run [.set 1 (), .begin, .set 2 (), .next]).map Traversed.stack =
      some [⟨1, 1, [0, 1]⟩] := by
    decide
  obtain ⟨s, runs, opened⟩ := Option.map_eq_some_iff.1 stack
  refine ⟨s, runs, opened, fun earlier => ?_⟩
  exact absurd (earlier _ (opened ▸ mem_singleton_self _) 1 (by simp)) (by decide)

-- a key that is added after `clear` comes to lie where the traversal has been, and is not visited
example : ((new : Traversed (.bits .four) Unit).run
    [.set 1 (), .set 2 (), .begin, .next, .clear, .set 3 (), .next]).map Traversed.stack = some [] := by
  decide

end Traversed

end Subscript.Runtime
