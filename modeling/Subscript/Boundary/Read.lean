import Mathlib.Data.Finset.Prod
import Mathlib.Data.Fintype.Prod
import Subscript.Boundary.Pass

/-! The read direction of a boundary struct (`boundary/src/read.rs`): the members that C writes and the script
reads, found by one walk over embedded structs, pair elements and pointer targets. -/

namespace Subscript.Boundary

open Flow

inductive MemberKind where
  | bytes | userdata
  | pair (mutable : Bool) (elements : Option PointerPass)
  | validatedPair (mutable : Bool)
  | stringView | callback | descriptorAggregate
  | embedded (pass : StructPass)
  | structPointer (pass : PointerPass) (mutable : Bool)
  | unlowered

/-- how C reaches the struct that a walk reads -/
inductive ReadRoot where
  | value
  | fill (pass : StructPass)
  | input (pass : StructPass)
  deriving DecidableEq

inductive Reach where
  | root | embedded | indirect
  deriving DecidableEq

instance : Fintype ReadRoot where
  elems := {.value, .fill .bytes, .fill .scratch, .fill .cycle, .input .bytes, .input .scratch, .input .cycle}
  complete x := by rcases x with _ | (_ | _ | _) | (_ | _ | _) <;> decide

instance : Fintype Reach where
  elems := {.root, .embedded, .indirect}
  complete x := by cases x <;> decide

inductive UnreadableKind where
  | pair | descriptorAggregate | stringView | callback | userdata | validatedPair | writtenBackPair | unlowered
  deriving DecidableEq

inductive MemberRead where
  | readable
  | nested (root : ReadRoot) (reach : Reach) (otherwise : Option UnreadableKind)
  | unreadable (kind : UnreadableKind)

def Reach.below : Reach → Reach
  | root | embedded => embedded
  | indirect => indirect

def targetPass : PointerPass → StructPass
  | .scriptMemory => .bytes
  | .scratchWrittenBack | .scratchReadOnly => .scratch
  | .cycle => .cycle

namespace ReadRoot

/-- a value is C bytes -/
def pass : ReadRoot → StructPass
  | value => .bytes
  | fill pass | input pass => pass

def isInput : ReadRoot → Bool
  | input _ => true
  | value | fill _ => false

def ofTarget (pointer : PointerPass) (mutable : Bool) : ReadRoot :=
  if mutable then fill (targetPass pointer) else input (targetPass pointer)

end ReadRoot

def valueRead (kind : MemberKind) (reach : Reach) : MemberRead :=
  match kind with
  | .bytes => .readable
  | .userdata => .unreadable .userdata
  | .validatedPair _ => .unreadable .pair
  | .pair _ (some _) => .nested .value .indirect (some .pair)
  | .pair _ none => .unreadable .pair
  | .stringView => .unreadable .stringView
  | .callback => .unreadable .callback
  | .descriptorAggregate => .unreadable .descriptorAggregate
  | .unlowered => .unreadable .unlowered
  | .embedded _ => .nested .value reach.below none
  | .structPointer _ _ => .nested .value .indirect none

def fillRead (kind : MemberKind) (pass : StructPass) (reach : Reach) : MemberRead :=
  let scratch := pass = .scratch
  match kind with
  | .bytes => .readable
  | .userdata => if scratch then .readable else .unreadable .userdata
  | .callback => if scratch then .readable else .unreadable .callback
  | .pair _ (some .scratchWrittenBack) => .unreadable .writtenBackPair
  | .pair mutable (some pointer) => .nested (.ofTarget pointer mutable) .indirect none
  | .pair _ none => .readable
  | .validatedPair true => .unreadable .validatedPair
  | .validatedPair false => .readable
  | .stringView => if scratch ∧ reach ≠ .indirect then .readable else .unreadable .stringView
  | .descriptorAggregate => .unreadable .descriptorAggregate
  | .unlowered => .unreadable .unlowered
  | .embedded nestedPass => .nested (.fill nestedPass) reach.below none
  | .structPointer pass mutable => .nested (.ofTarget pass mutable) .indirect none

def inputRead (kind : MemberKind) (reach : Reach) : MemberRead :=
  match kind with
  | .validatedPair true => .unreadable .validatedPair
  | .pair _ (some .scratchWrittenBack) => .unreadable .writtenBackPair
  | .pair mutable (some pointer) => .nested (.ofTarget pointer mutable) .indirect none
  | .embedded pass => .nested (.input pass) reach.below none
  | .structPointer pass mutable => .nested (.ofTarget pass mutable) .indirect none
  | .bytes | .userdata | .validatedPair false | .pair _ none | .stringView | .callback | .descriptorAggregate
  | .unlowered => .readable

def memberRead (kind : MemberKind) (root : ReadRoot) (reach : Reach) : MemberRead :=
  match root with
  | .value => valueRead kind reach
  | .fill pass => fillRead kind pass reach
  | .input _ => inputRead kind reach

variable {S : Type*} [DecidableEq S]

section Passes

variable (caches : Caches S) (view : View S)

/-- `class_pass`, which `pointer_to` and `parameter_pass` are -/
def classPass (s : S) (writable : Bool) : PointerPass :=
  match structPass caches view s with
  | .bytes => .scriptMemory
  | .scratch => if writable then .scratchWrittenBack else .scratchReadOnly
  | .cycle => .cycle

def embeddedPass (parent : StructPass) (nested : S) : StructPass :=
  match parent with
  | .bytes => .bytes
  | .scratch => structPass caches view nested
  | .cycle => .cycle

def memberPass (parent : StructPass) (target : S) (writable : Bool) : PointerPass :=
  match parent with
  | .bytes => .scriptMemory
  | .scratch => classPass caches view target writable
  | .cycle => .cycle

/-- the write-back walk at a member whose pointer C can write when `writable` says so -/
def writeBackMove (writable : Bool) : FieldShape S → Move S Unit
  | .embedded nested | .pair (some nested) =>
    if structPass caches view nested = .scratch then .down nested none none else .skip
  | .pointer target _ _ =>
    match memberPass caches view .scratch target writable with
    | .scratchWrittenBack => .found ()
    | .scratchReadOnly => .down target none none
    | .scriptMemory | .cycle => .skip
  | _ => .skip

def FieldShape.constant : FieldShape S → Bool
  | pointer _ _ constant => constant
  | _ => false

def writesBackWalk : Descent S (FieldShape S) Unit Unit Unit where
  vertices := view.structs
  members := view.fields
  finite := view.defined
  move _ field := writeBackMove caches view (!field.constant) field
  next _ _ _ := ()
  report _ _ _ _ := ()

def writesBack (s : S) : Bool := ((writesBackWalk caches view).search () [] none s).isSome

def elementPass (element : S) (writable : Bool) : PointerPass :=
  match structPass caches view element with
  | .bytes => .scriptMemory
  | .scratch => if writable || writesBack caches view element then .scratchWrittenBack else .scratchReadOnly
  | .cycle => .cycle

def writtenBackWalk : Descent S (ReadMember S) Unit Unit (String × String) where
  vertices := view.readable
  members := view.members
  finite := view.entered
  move _ member := writeBackMove caches view member.mutable member.shape
  next _ _ _ := ()
  report _ s member _ := (view.name s, member.name)

def writtenBackMember (s : S) : Option (String × String) := (writtenBackWalk caches view).search () [] none s

/-- `MemberKind::of` -/
def MemberKind.of (parent : StructPass) (field : FieldShape S) (mutable : Bool) : MemberKind :=
  match field with
  | .bytes => .bytes
  | .unlowered => .unlowered
  | .userdata => .userdata
  | .stringView => .stringView
  | .callback => .callback
  | .descriptorAggregate => .descriptorAggregate
  | .validatedPair => .validatedPair mutable
  | .pair elements => .pair mutable (elements.map fun element => elementPass caches view element mutable)
  | .embedded nested => .embedded (embeddedPass caches view parent nested)
  | .pointer target _ _ => .structPointer (memberPass caches view parent target mutable) mutable

end Passes

structure WrittenBack where
  mutable : Bool
  member : Option (String × String)

/-- the innermost member that has no read lowering -/
structure Unreadable where
  owner : String
  member : String
  kind : UnreadableKind
  through : Option (String × String)
  writtenBack : Option WrittenBack

/-- a struct with the root and the reach at which it is read -/
abbrev Position (S : Type*) := S × ReadRoot × Reach

section Walk

variable (caches : Caches S) (view : View S)

def readOf (p : Position S) (member : ReadMember S) : MemberRead :=
  memberRead (.of caches view p.2.1.pass member.shape member.mutable) p.2.1 p.2.2

def readMove (member : ReadMember S) : MemberRead → Move (Position S) UnreadableKind
  | .readable => .skip
  | .unreadable kind => .found kind
  | .nested root reach otherwise =>
    match member.shape.nested, otherwise with
    | some nested, _ => .down (nested, root, reach) none otherwise
    | none, some kind => .found kind
    | none, none => .skip

/-- the outermost member through which C writes, from an input on -/
def throughOf (fromInput : Bool) (through : Option (String × String)) (p : Position S) (member : ReadMember S) :
    Option (String × String) :=
  match p.2.1, readOf caches view p member with
  | .input _, .nested (.fill _) _ _ => through.or (if fromInput then some (view.name p.1, member.name) else none)
  | _, _ => through

def readWalk (fromInput : Bool) :
    Descent (Position S) (ReadMember S) UnreadableKind (Option (String × String)) Unreadable where
  vertices := view.readable ×ˢ Finset.univ
  members p := view.members p.1
  finite p h := Finset.mem_product.mpr ⟨view.entered p.1 h, Finset.mem_univ _⟩
  move p member := readMove member (readOf caches view p member)
  next through p member := throughOf caches view fromInput through p member
  report through p member kind :=
    { owner := view.name p.1
      member := member.name
      kind
      through := throughOf caches view fromInput through p member
      writtenBack :=
        match kind, member.shape with
        | .writtenBackPair, .pair (some element) => some ⟨member.mutable, writtenBackMember caches view element⟩
        | _, _ => none }

def firstUnreadable (s : S) (root : ReadRoot) (reach : Reach) : Option Unreadable :=
  (readWalk caches view root.isInput).search none [] none (s, root, reach)

end Walk

/-! The paths the walks are for. -/

section Paths

variable (caches : Caches S) (view : View S)

/-- the read at `p` goes on through one of its members at `q` -/
def ReadsOn (p q : Position S) : Prop :=
  ∃ members, view.members p.1 = some members ∧ ∃ member ∈ members, member.shape.nested = some q.1 ∧
    ∃ otherwise, readOf caches view p member = .nested q.2.1 q.2.2 otherwise

/-- a member of the struct at `p` has no read lowering there -/
def LacksLowering (p : Position S) : Prop :=
  ∃ members, view.members p.1 = some members ∧ ∃ member ∈ members,
    (∃ kind, readOf caches view p member = .unreadable kind) ∨
      ∃ root reach kind, readOf caches view p member = .nested root reach (some kind)

/-- The scratch build of `s` goes on to a scratch struct `n` that no written pointer of `s` targets. The parts of a struct
are its fields or its members, each with whether C can write its pointer. -/
def BuildsOn (parts : S → Option (List (FieldShape S × Bool))) (s n : S) : Prop :=
  structPass caches view n = .scratch ∧ ∃ list, parts s = some list ∧ ∃ part ∈ list,
    part.1 = .embedded n ∨ part.1 = .pair (some n) ∨
      part.2 = false ∧ ∃ header constant, part.1 = .pointer n header constant

/-- a pointer of `s` that C can write targets a scratch struct -/
def WritesTarget (parts : S → Option (List (FieldShape S × Bool))) (s : S) : Prop :=
  ∃ list, parts s = some list ∧ ∃ part ∈ list, part.2 = true ∧
    ∃ target header constant, part.1 = .pointer target header constant ∧ structPass caches view target = .scratch

/-- the fields, written unless they are constant -/
def View.fieldParts (s : S) : Option (List (FieldShape S × Bool)) :=
  (view.fields s).map (·.map fun field => (field, !field.constant))

/-- the members, written when they are mutable -/
def View.memberParts (s : S) : Option (List (FieldShape S × Bool)) :=
  (view.members s).map (·.map fun member => (member.shape, member.mutable))

end Paths

variable {caches : Caches S} {view : View S} {s t : S}

variable {writable : Bool} {shape : FieldShape S}

theorem writeBackMove_eq_down {closes otherwise : Option Unit} :
    writeBackMove caches view writable shape = .down t closes otherwise ↔
      closes = none ∧ otherwise = none ∧ structPass caches view t = .scratch ∧
        (shape = .embedded t ∨ shape = .pair (some t) ∨
          writable = false ∧ ∃ header constant, shape = .pointer t header constant) := by
  cases shape with
  | embedded n => by_cases h : structPass caches view n = .scratch <;> simp [writeBackMove, h] <;> aesop
  | pair e =>
    cases e with
    | none => simp [writeBackMove]
    | some n => by_cases h : structPass caches view n = .scratch <;> simp [writeBackMove, h] <;> aesop
  | pointer n header constant =>
    cases h : structPass caches view n <;> cases writable <;> simp [writeBackMove, memberPass, classPass, h] <;> aesop
  | _ => simp [writeBackMove]

theorem writeBackMove_answers :
    ((∃ a, writeBackMove caches view writable shape = .found a) ∨
        ∃ n closes a, writeBackMove caches view writable shape = .down n closes (some a)) ↔
      writable = true ∧ ∃ target header constant, shape = .pointer target header constant ∧
        structPass caches view target = .scratch := by
  have hno : ¬ ∃ n closes a, writeBackMove caches view writable shape = .down n closes (some a) := by
    rintro ⟨n, closes, a, h⟩
    exact absurd (writeBackMove_eq_down.mp h).2.1 (by simp)
  cases shape with
  | embedded n => by_cases h : structPass caches view n = .scratch <;> simp [writeBackMove, h]
  | pair e =>
    cases e with
    | none => simp [writeBackMove]
    | some n => by_cases h : structPass caches view n = .scratch <;> simp [writeBackMove, h]
  | pointer n header constant =>
    cases h : structPass caches view n <;> cases writable <;> simp [writeBackMove, memberPass, classPass, h]
  | _ => simp [writeBackMove]

theorem exists_part {α β : Type*} {o : Option (List α)} {g : α → β} {P : β → Prop} :
    (∃ list, o.map (·.map g) = some list ∧ ∃ part ∈ list, P part) ↔ ∃ list, o = some list ∧ ∃ a ∈ list, P (g a) := by
  cases o <;> simp

theorem writtenBackMember_isSome : (writtenBackMember caches view s).isSome ↔
    ∃ x, Relation.ReflTransGen (BuildsOn caches view view.memberParts) s x ∧ WritesTarget caches view view.memberParts x := by
  have hfollows : (writtenBackWalk caches view).Follows = BuildsOn caches view view.memberParts := by
    funext a b
    simp only [Descent.Follows, writtenBackWalk, writeBackMove_eq_down, BuildsOn, View.memberParts, exists_part]
    aesop
  have hhits : (writtenBackWalk caches view).Hits = WritesTarget caches view view.memberParts := by
    funext a
    simp only [Descent.Hits, writtenBackWalk, writeBackMove_answers, WritesTarget, View.memberParts, exists_part]
  rw [writtenBackMember, Descent.search_isSome_iff, hfollows, hhits]
  intro k member target closes otherwise h
  exact (writeBackMove_eq_down.mp h).1

theorem writesBack_iff : writesBack caches view s ↔
    ∃ x, Relation.ReflTransGen (BuildsOn caches view view.fieldParts) s x ∧ WritesTarget caches view view.fieldParts x := by
  have hfollows : (writesBackWalk caches view).Follows = BuildsOn caches view view.fieldParts := by
    funext a b
    simp only [Descent.Follows, writesBackWalk, writeBackMove_eq_down, BuildsOn, View.fieldParts, exists_part]
    aesop
  have hhits : (writesBackWalk caches view).Hits = WritesTarget caches view view.fieldParts := by
    funext a
    simp only [Descent.Hits, writesBackWalk, writeBackMove_answers, WritesTarget, View.fieldParts, exists_part]
  rw [writesBack, Descent.search_isSome_iff, hfollows, hhits]
  intro k field target closes otherwise h
  exact (writeBackMove_eq_down.mp h).1

variable {member : ReadMember S} {read : MemberRead}

omit [DecidableEq S] in
theorem readMove_eq_down {q : Position S} {closes otherwise : Option UnreadableKind} :
    readMove member read = .down q closes otherwise ↔
      closes = none ∧ member.shape.nested = some q.1 ∧ read = .nested q.2.1 q.2.2 otherwise := by
  cases read with
  | readable => simp [readMove]
  | unreadable kind => simp [readMove]
  | nested root reach o =>
    cases hn : member.shape.nested <;> cases o <;> simp [readMove, hn, Prod.ext_iff] <;> aesop

omit [DecidableEq S] in
/-- a member answers for itself exactly when it has no lowering of its own -/
theorem readMove_answers :
    ((∃ kind, readMove member read = .found kind) ∨ ∃ q closes kind, readMove member read = .down q closes (some kind)) ↔
      (∃ kind, read = .unreadable kind) ∨ ∃ root reach kind, read = .nested root reach (some kind) := by
  cases read with
  | readable => simp [readMove]
  | unreadable kind => simp [readMove]
  | nested root reach o =>
    cases hn : member.shape.nested <;> cases o <;> simp [readMove, hn]

theorem firstUnreadable_isSome {root : ReadRoot} {reach : Reach} : (firstUnreadable caches view s root reach).isSome ↔
    ∃ q, Relation.ReflTransGen (ReadsOn caches view) (s, root, reach) q ∧ LacksLowering caches view q := by
  have hfollows : ∀ fromInput, (readWalk caches view fromInput).Follows = ReadsOn caches view := by
    intro fromInput
    funext p q
    simp only [Descent.Follows, readWalk, readMove_eq_down, ReadsOn]
    aesop
  have hhits : ∀ fromInput, (readWalk caches view fromInput).Hits = LacksLowering caches view := by
    intro fromInput
    funext p
    simp only [Descent.Hits, readWalk, readMove_answers, LacksLowering]
  rw [firstUnreadable, Descent.search_isSome_iff, hfollows, hhits]
  intro p member q closes otherwise h
  exact (readMove_eq_down.mp h).1

/-- The read walk misses no member at the root and reach that a path gives it, and a position writes back exactly
when its write-back walk reaches a member that is written back. -/
theorem reads_and_writes_back (caches : Caches S) (view : View S) (s : S) (root : ReadRoot) (reach : Reach) (writable : Bool) :
    (firstUnreadable caches view s root reach = none ↔
      ¬ ∃ q, Relation.ReflTransGen (ReadsOn caches view) (s, root, reach) q ∧ LacksLowering caches view q) ∧
    (writesBack caches view s ↔
      ∃ x, Relation.ReflTransGen (BuildsOn caches view view.fieldParts) s x ∧ WritesTarget caches view view.fieldParts x) ∧
    ((writtenBackMember caches view s).isSome ↔
      ∃ x, Relation.ReflTransGen (BuildsOn caches view view.memberParts) s x ∧
        WritesTarget caches view view.memberParts x) ∧
    (elementPass caches view s writable = .scratchWrittenBack ↔
      structPass caches view s = .scratch ∧ (writable ∨ writesBack caches view s)) := by
  refine ⟨?_, writesBack_iff, writtenBackMember_isSome, ?_⟩
  · rw [← firstUnreadable_isSome, Option.not_isSome_iff_eq_none]
  · unfold elementPass
    cases structPass caches view s with
    | scratch => cases writable <;> simp
    | _ => simp

end Subscript.Boundary
