import Subscript.Flow.Descent
import Subscript.Flow.Fixpoint
import Subscript.Flow.Worklist
import Mathlib.Order.Bounds.Defs

/-! How a foreign call passes a boundary struct (`boundary/src/pass.rs`): it copies the bytes, builds a scratch
struct, or cannot build one because the build would meet itself. -/

namespace Subscript.Boundary

open Flow

inductive FieldShape (S : Type*) where
  | bytes | userdata | stringView
  | pair (elements : Option S)
  | validatedPair | callback | descriptorAggregate
  | embedded (nested : S)
  | pointer (target : S) (header constant : Bool)
  | unlowered
  deriving DecidableEq

structure ReadMember (S : Type*) where
  name : String
  shape : FieldShape S
  mutable : Bool

/-- One consumer's view of the boundary structs. The pass decision reads the fields and the read walks the members, which
need not be the same; both are finite. -/
structure View (S : Type*) where
  structs : Finset S
  fields : S → Option (List (FieldShape S))
  name : S → String
  members : S → Option (List (ReadMember S))
  /-- the structs with members -/
  readable : Finset S
  defined : ∀ s, (fields s).isSome → s ∈ structs
  entered : ∀ s, (members s).isSome → s ∈ readable

inductive StructPass where
  | bytes | scratch | cycle
  deriving DecidableEq

inductive PointerPass where
  | scriptMemory | scratchWrittenBack | scratchReadOnly | cycle
  deriving DecidableEq

variable {S : Type*} [DecidableEq S]

/-- the struct that the member holds, points to, or holds elements of -/
def FieldShape.nested : FieldShape S → Option S
  | pair elements => elements
  | embedded nested | pointer nested _ _ => some nested
  | bytes | userdata | stringView | validatedPair | callback | descriptorAggregate | unlowered => none

def FieldShape.embedded? : FieldShape S → Option S
  | embedded nested => some nested
  | _ => none

def memberCopies (bytes : Finset S) : FieldShape S → Bool
  | .bytes | .userdata => true
  | .embedded nested => nested ∈ bytes
  | .pointer target true _ => target ∈ bytes
  | .pointer target false constant => constant && target ∈ bytes
  | .stringView | .pair _ | .validatedPair | .callback | .descriptorAggregate | .unlowered => false

namespace View

variable (view : View S)

def nestedIn (s : S) : List S := ((view.fields s).getD []).filterMap FieldShape.nested

def nestedInMembers (s : S) : List S := ((view.members s).getD []).filterMap fun member => member.shape.nested

/-- the structs that the decision for `s` reads -/
def reachable (s : S) : Finset S :=
  visits view.nestedIn (∑ x ∈ view.structs, (view.nestedIn x).length + 2) [s] ∅

/-- one look at `next` on the way through the embedded structs of `s` -/
def embedVisit (members : S → Option (List (FieldShape S))) (s next : S) : Bool × List S :=
  let nested := ((members next).getD []).filterMap FieldShape.embedded?
  (s ∈ nested, nested)

def embedsItself (candidates : Finset S) (s : S) : Bool :=
  let members t := if t ∈ candidates then view.fields t else none
  search (embedVisit members s) (∑ x ∈ candidates, (embedVisit members s x).2.length + 2) [s] ∅

def retain (bytes : Finset S) : Finset S × Bool :=
  let kept := bytes.filter fun t => (view.fields t).any (·.all (memberCopies bytes))
  (kept, kept.card ≠ bytes.card)

def largestCopyingSet (candidates : Finset S) : Finset S :=
  let table := candidates.filter fun t => (view.fields t).isSome ∧ ¬ view.embedsItself candidates t
  untilStable view.retain (table.card + 1) table

def copyingStructs : Finset S := view.largestCopyingSet view.structs

def bytesStructs (s : S) : Finset S := view.largestCopyingSet (view.reachable s)

end View

/-- the results that a view may keep -/
structure Caches (S : Type*) where
  copying : Option (Finset S) := none
  cycles : Option (Finset S) := none

def Caches.bytes (caches : Caches S) (view : View S) (s : S) : Finset S := caches.copying.getD (view.bytesStructs s)

/-- go down to the nested struct of a member, unless its bytes are copied -/
def buildMove (copies : S → Bool) : Option S → Move S Unit
  | some nested => if copies nested then .skip else .down nested (some ()) none
  | none => .skip

def buildWalk (view : View S) (bytes : Finset S) : Descent S (FieldShape S) Unit Unit Unit where
  vertices := view.structs
  members := view.fields
  finite := view.defined
  move _ field := buildMove (· ∈ bytes) field.nested
  next _ _ _ := ()
  report _ _ _ _ := ()

def buildsCycle (view : View S) (bytes : Finset S) (s : S) : Bool := ((buildWalk view bytes).search () [] none s).isSome

def structPass (caches : Caches S) (view : View S) (s : S) : StructPass :=
  let bytes := caches.bytes view s
  if s ∈ bytes then .bytes
  else
    match caches.cycles with
    | some cycles => if s ∈ cycles then .cycle else .scratch
    | none => if buildsCycle view bytes s then .cycle else .scratch

def cycleStructs (caches : Caches S) (view : View S) : Finset S :=
  view.structs.filter fun s => structPass caches view s = .cycle

/-- the members that make `s` a scratch struct, by index -/
def scratchMembers (caches : Caches S) (view : View S) (s : S) : List Nat :=
  let bytes := caches.bytes view s
  if s ∈ bytes then []
  else ((((view.fields s).getD []).zipIdx).filter fun field => !memberCopies bytes field.1).map Prod.snd

structure StructCycle where
  owner : String
  member : String

/-- `cycle_member`: the build followed by the names of its members -/
def cycleWalk (caches : Caches S) (view : View S) : Descent S (ReadMember S) Unit Unit StructCycle where
  vertices := view.readable
  members := view.members
  finite := view.entered
  move _ member := buildMove (structPass caches view · = .bytes) member.shape.nested
  next _ _ _ := ()
  report _ s member _ := ⟨view.name s, member.name⟩

def firstCycle (caches : Caches S) (view : View S) (s : S) : Option StructCycle :=
  (cycleWalk caches view).search () [] none s

/-- what a view keeps is what the decision computes without it -/
structure Kept (view : View S) extends Caches S where
  copying_eq : ∀ c ∈ copying, c = view.copyingStructs
  cycles_eq : ∀ c ∈ cycles, c = cycleStructs { copying } view

/-! The rule in its own terms: the greatest set of structs that copy their bytes. -/

def FieldShape.Copies (X : Set S) : FieldShape S → Prop
  | bytes | userdata => True
  | embedded nested => nested ∈ X
  | pointer target header constant => (header ∨ constant) ∧ target ∈ X
  | stringView | pair _ | validatedPair | callback | descriptorAggregate | unlowered => False

def Embeds (view : View S) (s nested : S) : Prop := ∃ fields, view.fields s = some fields ∧ .embedded nested ∈ fields

/-- defined structs, none on its own embedding path, each member of which copies within the set -/
def CopyClosed (view : View S) (X : Set S) : Prop :=
  ∀ s ∈ X, ¬ Relation.TransGen (Embeds view) s s ∧ ∃ fields, view.fields s = some fields ∧ ∀ field ∈ fields, field.Copies X

def copying (view : View S) : Set S := {s | ∃ X, CopyClosed view X ∧ s ∈ X}

/-- the build of `s` builds `nested` -/
def Builds (view : View S) (s nested : S) : Prop :=
  ∃ fields, view.fields s = some fields ∧ ∃ field ∈ fields, field.nested = some nested ∧ nested ∉ copying view

/-- the same build, along the members -/
def Enters (view : View S) (s nested : S) : Prop := nested ∈ view.nestedInMembers s ∧ nested ∉ copying view

/-- The fields and the members of a struct nest the same structs, as far as these have any, and a struct that has only
members nests structs with fields. -/
structure View.Coherent (view : View S) : Prop where
  nested : ∀ s n, (view.fields s).isSome →
    (n ∈ view.nestedIn s ∧ (view.fields n).isSome ↔ n ∈ view.nestedInMembers s ∧ (view.members n).isSome)
  aggregate : ∀ s n, view.fields s = none → n ∈ view.nestedInMembers s → (view.members n).isSome → (view.fields n).isSome

section Rule

omit [DecidableEq S]

variable {view : View S} {s : S}

theorem FieldShape.Copies.of_nested {X Y : Set S} {field : FieldShape S} (hc : field.Copies X)
    (h : ∀ n, field.nested = some n → n ∈ X → n ∈ Y) : field.Copies Y := by
  cases field with
  | embedded nested => exact h nested rfl hc
  | pointer target header constant => exact ⟨hc.1, h target rfl hc.2⟩
  | _ => exact hc

theorem copying_isGreatest (view : View S) : IsGreatest {X | CopyClosed view X} (copying view) := by
  constructor
  · rintro s ⟨X, hX, hs⟩
    obtain ⟨hembeds, fields, hf, hall⟩ := hX s hs
    exact ⟨hembeds, fields, hf, fun field h => (hall field h).of_nested fun n _ hn => ⟨X, hX, hn⟩⟩
  · intro X hX s hs
    exact ⟨X, hX, hs⟩

variable {n : S}

theorem mem_nestedIn : n ∈ view.nestedIn s ↔ ∃ fields, view.fields s = some fields ∧ ∃ field ∈ fields, field.nested = some n := by
  unfold View.nestedIn
  cases h : view.fields s <;> simp

theorem mem_nestedInMembers : n ∈ view.nestedInMembers s ↔
    ∃ members, view.members s = some members ∧ ∃ member ∈ members, member.shape.nested = some n := by
  unfold View.nestedInMembers
  cases h : view.members s <;> simp

theorem isSome_members (h : n ∈ view.nestedInMembers s) : (view.members s).isSome := by
  obtain ⟨members, hm, -⟩ := mem_nestedInMembers.mp h
  rw [hm]
  rfl

theorem builds_iff : Builds view s n ↔ n ∈ view.nestedIn s ∧ n ∉ copying view := by
  rw [mem_nestedIn]
  constructor
  · rintro ⟨fields, hf, field, hmem, hn, hnot⟩
    exact ⟨⟨fields, hf, field, hmem, hn⟩, hnot⟩
  · rintro ⟨⟨fields, hf, field, hmem, hn⟩, hnot⟩
    exact ⟨fields, hf, field, hmem, hn, hnot⟩

theorem isSome_of_copying (h : s ∈ copying view) : (view.fields s).isSome := by
  obtain ⟨-, fields, hf, -⟩ := (copying_isGreatest view).1 s h
  rw [hf]
  rfl

theorem mem_nestedIn_of_embeds (h : Embeds view s n) : n ∈ view.nestedIn s := by
  obtain ⟨fields, hf, hmem⟩ := h
  exact mem_nestedIn.mpr ⟨fields, hf, _, hmem, rfl⟩

theorem isSome_of_embeds (h : Embeds view s n) : (view.fields s).isSome := by
  obtain ⟨fields, hf, -⟩ := h
  rw [hf]
  rfl

/-- the build of a struct that copies its bytes builds nothing -/
theorem not_builds_of_copying (h : s ∈ copying view) (n : S) : ¬ Builds view s n := by
  rintro ⟨fields, hf, field, hmem, hn, hnot⟩
  obtain ⟨-, fields', hf', hall⟩ := (copying_isGreatest view).1 s h
  obtain rfl := Option.mem_unique hf hf'
  have hcopies := hall field hmem
  cases field with
  | embedded nested =>
    obtain rfl := Option.some.inj hn
    exact hnot hcopies
  | pointer target header constant =>
    obtain rfl := Option.some.inj hn
    exact hnot hcopies.2
  | pair elements => exact hcopies
  | _ => cases hn

/-- a defined struct all of whose members copy copies its bytes -/
theorem mem_copying_of_fields {fields : List (FieldShape S)} (hf : view.fields s = some fields)
    (hall : ∀ field ∈ fields, field.Copies (copying view)) : s ∈ copying view := by
  by_contra hs
  have hgreatest := copying_isGreatest view
  suffices hclosed : CopyClosed view (insert s (copying view)) from hs (hgreatest.2 hclosed (Set.mem_insert s _))
  intro t ht
  rcases ht with rfl | ht
  · refine ⟨fun hcycle => ?_, fields, hf, fun field h => (hall field h).of_nested fun n _ hn => .inr hn⟩
    -- the embedded struct on the way round copies its bytes, and embeds itself
    obtain ⟨n, ⟨fields', hf', hmem⟩, hrest⟩ := Relation.TransGen.head'_iff.mp hcycle
    obtain rfl := Option.mem_unique hf hf'
    have hn : n ∈ copying view := hall _ hmem
    exact (hgreatest.1 n hn).1 (Relation.TransGen.tail' hrest ⟨fields, hf, hmem⟩)
  · obtain ⟨hembeds, fields', hf', hall'⟩ := hgreatest.1 t ht
    exact ⟨hembeds, fields', hf', fun field h => (hall' field h).of_nested fun n _ hn => .inr hn⟩

variable {copies : S → Bool} {nested : Option S}

theorem buildMove_eq_down {target : S} {closes otherwise : Option Unit} :
    buildMove copies nested = .down target closes otherwise ↔
      nested = some target ∧ copies target = false ∧ closes = some () ∧ otherwise = none := by
  cases nested with
  | none => simp [buildMove]
  | some n =>
    by_cases hn : copies n = true
    · rw [buildMove, if_pos hn]
      constructor
      · rintro ⟨⟩
      · rintro ⟨⟨⟩, h, -⟩
        exact absurd hn (by simp [h])
    · rw [buildMove, if_neg hn]
      constructor
      · rintro ⟨⟩
        exact ⟨rfl, by simpa using hn, rfl, rfl⟩
      · rintro ⟨⟨⟩, -, rfl, rfl⟩
        rfl

theorem buildMove_no_answer :
    ¬ ((∃ a, buildMove copies nested = .found a) ∨ ∃ target closes a, buildMove copies nested = .down target closes (some a)) := by
  rintro (⟨a, h⟩ | ⟨target, closes, a, h⟩)
  · cases nested with
    | none => cases h
    | some n => cases hn : copies n <;> simp [buildMove, hn] at h
  · exact absurd (buildMove_eq_down.mp h).2.2.2 (by simp)

end Rule

variable {view : View S} {s t : S} {C : Finset S}

theorem memberCopies_iff {bytes : Finset S} {field : FieldShape S} : memberCopies bytes field ↔ field.Copies (bytes : Set S) := by
  cases field with
  | pointer target header constant => cases header <;> simp [memberCopies, FieldShape.Copies]
  | _ => simp [memberCopies, FieldShape.Copies]

/-- a struct holds the other one, at some depth -/
def Nests (view : View S) : S → S → Prop := Relation.ReflTransGen fun a b => b ∈ view.nestedIn a

theorem mem_reachable : t ∈ view.reachable s ↔ Nests view s t := by
  refine mem_visits_iff (U := view.structs) (fun x hx => ?_) ?_
  · have hnone := Option.not_isSome_iff_eq_none.mp fun h => hx (view.defined x h)
    simp [View.nestedIn, hnone]
  · simp only [searchWork, List.length_singleton, Finset.sdiff_empty]
    omega

/-- a set of candidates that holds what its members hold -/
def NestedClosed (view : View S) (C : Finset S) : Prop := ∀ s ∈ C, ∀ n ∈ view.nestedIn s, (view.fields n).isSome → n ∈ C

theorem mem_embedVisit {n : S} :
    n ∈ (View.embedVisit (fun t => if t ∈ C then view.fields t else none) s t).2 ↔ t ∈ C ∧ Embeds view t n := by
  simp only [View.embedVisit, Embeds, List.mem_filterMap]
  have hshape : ∀ field : FieldShape S, field.embedded? = some n ↔ field = .embedded n := by
    intro field
    cases field <;> simp [FieldShape.embedded?]
  simp only [hshape, exists_eq_right]
  by_cases ht : t ∈ C
  · cases view.fields t <;> simp [ht]
  · simp [ht]

/-- Within a closed set of candidates the search finds exactly the embedding cycles of the view. -/
theorem embedsItself_iff (hC : NestedClosed view C) (hs : s ∈ C) :
    view.embedsItself C s ↔ Relation.TransGen (Embeds view) s s := by
  have hflag : ∀ t, (View.embedVisit (fun t => if t ∈ C then view.fields t else none) s t).1 = true ↔
      t ∈ C ∧ Embeds view t s := by
    intro t
    rw [← mem_embedVisit (s := s)]
    simp [View.embedVisit]
  unfold View.embedsItself
  rw [search_iff]
  · constructor
    · rintro ⟨y, hp, hy⟩
      refine Relation.TransGen.tail' (hp.lift id fun a b hab => ?_) ((hflag y).mp hy).2
      exact (mem_embedVisit.mp hab.2).2
    · intro h
      obtain ⟨y, hp, hy⟩ := Relation.TransGen.tail'_iff.mp h
      -- from any struct on the way there is a first one that embeds `s`
      have first : ∀ x, Relation.ReflTransGen (Embeds view) x y → ((view.fields x).isSome → x ∈ C) →
          ∃ z, Relation.ReflTransGen (Follows (View.embedVisit (fun t => if t ∈ C then view.fields t else none) s)) x z ∧
            (View.embedVisit (fun t => if t ∈ C then view.fields t else none) s z).1 = true := by
        intro x hx
        induction hx using Relation.ReflTransGen.head_induction_on with
        | refl =>
          intro hmem
          exact ⟨y, .refl, (hflag y).mpr ⟨hmem (isSome_of_embeds hy), hy⟩⟩
        | @head x x' hxx' _ ih =>
          intro hmem
          have hx : x ∈ C := hmem (isSome_of_embeds hxx')
          by_cases hxs : Embeds view x s
          · exact ⟨x, .refl, (hflag x).mpr ⟨hx, hxs⟩⟩
          · obtain ⟨z, hz, hflagged⟩ := ih (hC x hx x' (mem_nestedIn_of_embeds hxx'))
            refine ⟨z, hz.head ⟨?_, mem_embedVisit.mpr ⟨hx, hxx'⟩⟩, hflagged⟩
            rw [← Bool.not_eq_true, hflag]
            exact fun h => hxs h.2
      exact first s hp fun _ => hs
  · intro x hx
    refine List.eq_nil_iff_forall_not_mem.mpr fun n hn => hx (mem_embedVisit.mp hn).1
  · simp only [searchWork, List.length_singleton, Finset.sdiff_empty]
    omega

theorem mem_largestCopyingSet (hC : NestedClosed view C) : t ∈ view.largestCopyingSet C ↔ t ∈ C ∧ t ∈ copying view := by
  let table := C.filter fun t => (view.fields t).isSome ∧ ¬ view.embedsItself C t
  have hgreatest := copying_isGreatest view
  have start : ∀ t ∈ C, t ∈ copying view → t ∈ table := by
    intro t ht hcopy
    obtain ⟨hembeds, fields, hf, -⟩ := hgreatest.1 t hcopy
    refine Finset.mem_filter.mpr ⟨ht, by rw [hf]; rfl, ?_⟩
    rwa [embedsItself_iff hC ht]
  have keeps : ∀ b, (b ⊆ table ∧ ∀ t ∈ C, t ∈ copying view → t ∈ b) →
      (view.retain b).1 ⊆ table ∧ ∀ t ∈ C, t ∈ copying view → t ∈ (view.retain b).1 := by
    rintro b ⟨hsub, hkeep⟩
    refine ⟨(Finset.filter_subset _ _).trans hsub, fun t htC ht => Finset.mem_filter.mpr ⟨hkeep t htC ht, ?_⟩⟩
    obtain ⟨-, fields, hf, hall⟩ := hgreatest.1 t ht
    rw [hf, Option.any_some, List.all_eq_true]
    refine fun field h => memberCopies_iff.mpr ((hall field h).of_nested fun n hn hcopy => hkeep n ?_ hcopy)
    have hnested : n ∈ view.nestedIn t := mem_nestedIn.mpr ⟨fields, hf, field, h, hn⟩
    exact hC t htC n hnested (isSome_of_copying hcopy)
  have falls : ∀ b, (view.retain b).2 = true → (view.retain b).1.card < b.card := fun b hchanged =>
    lt_of_le_of_ne (Finset.card_filter_le _ _) (of_decide_eq_true hchanged)
  obtain ⟨a, ⟨hsub, hkeep⟩, hstable, heq⟩ := untilStable_spec view.retain
    (fun b => b ⊆ table ∧ ∀ t ∈ C, t ∈ copying view → t ∈ b) Finset.card keeps (fun b _ => falls b)
    ⟨Finset.Subset.refl table, start⟩ (Nat.lt_succ_self _)
  have hround : (view.retain a).1 = a := by
    refine Finset.eq_of_subset_of_card_le (Finset.filter_subset _ _) ?_
    exact (not_not.mp (of_decide_eq_false hstable)).ge
  have hclosed : CopyClosed view a := by
    intro s hs
    obtain ⟨hsC, -, hembeds⟩ := Finset.mem_filter.mp (hsub hs)
    rw [embedsItself_iff hC hsC] at hembeds
    have hr : s ∈ (view.retain a).1 := hround.symm ▸ hs
    have hall := (Finset.mem_filter.mp hr).2
    cases hf : view.fields s with
    | none => rw [hf] at hall; exact absurd hall (by simp)
    | some fields =>
      rw [hf, Option.any_some, List.all_eq_true] at hall
      exact ⟨hembeds, fields, rfl, fun field h => memberCopies_iff.mp (hall field h)⟩
  change t ∈ untilStable view.retain (table.card + 1) table ↔ _
  rw [heq, hround]
  constructor
  · intro ht
    exact ⟨(Finset.mem_filter.mp (hsub ht)).1, hgreatest.2 hclosed ht⟩
  · rintro ⟨htC, ht⟩
    exact hkeep t htC ht

omit [DecidableEq S] in
theorem nestedClosed_structs : NestedClosed view view.structs := fun _ _ n _ => view.defined n

theorem nestedClosed_reachable : NestedClosed view (view.reachable s) := fun _ ht _ hn _ =>
  mem_reachable.mpr ((mem_reachable.mp ht).tail hn)

theorem mem_copyingStructs : t ∈ view.copyingStructs ↔ t ∈ copying view := by
  rw [View.copyingStructs, mem_largestCopyingSet nestedClosed_structs]
  exact ⟨And.right, fun h => ⟨view.defined t (isSome_of_copying h), h⟩⟩

variable {caches : Caches S}

/-- whatever the view keeps, the decision for `s` reads the one set -/
theorem mem_bytes (hkept : ∀ c ∈ caches.copying, c = view.copyingStructs)
    (ht : Nests view s t) : t ∈ caches.bytes view s ↔ t ∈ copying view := by
  unfold Caches.bytes
  cases h : caches.copying with
  | some c => rw [Option.getD_some, hkept c h, mem_copyingStructs]
  | none =>
    rw [Option.getD_none, View.bytesStructs, mem_largestCopyingSet nestedClosed_reachable]
    exact ⟨And.right, fun h => ⟨mem_reachable.mpr ht, h⟩⟩

theorem buildsCycle_iff (hkept : ∀ c ∈ caches.copying, c = view.copyingStructs) :
    buildsCycle view (caches.bytes view s) s ↔ ReachesCycle (Builds view) s := by
  have hfollows : ∀ a b, (buildWalk view (caches.bytes view s)).Follows a b ↔ ∃ fields, view.fields a = some fields ∧
      ∃ field ∈ fields, field.nested = some b ∧ b ∉ caches.bytes view s := by
    intro a b
    simp only [Descent.Follows, buildWalk, buildMove_eq_down, decide_eq_false_iff_not]
    aesop
  unfold buildsCycle
  rw [Descent.search_cycle_iff]
  · -- on the structs that `s` reaches both relations are the same
    constructor
    · refine ReachesCycle.congr (C := {x | Nests view s x}) ?_ .refl
      intro a ha b hab
      obtain ⟨fields, hf, field, hmem, hn, hb⟩ := (hfollows a b).mp hab
      have hreach := ha.tail (mem_nestedIn.mpr ⟨fields, hf, field, hmem, hn⟩)
      exact ⟨⟨fields, hf, field, hmem, hn, by rwa [← mem_bytes hkept hreach]⟩, hreach⟩
    · refine ReachesCycle.congr (C := {x | Nests view s x}) ?_ .refl
      intro a ha b hab
      obtain ⟨fields, hf, field, hmem, hn, hb⟩ := hab
      have hreach := ha.tail (mem_nestedIn.mpr ⟨fields, hf, field, hmem, hn⟩)
      exact ⟨(hfollows a b).mpr ⟨fields, hf, field, hmem, hn, by rwa [mem_bytes hkept hreach]⟩, hreach⟩
  · intro k field target closes otherwise h
    rw [(buildMove_eq_down.mp h).2.2.1]
    rfl
  · rintro k ⟨fields, -, field, -, h⟩
    exact buildMove_no_answer h

theorem structPass_eq_bytes (kept : Kept view) : structPass kept.toCaches view s = .bytes ↔ s ∈ copying view := by
  rw [← mem_bytes kept.copying_eq .refl]
  unfold structPass
  by_cases hs : s ∈ kept.bytes view s
  · simp [hs]
  · cases kept.cycles with
    | none => by_cases hc : buildsCycle view (kept.bytes view s) s = true <;> simp [hs, hc]
    | some cycles => by_cases hc : s ∈ cycles <;> simp [hs, hc]

omit [DecidableEq S] in
theorem isSome_of_reachesCycle (h : ReachesCycle (Builds view) s) : (view.fields s).isSome := by
  obtain ⟨n, ⟨fields, hf, -⟩, -⟩ := h.next
  rw [hf]
  rfl

/-- the pass when the cycles are not kept -/
theorem structPass_computed (hkept : ∀ c ∈ caches.copying, c = view.copyingStructs) (hnone : caches.cycles = none) :
    structPass caches view s = .cycle ↔ s ∉ copying view ∧ ReachesCycle (Builds view) s := by
  rw [← mem_bytes hkept .refl, ← buildsCycle_iff hkept]
  unfold structPass
  by_cases hs : s ∈ caches.bytes view s
  · simp [hs]
  · by_cases hc : buildsCycle view (caches.bytes view s) s = true <;> simp [hs, hc, hnone]

theorem structPass_eq_cycle (kept : Kept view) :
    structPass kept.toCaches view s = .cycle ↔ s ∉ copying view ∧ ReachesCycle (Builds view) s := by
  cases hcycles : kept.cycles with
  | none => exact structPass_computed kept.copying_eq hcycles
  | some cycles =>
    have hbytes : s ∈ kept.bytes view s ↔ s ∈ copying view := mem_bytes kept.copying_eq .refl
    have hmem : s ∈ cycles ↔ s ∉ copying view ∧ ReachesCycle (Builds view) s := by
      rw [kept.cycles_eq cycles hcycles, cycleStructs, Finset.mem_filter, structPass_computed (by exact kept.copying_eq) rfl]
      exact ⟨And.right, fun h => ⟨view.defined s (isSome_of_reachesCycle h.2), h⟩⟩
    unfold structPass
    rw [hcycles, ← hmem]
    by_cases hs : s ∈ kept.bytes view s
    · have hno : s ∉ cycles := fun h => (hmem.mp h).1 (hbytes.mp hs)
      simp [hs, hno]
    · by_cases hc : s ∈ cycles <;> simp [hs, hc]

/-- `first_cycle` finds the cycles of the build along the members. -/
theorem firstCycle_isSome (kept : Kept view) :
    (firstCycle kept.toCaches view s).isSome ↔ ReachesCycle (Enters view) s := by
  have hrel : (cycleWalk kept.toCaches view).Follows = Enters view := by
    funext a b
    simp only [Descent.Follows, cycleWalk, buildMove_eq_down, decide_eq_false_iff_not, structPass_eq_bytes kept,
      Enters, mem_nestedInMembers]
    aesop
  rw [firstCycle, Descent.search_cycle_iff, hrel]
  · intro k member target closes otherwise h
    rw [(buildMove_eq_down.mp h).2.2.1]
    rfl
  · rintro k ⟨members, -, member, -, h⟩
    exact buildMove_no_answer h

section Coherent

omit [DecidableEq S]

variable (coherent : view.Coherent)

include coherent

/-- where the fields are known the build along them meets a cycle just when the build along the members does -/
theorem reachesCycle_enters (hs : (view.fields s).isSome) :
    ReachesCycle (Builds view) s ↔ ReachesCycle (Enters view) s := by
  constructor
  · intro h
    refine h.live.congr (C := {x | (view.fields x).isSome}) (fun a ha b hab => ?_) hs
    obtain ⟨hab, c, hbc⟩ := hab
    obtain ⟨hnested, hnot⟩ := builds_iff.mp hab
    have hb : (view.fields b).isSome := by
      obtain ⟨fields, hf, -⟩ := hbc
      rw [hf]
      rfl
    exact ⟨⟨((coherent.nested a b ha).mp ⟨hnested, hb⟩).1, hnot⟩, hb⟩
  · intro h
    refine h.live.congr (C := {x | (view.fields x).isSome}) (fun a ha b hab => ?_) hs
    obtain ⟨⟨hnested, hnot⟩, c, hbc⟩ := hab
    obtain ⟨hnested', hb'⟩ := (coherent.nested a b ha).mpr ⟨hnested, isSome_members hbc.1⟩
    exact ⟨builds_iff.mpr ⟨hnested', hnot⟩, hb'⟩

end Coherent

theorem firstCycle_of_fields (kept : Kept view) (coherent : view.Coherent) (hs : (view.fields s).isSome) :
    (firstCycle kept.toCaches view s).isSome ↔ structPass kept.toCaches view s = .cycle := by
  rw [firstCycle_isSome, ← reachesCycle_enters coherent hs, structPass_eq_cycle]
  refine ⟨fun h => ⟨fun hcopy => ?_, h⟩, And.right⟩
  obtain ⟨n, hn, -⟩ := h.next
  exact not_builds_of_copying hcopy n hn

/-- at a struct without fields the members decide alone -/
theorem firstCycle_of_no_fields (kept : Kept view) (coherent : view.Coherent) (hs : view.fields s = none) :
    (firstCycle kept.toCaches view s).isSome ↔
      ∃ n ∈ view.nestedInMembers s, structPass kept.toCaches view n = .cycle := by
  rw [firstCycle_isSome]
  constructor
  · intro h
    obtain ⟨n, hn, hcycle⟩ := h.next
    obtain ⟨c, hc, -⟩ := hcycle.next
    have hfields := coherent.aggregate s n hs hn.1 (isSome_members hc.1)
    exact ⟨n, hn.1, (firstCycle_of_fields kept coherent hfields).mp ((firstCycle_isSome kept).mpr hcycle)⟩
  · rintro ⟨n, hn, hpass⟩
    obtain ⟨hnot, hcycle⟩ := (structPass_eq_cycle kept).mp hpass
    obtain ⟨x, hx, hxx⟩ := (reachesCycle_enters coherent (isSome_of_reachesCycle hcycle)).mp hcycle
    exact ⟨x, hx.head ⟨hn, hnot⟩, hxx⟩

theorem scratchMembers_eq_nil (kept : Kept view) :
    scratchMembers kept.toCaches view s = [] ↔ s ∈ copying view ∨ view.fields s = none := by
  have hbytes : s ∈ kept.bytes view s ↔ s ∈ copying view := mem_bytes kept.copying_eq .refl
  unfold scratchMembers
  by_cases hs : s ∈ kept.bytes view s
  · simp [hs, hbytes.mp hs]
  · have hnot : s ∉ copying view := fun h => hs (hbytes.mpr h)
    rw [if_neg hs, List.map_eq_nil_iff, List.filter_eq_nil_iff, or_iff_right hnot]
    cases hf : view.fields s with
    | none => simp
    | some fields =>
      refine iff_of_false (fun hall => hnot (mem_copying_of_fields hf fun field h => ?_)) (by simp)
      obtain ⟨k, hk⟩ := List.mem_iff_getElem?.mp h
      have hcopies := hall (field, k) (List.mem_zipIdx_iff_getElem?.mpr (by simpa using hk))
      rw [Bool.not_eq_true', Bool.not_eq_false] at hcopies
      refine (memberCopies_iff.mp hcopies).of_nested fun n hn hmem => ?_
      exact (mem_bytes kept.copying_eq (.single (mem_nestedIn.mpr ⟨fields, hf, field, h, hn⟩))).mp hmem

/-- The pass of a struct, the sets of the whole view and the members that force a scratch struct say the same, whatever the
view keeps. The member that closes a cycle agrees where the struct has fields; where it has only members, the structs that
they nest decide. -/
theorem structPass_agrees (kept : Kept view) (coherent : view.Coherent) (s : S) :
    IsGreatest {X | CopyClosed view X} (copying view) ∧
      (structPass kept.toCaches view s = .bytes ↔ s ∈ copying view) ∧
      (structPass kept.toCaches view s = .cycle ↔ s ∉ copying view ∧ ReachesCycle (Builds view) s) ∧
      (s ∈ view.copyingStructs ↔ structPass kept.toCaches view s = .bytes) ∧
      (s ∈ cycleStructs kept.toCaches view ↔ structPass kept.toCaches view s = .cycle) ∧
      (scratchMembers kept.toCaches view s = [] ↔ structPass kept.toCaches view s = .bytes ∨ view.fields s = none) ∧
      ((view.fields s).isSome →
        ((firstCycle kept.toCaches view s).isSome ↔ structPass kept.toCaches view s = .cycle)) ∧
      (view.fields s = none → structPass kept.toCaches view s = .scratch ∧
        ((firstCycle kept.toCaches view s).isSome ↔
          ∃ n ∈ view.nestedInMembers s, structPass kept.toCaches view n = .cycle)) := by
  refine ⟨copying_isGreatest view, structPass_eq_bytes kept, structPass_eq_cycle kept, ?_, ?_, ?_,
    firstCycle_of_fields kept coherent, fun hs => ⟨?_, firstCycle_of_no_fields kept coherent hs⟩⟩
  · rw [mem_copyingStructs, structPass_eq_bytes kept]
  · rw [cycleStructs, Finset.mem_filter, and_iff_right_iff_imp]
    exact fun h => view.defined s (isSome_of_reachesCycle ((structPass_eq_cycle kept).mp h).2)
  · rw [scratchMembers_eq_nil kept, structPass_eq_bytes kept]
  · have hno : ¬ (view.fields s).isSome := by simp [hs]
    cases hpass : structPass kept.toCaches view s with
    | bytes => exact absurd (isSome_of_copying ((structPass_eq_bytes kept).mp hpass)) hno
    | cycle => exact absurd (isSome_of_reachesCycle ((structPass_eq_cycle kept).mp hpass).2) hno
    | scratch => rfl

/-! A list of nodes that point on to nodes, and the descriptor aggregate of an array of them:
`struct N { int32_t v; struct N *next; }` and `struct NArr { const N *items; size_t count; }`. -/

inductive Declared where
  | n | nArr
  deriving DecidableEq

def nodes : View Declared where
  structs := {.n}
  fields
    | .n => some [.bytes, .pointer .n false false]
    | .nArr => none
  name
    | .n => "N"
    | .nArr => "NArr"
  members
    | .n => some [⟨"v", .bytes, true⟩, ⟨"next", .pointer .n false false, true⟩]
    | .nArr => some [⟨"items", .pair (some .n), false⟩]
  readable := {.n, .nArr}
  defined s := by cases s <;> decide
  entered s := by cases s <;> decide

theorem nodes_coherent : nodes.Coherent where
  nested s t := by cases s <;> cases t <;> decide
  aggregate s t := by cases s <;> cases t <;> decide

theorem structPass_agrees_nodes :
    structPass {} nodes .n = .cycle ∧ (firstCycle {} nodes .n).isSome ∧
      structPass {} nodes .nArr = .scratch ∧ (firstCycle {} nodes .nArr).isSome := by
  have atN := structPass_agrees ⟨{}, nofun, nofun⟩ nodes_coherent .n
  have atArr := structPass_agrees ⟨{}, nofun, nofun⟩ nodes_coherent .nArr
  have cycle : structPass {} nodes .n = .cycle := by decide +kernel
  exact ⟨cycle, (atN.2.2.2.2.2.2.1 rfl).mpr cycle, (atArr.2.2.2.2.2.2.2 rfl).1,
    (atArr.2.2.2.2.2.2.2 rfl).2.mpr ⟨.n, by decide, cycle⟩⟩

/-- `first_cycle` at the descriptor aggregate names a member, though its pass is not a cycle. -/
theorem firstCycle_not_agrees :
    ¬ ((firstCycle {} nodes .nArr).isSome ↔ structPass {} nodes .nArr = .cycle) := by
  decide +kernel

end Subscript.Boundary
