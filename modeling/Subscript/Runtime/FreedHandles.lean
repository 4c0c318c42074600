import Subscript.Runtime.Exception
import Subscript.Table.Window
import Mathlib.Data.List.AList
import Mathlib.Data.Finset.Basic

/-! The diagnostics for freed handles (`context/lifecycle.rs`, `sweep_dev_allocations`). What is freed is kept back and
poisoned, the oldest of it being given to the allocator when a byte budget is reached, so that a second delete of an address
is told from one of an address that was never the Context's. -/

namespace Subscript.Runtime

open List Table.Window

structure Allocation where
  layoutSize : Nat
  payloadSize : Nat
deriving DecidableEq, Repr

structure RetainedAllocation where
  payload : Nat
  layoutSize : Nat
deriving DecidableEq, Repr

/-- something that was freed -/
structure Freed where
  payload : Nat
  allocation : Allocation
deriving DecidableEq, Repr

/-- the exact-size allocations of a Context; `frees` is not the program's, and of `traps` it keeps the first -/
structure DevHeap where
  freedHandleDiagnostics : Bool
  minPayloadBytes : Nat
  maxRetainedBytes : Nat
  allocations : AList fun _ : Nat => Allocation
  deadAllocations : Finset Nat
  /-- the oldest first -/
  retainedAllocations : List RetainedAllocation
  retainedBytes : Nat
  liveBytesCounter : Nat
  traps : List TrapRecord
  frees : List Freed

namespace DevHeap

/-- `HEADER_SIZE` -/
def devHeaderSize : Nat := 16

/-- after `set_freed_handle_diagnostics` -/
def new (enabled : Bool) (minPayloadBytes maxRetainedBytes : Nat) : DevHeap :=
  ⟨enabled, minPayloadBytes, maxRetainedBytes, ∅, ∅, [], 0, 0, [], []⟩

variable (s : DevHeap)

/-- `alloc` with the address that the allocator gives, if it gives one -/
def alloc (size : Nat) (answer : Option Nat) (posId : Nat) : DevHeap :=
  match answer with
  | none =>
    { s with
      traps := s.traps ++ [⟨.allocationFailure, "allocation of " ++ toString size ++ " bytes failed", posId⟩] }
  | some payload =>
    { s with
      allocations := s.allocations.insert payload ⟨devHeaderSize + max size 1, size⟩
      liveBytesCounter := s.liveBytesCounter + size }

/-- the live record goes -/
def remove (payload : Nat) (allocation : Allocation) : DevHeap :=
  { s with
    allocations := s.allocations.erase payload
    liveBytesCounter := s.liveBytesCounter - allocation.payloadSize
    frees := s.frees ++ [⟨payload, allocation⟩] }

/-- the oldest records go until `limit` bytes are left at most; `none` is a panic -/
def evict (limit : Nat) : List RetainedAllocation → Finset Nat → Nat → Option (List RetainedAllocation × Finset Nat × Nat)
  | [], dead, bytes => if bytes > limit then none else some ([], dead, bytes)
  | oldest :: retained, dead, bytes =>
    if bytes > limit then
      if oldest.layoutSize > bytes then none
      else evict limit retained (dead.erase oldest.payload) (bytes - oldest.layoutSize)
    else some (oldest :: retained, dead, bytes)

def retainOrReleaseRemovedAllocation (payload : Nat) (allocation : Allocation) : Option DevHeap :=
  let layoutBytes := allocation.layoutSize
  if layoutBytes > s.maxRetainedBytes then some s
  else do
    let (retained, dead, bytes) ←
      evict (s.maxRetainedBytes - layoutBytes) s.retainedAllocations s.deadAllocations s.retainedBytes
    return { s with
      retainedAllocations := retained ++ [⟨payload, layoutBytes⟩]
      deadAllocations := insert payload dead
      retainedBytes := bytes + layoutBytes }

def retireDevAllocation (payload : Nat) : Option DevHeap :=
  match s.allocations.lookup payload with
  | none => some s
  | some allocation => (s.remove payload allocation).retainOrReleaseRemovedAllocation payload allocation

def releaseDevAllocation (payload : Nat) : DevHeap :=
  match s.allocations.lookup payload with
  | none => s
  | some allocation => s.remove payload allocation

def retainsFreedPayload (payloadSize : Nat) : Bool := s.freedHandleDiagnostics && s.minPayloadBytes ≤ payloadSize

def disposeDevAllocation (payload : Nat) : Option DevHeap :=
  if (s.allocations.lookup payload).any fun allocation => s.retainsFreedPayload allocation.payloadSize then
    s.retireDevAllocation payload
  else some (s.releaseDevAllocation payload)

/-- what a delete of an address that is not live reports -/
def deleteReport (payload posId : Nat) : Option TrapRecord :=
  if s.freedHandleDiagnostics then
    if payload ∈ s.deadAllocations then some ⟨.doubleDelete, "Context.free of an already-deleted allocation", posId⟩
    else some ⟨.invalidDelete, "Context.free of a pointer the Context does not own", posId⟩
  else none

/-- `delete` of an allocation whose class has no other storage -/
def deletePlain (payload posId : Nat) : Option DevHeap :=
  match s.allocations.lookup payload with
  | none => some { s with traps := s.traps ++ (s.deleteReport payload posId).toList }
  | some _ => s.disposeDevAllocation payload

def deleteAll (posId : Nat) : List Nat → DevHeap → Option DevHeap
  | [], s => some s
  | payload :: payloads, s => do
    let s ← s.deletePlain payload posId
    deleteAll posId payloads s

/-- `delete`; `storage` is what the release of the class state deletes before, the vectors of a container -/
def delete (payload : Nat) (storage : List Nat) (posId : Nat) : Option DevHeap :=
  match s.allocations.lookup payload with
  | none => some { s with traps := s.traps ++ (s.deleteReport payload posId).toList }
  | some _ => do
    let s ← deleteAll 0 storage s
    s.disposeDevAllocation payload

/-- one record that the sweep extracts -/
def sweepOne (payload : Nat) : Option DevHeap :=
  match s.allocations.lookup payload with
  | none => some s
  | some allocation =>
    let s := s.remove payload allocation
    if !s.freedHandleDiagnostics then some s
    else if allocation.payloadSize < s.minPayloadBytes then some s
    else s.retainOrReleaseRemovedAllocation payload allocation

def sweepDevAllocations : List Nat → DevHeap → Option DevHeap
  | [], s => some s
  | payload :: payloads, s => do
    let s ← s.sweepOne payload
    sweepDevAllocations payloads s

/-- the storage that the release plan of a collection deletes -/
def releaseStorage : List Nat → DevHeap → Option DevHeap
  | [], s => some s
  | payload :: payloads, s =>
    (if payload ∈ s.allocations then s.deletePlain payload 0 else some s).bind (releaseStorage payloads)

inductive Event where
  | alloc (size : Nat) (answer : Option Nat) (posId : Nat)
  | delete (payload : Nat) (storage : List Nat) (posId : Nat)
  /-- the growth of an array -/
  | dispose (payload : Nat)
  /-- a collection, with the marked addresses and the order in which the sweep comes to the others -/
  | collect (storage : List Nat) (marked : Finset Nat) (order : List Nat)

def step : Event → Option DevHeap
  | .alloc size answer posId => some (s.alloc size answer posId)
  | .delete payload storage posId => s.delete payload storage posId
  | .dispose payload => s.disposeDevAllocation payload
  | .collect storage _ order => do
    let s ← releaseStorage storage s
    sweepDevAllocations order s

/-- the allocator gives no address that the Context still owns, and a sweep extracts the records that are not marked -/
def Event.Allowed : Event → Prop
  | .alloc _ answer _ =>
    ∀ payload ∈ answer, payload ∉ s.allocations ∧ ∀ r ∈ s.retainedAllocations, r.payload ≠ payload
  | .collect storage marked order =>
    order.Nodup ∧ ∀ s' ∈ releaseStorage storage s, order.toFinset = s'.allocations.keys.toFinset \ marked
  | _ => True

instance (e : Event) : Decidable (e.Allowed s) :=
  match e with
  | .alloc _ answer _ => inferInstanceAs (Decidable (∀ payload ∈ answer, _ ∧ _))
  | .collect _ _ _ => inferInstanceAs (Decidable (_ ∧ ∀ s' ∈ releaseStorage _ s, _ = _))
  | .delete _ _ _ | .dispose _ => .isTrue trivial

def run : List Event → DevHeap → Option DevHeap
  | [], s => some s
  | e :: events, s => do
    let s ← s.step e
    run events s

def Allowed : List Event → DevHeap → Prop
  | [], _ => True
  | e :: events, s => e.Allowed s ∧ ∀ s' ∈ s.step e, Allowed events s'

def decidableAllowed : (events : List Event) → (s : DevHeap) → Decidable (Allowed events s)
  | [], _ => .isTrue trivial
  | e :: events, s =>
    have : ∀ s', Decidable (Allowed events s') := decidableAllowed events
    inferInstanceAs (Decidable (e.Allowed s ∧ ∀ s' ∈ s.step e, Allowed events s'))

instance (events : List Event) (s : DevHeap) : Decidable (Allowed events s) := decidableAllowed events s

/-- the frees that qualify, as they would be retained -/
def qualifying (minPayloadBytes maxRetainedBytes : Nat) (frees : List Freed) : List RetainedAllocation :=
  (frees.filter fun f => minPayloadBytes ≤ f.allocation.payloadSize && f.allocation.layoutSize ≤ maxRetainedBytes).map
    fun f => ⟨f.payload, f.allocation.layoutSize⟩

/-! ### What the events free -/

/-- the live allocations, and what was freed, the oldest first -/
abbrev Ledger := AList (fun _ : Nat => Allocation) × List Freed

def ledger : Ledger := (s.allocations, s.frees)

/-- a live allocation goes and is the last one freed -/
def Ledger.free (x : Ledger) (payload : Nat) : Ledger :=
  match x.1.lookup payload with
  | none => x
  | some allocation => (x.1.erase payload, x.2 ++ [⟨payload, allocation⟩])

/-- a delete of a live address and a collection free the storage first, a collection then what is not marked -/
def Event.onLedger (x : Ledger) : Event → Ledger
  | .alloc _ none _ => x
  | .alloc size (some payload) _ => (x.1.insert payload ⟨devHeaderSize + max size 1, size⟩, x.2)
  | .delete payload storage _ => if payload ∈ x.1 then (storage.foldl Ledger.free x).free payload else x
  | .dispose payload => x.free payload
  | .collect storage _ order => order.foldl Ledger.free (storage.foldl Ledger.free x)

theorem ledger_remove {payload : Nat} {allocation : Allocation} (live : s.allocations.lookup payload = some allocation) :
    (s.remove payload allocation).ledger = s.ledger.free payload := by
  rw [Ledger.free, show s.ledger.1 = s.allocations from rfl, live]
  rfl

theorem free_eq_self {payload : Nat} (dead : s.allocations.lookup payload = none) : s.ledger.free payload = s.ledger := by
  rw [Ledger.free, show s.ledger.1 = s.allocations from rfl, dead]

/-! ### One free -/

def addresses (retained : List RetainedAllocation) : Finset Nat := (retained.map RetainedAllocation.payload).toFinset

variable {retained : List RetainedAllocation}

theorem mem_addresses {payload : Nat} :
    payload ∈ addresses retained ↔ ∃ r ∈ retained, r.payload = payload := by
  simp [addresses]

theorem evict_spec (limit : Nat) (distinct : (retained.map RetainedAllocation.payload).Nodup) :
    ∃ kept, evict limit retained (addresses retained) (total RetainedAllocation.layoutSize retained) =
        some (kept, addresses kept, total RetainedAllocation.layoutSize kept) ∧
      Longest RetainedAllocation.layoutSize limit retained kept := by
  induction retained with
  | nil => exact ⟨[], if_neg (Nat.not_lt_zero limit), Longest.nil⟩
  | cons oldest retained ih =>
    rw [map_cons, nodup_cons] at distinct
    by_cases exceeds : total RetainedAllocation.layoutSize (oldest :: retained) > limit
    · obtain ⟨kept, gives, longest⟩ := ih distinct.2
      refine ⟨kept, ?_, longest.pop exceeds⟩
      have popped : (addresses (oldest :: retained)).erase oldest.payload = addresses retained := by
        rw [addresses, map_cons, toFinset_cons, Finset.erase_insert]
        · rfl
        · rw [mem_toFinset]
          exact distinct.1
      rw [evict, if_pos exceeds, popped, total_cons, if_neg (by omega), Nat.add_sub_cancel_left]
      exact gives
    · exact ⟨oldest :: retained, by rw [evict, if_neg exceeds], Longest.whole (Nat.le_of_not_lt exceeds)⟩

/-- what holds with the diagnostics on -/
structure Inv (minPayloadBytes maxRetainedBytes : Nat) (s : DevHeap) : Prop where
  enabled : s.freedHandleDiagnostics = true
  threshold : s.minPayloadBytes = minPayloadBytes
  budget : s.maxRetainedBytes = maxRetainedBytes
  bytes : s.retainedBytes = total RetainedAllocation.layoutSize s.retainedAllocations
  dead : s.deadAllocations = addresses s.retainedAllocations
  distinct : (s.retainedAllocations.map RetainedAllocation.payload).Nodup
  apart : ∀ payload ∈ s.deadAllocations, payload ∉ s.allocations
  window : Longest RetainedAllocation.layoutSize maxRetainedBytes (qualifying minPayloadBytes maxRetainedBytes s.frees)
    s.retainedAllocations

/-- an operation ends with the invariant, and leaves this ledger -/
def Gives (minPayloadBytes maxRetainedBytes : Nat) (made : Option DevHeap) (x : Ledger) : Prop :=
  ∃ s, made = some s ∧ s.Inv minPayloadBytes maxRetainedBytes ∧ s.ledger = x

section

variable {s} {least most : Nat}

theorem Gives.bind {made : Option DevHeap} {f : DevHeap → Option DevHeap} {x y : Ledger} (h : Gives least most made x)
    (next : ∀ s, s.Inv least most → s.ledger = x → Gives least most (f s) y) : Gives least most (made.bind f) y := by
  obtain ⟨s, rfl, inv, is⟩ := h
  exact next s inv is

theorem inv_new : Inv least most (new true least most) :=
  ⟨rfl, rfl, rfl, rfl, rfl, nodup_nil, fun _ mem => absurd mem (Finset.notMem_empty _), Longest.nil⟩

theorem qualifying_append (frees : List Freed) (f : Freed) :
    qualifying least most (frees ++ [f]) =
      qualifying least most frees ++
        if least ≤ f.allocation.payloadSize ∧ f.allocation.layoutSize ≤ most then
          [⟨f.payload, f.allocation.layoutSize⟩] else [] := by
  rw [qualifying, filter_append, map_append]
  congr 1
  split_ifs with h
  · simp [h]
  · simp [h]

variable {payload : Nat} {allocation : Allocation}

section

variable (inv : s.Inv least most)

include inv

/-- an allocation that does not qualify is given back -/
theorem Inv.release (other : ¬(least ≤ allocation.payloadSize ∧ allocation.layoutSize ≤ most)) :
    (s.remove payload allocation).Inv least most where
  enabled := inv.enabled
  threshold := inv.threshold
  budget := inv.budget
  bytes := inv.bytes
  dead := inv.dead
  distinct := inv.distinct
  apart := fun address mem live => inv.apart address mem (AList.mem_erase.1 live).2
  window := by
    show Longest _ _ (qualifying _ _ (s.frees ++ [_])) _
    rw [qualifying_append, if_neg other, append_nil]
    exact inv.window

/-- one that qualifies is retained, in the place of the oldest -/
theorem Inv.retain (live : s.allocations.lookup payload = some allocation) (large : least ≤ allocation.payloadSize) :
    Gives least most ((s.remove payload allocation).retainOrReleaseRemovedAllocation payload allocation)
      (s.ledger.free payload) := by
  have isLive : payload ∈ s.allocations := AList.lookup_isSome.1 (Option.isSome_of_eq_some live)
  by_cases exceeds : allocation.layoutSize > most
  · exact ⟨_, if_pos (inv.budget ▸ exceeds), inv.release fun fits => absurd fits.2 (Nat.not_le.2 exceeds), s.ledger_remove live⟩
  · have small := Nat.le_of_not_lt exceeds
    obtain ⟨kept, gives, longest⟩ := evict_spec (most - allocation.layoutSize) inv.distinct
    rw [← inv.dead, ← inv.bytes] at gives
    refine ⟨{ s.remove payload allocation with
      retainedAllocations := kept ++ [⟨payload, allocation.layoutSize⟩]
      deadAllocations := insert payload (addresses kept)
      retainedBytes := total RetainedAllocation.layoutSize kept + allocation.layoutSize }, ?_, ?_, s.ledger_remove live⟩
    · refine (if_neg (inv.budget ▸ exceeds)).trans ?_
      show Option.bind (evict (s.maxRetainedBytes - allocation.layoutSize) s.retainedAllocations s.deadAllocations
        s.retainedBytes) _ = _
      rw [inv.budget, gives]
      rfl
    · have dead : ∀ address ∈ addresses kept, address ∈ s.deadAllocations := by
        intro address mem
        obtain ⟨r, inKept, is⟩ := mem_addresses.1 mem
        exact inv.dead ▸ mem_addresses.2 ⟨r, longest.suffix.subset inKept, is⟩
      have new : payload ∉ addresses kept := fun mem => inv.apart payload (dead payload mem) isLive
      refine ⟨inv.enabled, inv.threshold, inv.budget, ?_, ?_, ?_, ?_, ?_⟩
      · simp
      · ext address
        rw [Finset.mem_insert, mem_addresses, mem_addresses, or_comm, eq_comm]
        simp only [mem_append, mem_singleton, or_and_right, exists_or, exists_eq_left]
      · rw [map_append, map_singleton]
        refine nodup_append.2 ⟨inv.distinct.sublist (longest.suffix.sublist.map _), pairwise_singleton _ _, ?_⟩
        intro a memA b memB
        rw [mem_singleton.1 memB]
        rintro rfl
        exact new (by simpa [addresses] using memA)
      · intro address mem live
        rcases Finset.mem_insert.1 mem with rfl | mem
        · exact absurd live (by simp [remove])
        · exact inv.apart address (dead address mem) (AList.mem_erase.1 live).2
      · show Longest _ _ (qualifying _ _ (s.frees ++ [_])) _
        rw [qualifying_append, if_pos ⟨large, small⟩]
        exact inv.window.push small longest

theorem Inv.dispose (payload : Nat) : Gives least most (s.disposeDevAllocation payload) (s.ledger.free payload) := by
  rw [disposeDevAllocation]
  cases live : s.allocations.lookup payload with
  | none => exact ⟨s, by simp [releaseDevAllocation, live], inv, (s.free_eq_self live).symm⟩
  | some allocation =>
    rw [Option.any_some, retainsFreedPayload, inv.enabled, inv.threshold, Bool.true_and]
    by_cases large : least ≤ allocation.payloadSize
    · rw [if_pos (decide_eq_true large), retireDevAllocation, live]
      exact inv.retain live large
    · rw [if_neg (by simpa using large), releaseDevAllocation, live]
      exact ⟨_, rfl, inv.release fun fits => large fits.1, s.ledger_remove live⟩

theorem Inv.sweepOne (payload : Nat) : Gives least most (s.sweepOne payload) (s.ledger.free payload) := by
  rw [DevHeap.sweepOne]
  cases live : s.allocations.lookup payload with
  | none => exact ⟨s, rfl, inv, (s.free_eq_self live).symm⟩
  | some allocation =>
    have enabled : (s.remove payload allocation).freedHandleDiagnostics = true := inv.enabled
    have threshold : (s.remove payload allocation).minPayloadBytes = least := inv.threshold
    dsimp only
    rw [enabled, threshold, if_neg (by decide)]
    split_ifs with small
    · exact ⟨_, rfl, inv.release fun fits => absurd fits.1 (Nat.not_le.2 small), s.ledger_remove live⟩
    · exact inv.retain live (Nat.le_of_not_lt small)

end

/-! ### Whole operations -/

section

variable (inv : s.Inv least most)

include inv

/-- an operation that only traps -/
theorem Inv.trapped (records : List TrapRecord) :
    Inv least most { s with traps := s.traps ++ records } :=
  ⟨inv.enabled, inv.threshold, inv.budget, inv.bytes, inv.dead, inv.distinct, inv.apart, inv.window⟩

theorem Inv.alloc {size posId : Nat} {answer : Option Nat}
    (fresh : ∀ payload ∈ answer, payload ∉ s.allocations ∧ ∀ r ∈ s.retainedAllocations, r.payload ≠ payload) :
    (s.alloc size answer posId).Inv least most := by
  cases answer with
  | none => exact inv.trapped _
  | some payload =>
    refine ⟨inv.enabled, inv.threshold, inv.budget, inv.bytes, inv.dead, inv.distinct, fun address mem live => ?_, inv.window⟩
    rcases (AList.mem_insert _).1 live with rfl | live
    · rw [show (s.alloc size (some address) posId).deadAllocations = s.deadAllocations from rfl, inv.dead] at mem
      obtain ⟨r, inKept, is⟩ := mem_addresses.1 mem
      exact (fresh address rfl).2 r inKept is
    · exact inv.apart address mem live

theorem Inv.deletePlain (payload posId : Nat) : Gives least most (s.deletePlain payload posId) (s.ledger.free payload) := by
  rw [DevHeap.deletePlain]
  cases live : s.allocations.lookup payload with
  | none => exact ⟨_, rfl, inv.trapped _, (s.free_eq_self live).symm⟩
  | some allocation => exact inv.dispose payload

end

theorem Inv.deleteAll (posId : Nat) (payloads : List Nat) (inv : s.Inv least most) :
    Gives least most (deleteAll posId payloads s) (payloads.foldl Ledger.free s.ledger) := by
  induction payloads generalizing s with
  | nil => exact ⟨s, rfl, inv, rfl⟩
  | cons payload payloads ih =>
    rw [foldl_cons]
    exact (inv.deletePlain payload posId).bind fun _ inv₁ is => is ▸ ih inv₁

theorem Inv.delete (inv : s.Inv least most) (payload : Nat) (storage : List Nat) (posId : Nat) :
    Gives least most (s.delete payload storage posId) (Event.onLedger s.ledger (.delete payload storage posId)) := by
  rw [DevHeap.delete, Event.onLedger, show s.ledger.1 = s.allocations from rfl]
  cases live : s.allocations.lookup payload with
  | none =>
    rw [if_neg (AList.lookup_eq_none.1 live)]
    exact ⟨_, rfl, inv.trapped _, rfl⟩
  | some allocation =>
    rw [if_pos (AList.lookup_isSome.1 (Option.isSome_of_eq_some live))]
    exact (inv.deleteAll 0 storage).bind fun _ inv₁ is => is ▸ inv₁.dispose payload

theorem Inv.sweep (order : List Nat) (inv : s.Inv least most) :
    Gives least most (sweepDevAllocations order s) (order.foldl Ledger.free s.ledger) := by
  induction order generalizing s with
  | nil => exact ⟨s, rfl, inv, rfl⟩
  | cons payload order ih =>
    rw [foldl_cons]
    exact (inv.sweepOne payload).bind fun _ inv₁ is => is ▸ ih inv₁

theorem Inv.releaseStorage (storage : List Nat) (inv : s.Inv least most) :
    Gives least most (releaseStorage storage s) (storage.foldl Ledger.free s.ledger) := by
  induction storage generalizing s with
  | nil => exact ⟨s, rfl, inv, rfl⟩
  | cons payload storage ih =>
    have first : Gives least most (if payload ∈ s.allocations then s.deletePlain payload 0 else some s)
        (s.ledger.free payload) := by
      split_ifs with live
      · exact inv.deletePlain payload 0
      · exact ⟨s, rfl, inv, (s.free_eq_self (AList.lookup_eq_none.2 live)).symm⟩
    rw [foldl_cons]
    exact first.bind fun _ inv₁ is => is ▸ ih inv₁

theorem Inv.step (inv : s.Inv least most) (e : Event) (allowed : e.Allowed s) :
    Gives least most (s.step e) (e.onLedger s.ledger) := by
  cases e with
  | alloc size answer posId => exact ⟨_, rfl, inv.alloc allowed, by cases answer <;> rfl⟩
  | delete payload storage posId => exact inv.delete payload storage posId
  | dispose payload => exact inv.dispose payload
  | collect storage marked order =>
    rw [Event.onLedger]
    exact (inv.releaseStorage storage).bind fun _ inv₁ is => is ▸ inv₁.sweep order

theorem Inv.run (events : List Event) (inv : s.Inv least most) (allowed : Allowed events s) :
    Gives least most (run events s) (events.foldl Event.onLedger s.ledger) := by
  induction events generalizing s with
  | nil => exact ⟨s, rfl, inv, rfl⟩
  | cons e events ih =>
    obtain ⟨s₁, first, inv₁, is⟩ := inv.step e allowed.1
    obtain ⟨s', rest, inv', is'⟩ := ih inv₁ (allowed.2 s₁ first)
    exact ⟨s', by rw [DevHeap.run, first]; exact rest, inv', is'.trans (is ▸ rfl)⟩

theorem Inv.deleteReport_iff (inv : s.Inv least most) (payload posId : Nat) :
    (s.allocations.lookup payload = none ∧ ∃ message, s.deleteReport payload posId = some ⟨.doubleDelete, message, posId⟩) ↔
      (∃ r ∈ s.retainedAllocations, r.payload = payload) ∧ payload ∉ s.allocations := by
  rw [AList.lookup_eq_none, deleteReport, inv.enabled, if_pos rfl, ← mem_addresses, ← inv.dead]
  by_cases isDead : payload ∈ s.deadAllocations
  · simp [isDead]
  · simp [isDead]

end

/-- In every state that a run reaches with the diagnostics on, what is live and what was freed are what the events say, the
retained bytes are those of the retained layouts and within the budget, no retained address is live, what is retained is the
longest suffix of the qualifying frees that fits the budget, and a delete reports a double delete exactly for an address of
that suffix that is not live again. -/
theorem freed_handles (minPayloadBytes maxRetainedBytes : Nat) (events : List Event)
    (allowed : Allowed events (new true minPayloadBytes maxRetainedBytes)) :
    ∃ s, run events (new true minPayloadBytes maxRetainedBytes) = some s ∧
      (s.allocations, s.frees) = events.foldl Event.onLedger (∅, []) ∧
      s.retainedBytes = (s.retainedAllocations.map RetainedAllocation.layoutSize).sum ∧
      s.retainedBytes ≤ maxRetainedBytes ∧
      (∀ payload, payload ∈ s.deadAllocations ↔ ∃ r ∈ s.retainedAllocations, r.payload = payload) ∧
      (∀ payload ∈ s.deadAllocations, payload ∉ s.allocations) ∧
      Longest RetainedAllocation.layoutSize maxRetainedBytes (qualifying minPayloadBytes maxRetainedBytes s.frees)
        s.retainedAllocations ∧
      ∀ payload posId,
        (s.allocations.lookup payload = none ∧
            ∃ message, s.deleteReport payload posId = some ⟨.doubleDelete, message, posId⟩) ↔
          (∃ r ∈ s.retainedAllocations, r.payload = payload) ∧ payload ∉ s.allocations := by
  obtain ⟨s, runs, inv, ledger⟩ := inv_new.run events allowed
  refine ⟨s, runs, ledger, inv.bytes, inv.bytes ▸ inv.window.fits, fun payload => ?_, inv.apart, inv.window,
    inv.deleteReport_iff⟩
  rw [inv.dead, mem_addresses]

/-- Three frees of 32 bytes in a budget of 64: the oldest goes, its address is given out again, and the second delete of
another one is reported. -/
theorem freed_handles_budget :
    let events : List Event := [.alloc 16 (some 32) 0, .alloc 16 (some 96) 0, .alloc 16 (some 160) 0, .delete 32 [] 1,
      .collect [] {160} [96], .delete 160 [] 2, .alloc 16 (some 32) 3, .delete 96 [] 4]
    ∃ s, run events (new true 1 64) = some s ∧ s.retainedAllocations = [⟨96, 32⟩, ⟨160, 32⟩] ∧
      s.traps = [⟨.doubleDelete, "Context.free of an already-deleted allocation", 4⟩] ∧ s.retainedBytes ≤ 64 := by
  intro events
  obtain ⟨s, runs, -, -, fits, -⟩ := freed_handles 1 64 events (by decide)
  have is : (run events (new true 1 64)).map (fun s => (s.retainedAllocations, s.traps)) =
      some ([⟨96, 32⟩, ⟨160, 32⟩], [⟨.doubleDelete, "Context.free of an already-deleted allocation", 4⟩]) := by
    decide
  rw [runs, Option.map_some, Option.some.injEq, Prod.mk.injEq] at is
  exact ⟨s, runs, is.1, is.2, fits⟩

end DevHeap

end Subscript.Runtime
