import Mathlib.Data.Finset.Sort
import Subscript.Runtime.Exception
import Subscript.Table.Lookup

/-! Callback registrations (`registration.rs`): a record that the host releases once, with the count of the calls that run
through it. A call may fire again, release its own or another registration, and collect, so the calls in progress are a
stack and the record has to outlive the last of them. -/

namespace Subscript.Runtime

open List

/-- a record; its number is not the program's -/
structure CallbackRegistration where
  code : Nat
  env : Nat
  userdata1 : Nat
  userdata2 : Nat
  isOpen : Bool
  activeCalls : Nat
  id : Nat
deriving DecidableEq, Repr

/-- a trampoline call in progress, and whether it went on to the script -/
structure Call where
  address : Nat
  id : Nat
  script : Bool
deriving DecidableEq, Repr

/-- a Context with the calls in progress, the innermost first. The calls, the number of registrations that were made and the
numbers of those that were released are not the program's. -/
structure Callbacks where
  registrations : AList fun _ : Nat => CallbackRegistration
  liveAllocations : Finset Nat
  /-- the freed allocations that the diagnostics retain, with their positions -/
  deadAllocations : AList fun _ : Nat => Nat
  trapped : Bool
  traps : List TrapRecord
  calls : List Call
  issued : Nat
  released : List Nat

/-- what the host registered: the code, the environment and the two userdata -/
abbrev Values := Nat × Nat × Nat × Nat

def CallbackRegistration.values (r : CallbackRegistration) : Values := (r.code, r.env, r.userdata1, r.userdata2)

namespace Callbacks

def new : Callbacks := ⟨∅, ∅, ∅, false, [], [], 0, []⟩

variable (s : Callbacks)

def trap (kind : TrapKind) (message : String) (posId : Nat) : Callbacks :=
  { s with trapped := true, traps := s.traps ++ [⟨kind, message, posId⟩] }

/-- `register_callback`; the allocator gives the record the address `pointer` -/
def registerCallback (pointer code env userdata1 userdata2 : Nat) : Callbacks :=
  { s with
    registrations := s.registrations.insert pointer ⟨code, env, userdata1, userdata2, true, 0, s.issued⟩
    issued := s.issued + 1 }

def endRegistration (key : Nat) : Callbacks := { s with registrations := s.registrations.erase key }

def setRegistration (key : Nat) (record : CallbackRegistration) : Callbacks :=
  { s with registrations := s.registrations.insert key record }

def releaseCallbackRegistration (key : Nat) : Callbacks × Bool :=
  match s.registrations.lookup key with
  | none => (s, false)
  | some record =>
    if !record.isOpen then (s, false)
    else
      let s := { s.setRegistration key { record with isOpen := false } with released := record.id :: s.released }
      (if record.activeCalls = 0 then s.endRegistration key else s, true)

def registrationEnter (key : Nat) : Callbacks × Option CallbackRegistration :=
  match (s.registrations.lookup key).filter CallbackRegistration.isOpen with
  | none => (s.trap .callbackRegistrationEnded "a callback fired through a registration the host released" 0, none)
  | some record =>
    (s.setRegistration key { record with activeCalls := saturatingAdd32 record.activeCalls 1 }, some record)

def registrationExit (key : Nat) : Callbacks :=
  match s.registrations.lookup key with
  | none => s
  | some record =>
    let record := { record with activeCalls := record.activeCalls - 1 }
    if record.isOpen || record.activeCalls ≠ 0 then s.setRegistration key record
    else s.endRegistration key

/-- `validate_callback_userdata` -/
def validateCallbackUserdata (payload : Nat) : Callbacks × Bool :=
  if payload = 0 then (s, true)
  else
    match s.deadAllocations.lookup payload with
    | some posId => (s.trap .callbackUserdataFreed "callback userdata points to a freed allocation" posId, false)
    | none =>
      if payload ∈ s.liveAllocations then (s, true)
      else (s.trap .callbackUserdataFreed "callback userdata is not a live allocation" 0, false)

/-- `fire_callback` up to the call of the script, and whether it is called -/
def fireCallback (record : CallbackRegistration) : Callbacks × Bool :=
  if s.trapped then (s, false)
  else
    let (s, first) := s.validateCallbackUserdata record.userdata1
    if !first then (s, false) else s.validateCallbackUserdata record.userdata2

/-- the trampoline up to the call of the script -/
def fire (pointer : Nat) : Callbacks :=
  if pointer = 0 then s
  else
    match s.registrationEnter pointer with
    | (s, none) => s
    | (s, some record) =>
      let (s, script) := s.fireCallback record
      { s with calls := ⟨pointer, record.id, script⟩ :: s.calls }

/-- the trampoline after it: the innermost call returns -/
def return_ : Callbacks :=
  match s.calls with
  | [] => s
  | call :: calls => { s.registrationExit call.address with calls }

/-- the roots of a collection: the rank of the record, the slot and the address -/
def registrationRoots : List (Nat × Nat × Nat) :=
  ((s.registrations.keys.toFinset.sort (· ≤ ·)).zipIdx).flatMap fun (key, index) =>
    match s.registrations.lookup key with
    | none => []
    | some record =>
      ([record.userdata1, record.userdata2].zipIdx.filter fun (address, _) =>
        address ≠ 0 && address ∈ s.liveAllocations).map fun (address, word) => (index, word, address)

inductive Event where
  | register (pointer code env userdata1 userdata2 : Nat)
  | fire (pointer : Nat)
  | return_
  | release (pointer : Nat)
  | alloc (payload : Nat)
  /-- `retained` is the position of the allocation when the diagnostics keep it -/
  | delete (payload : Nat) (retained : Option Nat)
  /-- a collection that leaves the survivors -/
  | collect (survivors : Finset Nat)
  | clearTrap

def step : Event → Callbacks
  | .register pointer code env userdata1 userdata2 => s.registerCallback pointer code env userdata1 userdata2
  | .fire pointer => s.fire pointer
  | .return_ => s.return_
  | .release pointer => (s.releaseCallbackRegistration pointer).1
  | .alloc payload =>
    { s with
      liveAllocations := insert payload s.liveAllocations
      deadAllocations := s.deadAllocations.erase payload }
  | .delete payload retained =>
    { s with
      liveAllocations := s.liveAllocations.erase payload
      deadAllocations := retained.elim s.deadAllocations fun posId => s.deadAllocations.insert payload posId }
  | .collect survivors => { s with liveAllocations := survivors }
  | .clearTrap => { s with trapped := false }

def Event.registered : Event → Option Values
  | .register _ code env userdata1 userdata2 => some (code, env, userdata1, userdata2)
  | _ => none

/-- what the registrations of a run were made with; the number of a record is its place here -/
def history (events : List Event) : List Values := events.filterMap Event.registered

/-- a new record takes no address of a live one, and a collection keeps the roots -/
def Event.Allowed : Event → Prop
  | .register pointer _ _ _ _ => pointer ∉ s.registrations
  | .collect survivors => survivors ⊆ s.liveAllocations ∧ ∀ root ∈ s.registrationRoots, root.2.2 ∈ survivors
  | _ => True

/-- the counter of the record that fires does not stand at its end -/
def Event.Meets : Event → Prop
  | .fire pointer => ∀ record ∈ s.registrations.lookup pointer, record.activeCalls < u32Max
  | _ => True

instance (e : Event) : Decidable (e.Allowed s) :=
  match e with
  | .register pointer _ _ _ _ => inferInstanceAs (Decidable (pointer ∉ s.registrations))
  | .collect survivors => inferInstanceAs (Decidable (survivors ⊆ s.liveAllocations ∧ ∀ root ∈ s.registrationRoots, _))
  | .fire _ | .return_ | .release _ | .alloc _ | .delete _ _ | .clearTrap => .isTrue trivial

instance (e : Event) : Decidable (e.Meets s) :=
  match e with
  | .fire pointer => inferInstanceAs (Decidable (∀ record ∈ s.registrations.lookup pointer, _ < _))
  | .register _ _ _ _ _ | .return_ | .release _ | .alloc _ | .delete _ _ | .collect _ | .clearTrap => .isTrue trivial

def run : List Event → Callbacks → Callbacks
  | [], s => s
  | e :: events, s => run events (s.step e)

/-- the events of a run are all such -/
def Each (P : Callbacks → Event → Prop) : List Event → Callbacks → Prop
  | [], _ => True
  | e :: events, s => P s e ∧ Each P events (s.step e)

def decidableEach {P : Callbacks → Event → Prop} [∀ s e, Decidable (P s e)] :
    (events : List Event) → (s : Callbacks) → Decidable (Each P events s)
  | [], _ => .isTrue trivial
  | e :: events, s =>
    have := decidableEach (P := P) events (s.step e)
    inferInstanceAs (Decidable (P s e ∧ Each P events (s.step e)))

instance {P : Callbacks → Event → Prop} [∀ s e, Decidable (P s e)] (events : List Event) (s : Callbacks) :
    Decidable (Each P events s) :=
  decidableEach events s

/-! ### The invariant -/

/-- the number of calls in progress through a registration -/
def inProgress (calls : List Call) (id : Nat) : Nat := calls.countP fun call => call.id = id

@[simp] theorem inProgress_cons (call : Call) (calls : List Call) (id : Nat) :
    inProgress (call :: calls) id = inProgress calls id + if call.id = id then 1 else 0 := by
  simp [inProgress, countP_cons]

structure Inv (made : List Values) (s : Callbacks) : Prop where
  places : s.issued = made.length
  carried : ∀ {p r}, s.registrations.lookup p = some r → made[r.id]? = some r.values
  numbered : ∀ {p r}, s.registrations.lookup p = some r → r.id < s.issued
  unique : ∀ {p q r t}, s.registrations.lookup p = some r → s.registrations.lookup q = some t → r.id = t.id → p = q
  openIff : ∀ {p r}, s.registrations.lookup p = some r → (r.isOpen = true ↔ r.id ∉ s.released)
  needed : ∀ {p r}, s.registrations.lookup p = some r → r.isOpen = true ∨ 0 < r.activeCalls
  counter : ∀ {p r}, s.registrations.lookup p = some r → r.activeCalls = inProgress s.calls r.id
  calls : ∀ call ∈ s.calls, ∃ r, s.registrations.lookup call.address = some r ∧ r.id = call.id
  unreleased : ∀ id < s.issued, id ∉ s.released → ∃ p r, s.registrations.lookup p = some r ∧ r.id = id
  given : ∀ id ∈ s.released, id < s.issued
  once : s.released.Nodup

variable {s} {s' : Callbacks} {p : Nat} {r : CallbackRegistration} {made : List Values}

theorem inv_new : Inv [] new := by
  constructor <;> simp [new]

/-- a step that leaves the records and the calls alone, as a call before the script -/
structure Same (s s' : Callbacks) : Prop where
  registrations : s'.registrations = s.registrations
  calls : s'.calls = s.calls
  issued : s'.issued = s.issued
  released : s'.released = s.released

theorem Same.refl (s : Callbacks) : Same s s := ⟨rfl, rfl, rfl, rfl⟩

theorem Same.trans {s₁ s₂ s₃ : Callbacks} (h : Same s₁ s₂) (h' : Same s₂ s₃) : Same s₁ s₃ :=
  ⟨h'.registrations.trans h.registrations, h'.calls.trans h.calls, h'.issued.trans h.issued,
    h'.released.trans h.released⟩

theorem Inv.congr (inv : s.Inv made) (same : Same s s') : s'.Inv made := by
  obtain ⟨h₁, h₂, h₃, h₄, h₅, h₆, h₇, h₈, h₉, h₁₀, h₁₁⟩ := inv
  constructor <;> simp only [same.registrations, same.calls, same.issued, same.released]
  all_goals assumption

theorem Inv.register (inv : s.Inv made) {pointer : Nat} (fresh : pointer ∉ s.registrations) (code env userdata1 userdata2 : Nat) :
    (s.registerCallback pointer code env userdata1 userdata2).Inv (made ++ [(code, env, userdata1, userdata2)]) := by
  have absent := AList.lookup_eq_none.2 fresh
  -- a record is the new one, or one of before
  have cases_ : ∀ {p r}, (s.registerCallback pointer code env userdata1 userdata2).registrations.lookup p = some r →
      p = pointer ∧ r = ⟨code, env, userdata1, userdata2, true, 0, s.issued⟩ ∨ s.registrations.lookup p = some r := by
    intro p r is
    rw [registerCallback, Table.lookup_insert_eq] at is
    split_ifs at is with same
    · exact .inl ⟨same, (Option.some.inj is).symm⟩
    · exact .inr is
  have kept : ∀ {p r}, s.registrations.lookup p = some r →
      (s.registerCallback pointer code env userdata1 userdata2).registrations.lookup p = some r := by
    intro p r is
    rw [registerCallback, Table.lookup_insert_eq, if_neg]
    · exact is
    · rintro rfl
      rw [absent] at is
      cases is
  have unused : s.issued ∉ s.released := fun mem => Nat.lt_irrefl _ (inv.given _ mem)
  refine ⟨?_, fun is => ?_, fun is => ?_, fun is is' same => ?_, fun is => ?_, fun is => ?_, fun is => ?_,
    fun call mem => ?_, fun id small out => ?_, fun id mem => Nat.lt_succ_of_lt (inv.given id mem), inv.once⟩
  · rw [length_append, ← inv.places]
    rfl
  · rcases cases_ is with ⟨rfl, rfl⟩ | is
    · rw [inv.places]
      exact getElem?_concat_length
    · rw [getElem?_append_left (inv.places ▸ inv.numbered is)]
      exact inv.carried is
  · rcases cases_ is with ⟨rfl, rfl⟩ | is
    · exact Nat.lt_succ_self _
    · exact Nat.lt_succ_of_lt (inv.numbered is)
  · rcases cases_ is with ⟨rfl, rfl⟩ | old <;> rcases cases_ is' with ⟨rfl, rfl⟩ | old'
    · rfl
    · exact absurd same (Nat.ne_of_gt (inv.numbered old'))
    · exact absurd same (Nat.ne_of_lt (inv.numbered old))
    · exact inv.unique old old' same
  · rcases cases_ is with ⟨rfl, rfl⟩ | is
    · exact ⟨fun _ => unused, fun _ => rfl⟩
    · exact inv.openIff is
  · rcases cases_ is with ⟨rfl, rfl⟩ | is
    · exact .inl rfl
    · exact inv.needed is
  · rcases cases_ is with ⟨rfl, rfl⟩ | is
    · refine (countP_eq_zero.2 fun call mem => ?_).symm
      obtain ⟨r, is, same⟩ := inv.calls call mem
      have := inv.numbered is
      simp only [decide_eq_true_eq]
      omega
    · exact inv.counter is
  · obtain ⟨r, is, same⟩ := inv.calls call mem
    exact ⟨r, kept is, same⟩
  · rcases Nat.lt_succ_iff_lt_or_eq.1 small with old | rfl
    · obtain ⟨p, r, is, same⟩ := inv.unreleased id old out
      exact ⟨p, r, kept is, same⟩
    · exact ⟨pointer, _, AList.lookup_insert _, rfl⟩

/-- One record is replaced or taken out: the rest follows from what the step says of it. -/
theorem Inv.update (inv : s.Inv made) (found : s.registrations.lookup p = some r) (o : Option CallbackRegistration)
    (records : ∀ q, s'.registrations.lookup q = if q = p then o else s.registrations.lookup q) (issued : s'.issued = s.issued)
    (released : ∀ id, id ∈ s'.released ↔ id ∈ s.released ∨ id = r.id ∧ ∀ r' ∈ o, r'.isOpen = false) (once : s'.released.Nodup)
    (values : ∀ r' ∈ o, r'.values = r.values)
    (record : ∀ r' ∈ o, r'.id = r.id ∧ (r'.isOpen = true ↔ r.id ∉ s'.released) ∧ (r'.isOpen = true ∨ 0 < r'.activeCalls) ∧
      r'.activeCalls = inProgress s'.calls r.id)
    (others : ∀ id ≠ r.id, inProgress s'.calls id = inProgress s.calls id)
    (calls : ∀ call ∈ s'.calls, (call ∈ s.calls ∨ call.address = p ∧ call.id = r.id) ∧ (call.id = r.id → o.isSome)) :
    s'.Inv made := by
  have cases_ : ∀ {q t}, s'.registrations.lookup q = some t →
      q = p ∧ t ∈ o ∨ s.registrations.lookup q = some t ∧ t.id ≠ r.id := by
    intro q t is
    rw [records] at is
    split_ifs at is with eq
    · exact .inl ⟨eq, is⟩
    · exact .inr ⟨is, fun ids => eq (inv.unique is found ids)⟩
  have kept : ∀ {q t}, s.registrations.lookup q = some t → (t.id = r.id → o.isSome) →
      ∃ t', s'.registrations.lookup q = some t' ∧ t'.id = t.id := by
    intro q t is there
    rw [records]
    split_ifs with eq
    · subst eq
      obtain rfl := Option.mem_unique is found
      obtain ⟨r', isSome⟩ := Option.isSome_iff_exists.1 (there rfl)
      exact ⟨r', isSome, (record r' isSome).1⟩
    · exact ⟨t, is, rfl⟩
  refine ⟨issued.trans inv.places, fun is => ?_, fun is => ?_, fun is is' ids => ?_, fun is => ?_, fun is => ?_,
    fun is => ?_, fun call mem => ?_, fun id small out => ?_, fun id mem => ?_, once⟩
  · rcases cases_ is with ⟨-, new⟩ | ⟨is, -⟩
    · rw [(record _ new).1, values _ new]
      exact inv.carried found
    · exact inv.carried is
  · rw [issued]
    rcases cases_ is with ⟨-, new⟩ | ⟨is, -⟩
    · rw [(record _ new).1]
      exact inv.numbered found
    · exact inv.numbered is
  · rcases cases_ is with ⟨rfl, new⟩ | ⟨is, other⟩ <;> rcases cases_ is' with ⟨rfl, new'⟩ | ⟨is', other'⟩
    · rfl
    · exact absurd (ids.symm.trans (record _ new).1) other'
    · exact absurd (ids.trans (record _ new').1) other
    · exact inv.unique is is' ids
  · rcases cases_ is with ⟨-, new⟩ | ⟨is, other⟩
    · rw [(record _ new).1]
      exact (record _ new).2.1
    · rw [released, inv.openIff is]
      simp [other]
  · rcases cases_ is with ⟨-, new⟩ | ⟨is, -⟩
    · exact (record _ new).2.2.1
    · exact inv.needed is
  · rcases cases_ is with ⟨-, new⟩ | ⟨is, other⟩
    · rw [(record _ new).1]
      exact (record _ new).2.2.2
    · rw [others _ other]
      exact inv.counter is
  · obtain ⟨old | ⟨isAddress, isId⟩, there⟩ := calls call mem
    · obtain ⟨t, is, ids⟩ := inv.calls call old
      obtain ⟨t', is', ids'⟩ := kept is fun eq => there (ids.symm.trans eq)
      exact ⟨t', is', ids'.trans ids⟩
    · obtain ⟨r', isSome⟩ := Option.isSome_iff_exists.1 (there isId)
      exact ⟨r', by rw [records, if_pos isAddress, isSome], (record r' isSome).1.trans isId.symm⟩
  · rw [issued] at small
    rw [released] at out
    obtain ⟨q, t, is, ids⟩ := inv.unreleased id small fun mem => out (.inl mem)
    obtain ⟨t', is', ids'⟩ := kept is fun eq => by
      cases o with
      | none => exact absurd (.inr ⟨ids.symm.trans eq, nofun⟩) out
      | some r' => rfl
    exact ⟨q, t', is', ids'.trans ids⟩
  · rw [issued]
    rcases (released id).1 mem with old | ⟨rfl, -⟩
    · exact inv.given id old
    · exact inv.numbered found

/-! ### Steps -/

theorem Inv.release (inv : s.Inv made) (p : Nat) : (s.releaseCallbackRegistration p).1.Inv made := by
  rw [releaseCallbackRegistration]
  cases found : s.registrations.lookup p with
  | none => exact inv
  | some r =>
    dsimp only
    cases isOpen : r.isOpen with
    | false => exact inv
    | true =>
      have out := (inv.openIff found).1 isOpen
      have once : (r.id :: s.released).Nodup := nodup_cons.2 ⟨out, inv.once⟩
      by_cases idle : r.activeCalls = 0
      · have noCall : inProgress s.calls r.id = 0 := (inv.counter found).symm.trans idle
        rw [if_neg (by decide), if_pos idle]
        refine inv.update found none (fun q => ?_) rfl (fun id => ?_) once nofun nofun (fun _ _ => rfl) fun call mem =>
          ⟨.inl mem, fun ids => ?_⟩
        · rw [endRegistration, setRegistration, Table.lookup_erase_eq, Table.lookup_insert_eq]
          split_ifs <;> rfl
        · simp [endRegistration, or_comm]
        · exact absurd (decide_eq_true ids) (countP_eq_zero.1 noCall call mem)
      · rw [if_neg (by decide), if_neg idle]
        refine inv.update found (some { r with isOpen := false }) Table.lookup_insert_eq rfl (fun id => ?_) once ?_
          ?_ (fun _ _ => rfl) fun call mem => ⟨.inl mem, fun _ => rfl⟩
        · simp [or_comm]
        · rintro _ ⟨⟩
          rfl
        · rintro _ ⟨⟩
          exact ⟨rfl, by simp, .inr (Nat.pos_of_ne_zero idle), inv.counter (r := r) found⟩

/-- a call starts -/
theorem Inv.enter (inv : s.Inv made) (found : s.registrations.lookup p = some r) (isOpen : r.isOpen = true)
    (room : r.activeCalls < u32Max)
    (records : s'.registrations = s.registrations.insert p { r with activeCalls := saturatingAdd32 r.activeCalls 1 })
    {script : Bool} (calls : s'.calls = ⟨p, r.id, script⟩ :: s.calls) (issued : s'.issued = s.issued)
    (released : s'.released = s.released) : s'.Inv made := by
  refine inv.update found (some { r with activeCalls := saturatingAdd32 r.activeCalls 1 })
    (fun q => by rw [records, Table.lookup_insert_eq]) issued (fun id => ?_) (released ▸ inv.once) ?_ ?_ (fun id other => ?_)
    fun call mem => ⟨?_, fun _ => rfl⟩
  · simp [released, isOpen]
  · rintro _ ⟨⟩
    rfl
  · rintro _ ⟨⟩
    refine ⟨rfl, ?_, .inl isOpen, ?_⟩
    · rw [released]
      exact inv.openIff (r := r) found
    · rw [calls, inProgress_cons, if_pos rfl, ← inv.counter found]
      show min (r.activeCalls + 1) u32Max = _
      omega
  · rw [calls, inProgress_cons, if_neg other.symm, Nat.add_zero]
  · rw [calls] at mem
    rcases mem_cons.1 mem with rfl | old
    · exact .inr ⟨rfl, rfl⟩
    · exact .inl old

theorem same_trap (s : Callbacks) (kind : TrapKind) (message : String) (posId : Nat) : Same s (s.trap kind message posId) :=
  ⟨rfl, rfl, rfl, rfl⟩

theorem same_validate (s : Callbacks) (payload : Nat) : Same s (s.validateCallbackUserdata payload).1 := by
  unfold validateCallbackUserdata
  split
  · exact Same.refl s
  · split
    · exact same_trap s _ _ _
    · split
      · exact Same.refl s
      · exact same_trap s _ _ _

theorem same_fireCallback (s : Callbacks) (r : CallbackRegistration) : Same s (s.fireCallback r).1 := by
  rw [fireCallback]
  split_ifs
  · exact Same.refl s
  · dsimp only
    split_ifs
    · exact same_validate s _
    · exact (same_validate s _).trans (same_validate _ _)

theorem Inv.fire (inv : s.Inv made) (p : Nat) (room : ∀ record ∈ s.registrations.lookup p, record.activeCalls < u32Max) :
    (s.fire p).Inv made := by
  rw [Callbacks.fire]
  split_ifs
  · exact inv
  rw [registrationEnter]
  cases found : (s.registrations.lookup p).filter CallbackRegistration.isOpen with
  | none => exact inv.congr (same_trap s _ _ _)
  | some r =>
    obtain ⟨isSome, isOpen⟩ := Option.filter_eq_some_iff.1 found
    have same := same_fireCallback (s.setRegistration p { r with activeCalls := saturatingAdd32 r.activeCalls 1 }) r
    exact inv.enter isSome isOpen (room r isSome) same.registrations (congrArg _ same.calls) same.issued same.released

theorem Inv.return_ (inv : s.Inv made) : s.return_.Inv made := by
  rw [Callbacks.return_]
  cases inCall : s.calls with
  | nil => exact inv
  | cons call calls =>
    obtain ⟨r, found, ids⟩ := inv.calls call (inCall ▸ mem_cons_self)
    have counter := inv.counter found
    rw [inCall, inProgress_cons, if_pos ids.symm] at counter
    have others : ∀ id ≠ r.id, inProgress calls id = inProgress s.calls id := by
      intro id other
      rw [inCall, inProgress_cons, if_neg fun eq => other (eq.symm.trans ids.symm), Nat.add_zero]
    have mems : ∀ c ∈ calls, c ∈ s.calls := fun c mem => inCall ▸ mem_cons_of_mem _ mem
    unfold registrationExit
    simp only [found]
    by_cases stays : r.isOpen = true ∨ r.activeCalls - 1 ≠ 0
    · rw [if_pos (by simpa using stays)]
      refine inv.update found (some { r with activeCalls := r.activeCalls - 1 }) Table.lookup_insert_eq rfl (fun id => ?_)
        inv.once ?_ ?_ others fun c mem => ⟨.inl (mems c mem), fun _ => rfl⟩
      · refine ⟨.inl, ?_⟩
        rintro (old | ⟨rfl, closed⟩)
        · exact old
        · by_contra out
          have := closed _ rfl
          rw [(inv.openIff found).2 out] at this
          cases this
      · rintro _ ⟨⟩
        rfl
      · rintro _ ⟨⟩
        refine ⟨rfl, inv.openIff (r := r) found, stays.imp_right Nat.pos_of_ne_zero, ?_⟩
        show r.activeCalls - 1 = inProgress calls r.id
        omega
    · rw [if_neg (by simpa using stays)]
      rw [not_or, Bool.not_eq_true, not_not] at stays
      have closed : r.id ∈ s.released := by
        by_contra out
        rw [(inv.openIff found).2 out] at stays
        cases stays.1
      have last : inProgress calls r.id = 0 := by omega
      refine inv.update found none Table.lookup_erase_eq rfl (fun id => ?_) inv.once nofun nofun others fun c mem =>
        ⟨.inl (mems c mem), fun eq => ?_⟩
      · refine ⟨.inl, ?_⟩
        rintro (old | ⟨rfl, -⟩)
        · exact old
        · exact closed
      · exact absurd (decide_eq_true eq) (countP_eq_zero.1 last c mem)

/-- an event that registers nothing -/
theorem Inv.silent (inv : s.Inv made) {e : Event} (silent : e.registered = none) : s.Inv (made ++ e.registered.toList) := by
  rw [silent, Option.toList_none, append_nil]
  exact inv

theorem Inv.step (inv : s.Inv made) (e : Event) (allowed : e.Allowed s) (meets : e.Meets s) :
    (s.step e).Inv (made ++ e.registered.toList) := by
  cases e with
  | register pointer code env userdata1 userdata2 => exact inv.register allowed code env userdata1 userdata2
  | fire pointer => exact (inv.fire pointer meets).silent rfl
  | return_ => exact inv.return_.silent rfl
  | release pointer => exact (inv.release pointer).silent rfl
  | alloc | delete | collect | clearTrap =>
    refine Inv.silent ?_ rfl
    exact inv.congr ⟨rfl, rfl, rfl, rfl⟩

theorem history_cons (e : Event) (events : List Event) :
    e.registered.toList ++ history events = history (e :: events) := by
  rw [history, history, filterMap_cons]
  cases e.registered <;> rfl

theorem Inv.run {events : List Event} (inv : s.Inv made) (allowed : Each (fun s e => e.Allowed s) events s)
    (meets : Each (fun s e => e.Meets s) events s) : (run events s).Inv (made ++ history events) := by
  induction events generalizing s made with
  | nil =>
    rw [history, filterMap_nil, append_nil]
    exact inv
  | cons e events ih =>
    have := ih (inv.step e allowed.1 meets.1) allowed.2 meets.2
    rwa [append_assoc, history_cons] at this

/-! ### What the record is for -/

theorem exists_rank {α : Type} {l : List α} {x : α} (mem : x ∈ l) : ∃ i, (x, i) ∈ l.zipIdx := by
  obtain ⟨i, is⟩ := mem_iff_getElem?.1 mem
  exact ⟨i, mem_zipIdx_iff_getElem?.2 is⟩

/-- the userdata of a record in the live set are roots while they are allocations -/
theorem mem_registrationRoots (found : s.registrations.lookup p = some r) {userdata : Nat}
    (slot : userdata ∈ [r.userdata1, r.userdata2]) (notNull : userdata ≠ 0) (live : userdata ∈ s.liveAllocations) :
    ∃ index word, (index, word, userdata) ∈ s.registrationRoots := by
  have isKey : p ∈ s.registrations.keys.toFinset.sort (· ≤ ·) := by
    rw [Finset.mem_sort, mem_toFinset]
    exact AList.lookup_isSome.1 (Option.isSome_of_eq_some found)
  obtain ⟨index, ranked⟩ := exists_rank isKey
  obtain ⟨word, inSlot⟩ := exists_rank slot
  refine ⟨index, word, mem_flatMap.2 ⟨(p, index), ranked, ?_⟩⟩
  simp only [found]
  refine mem_map.2 ⟨(userdata, word), mem_filter.2 ⟨inSlot, ?_⟩, rfl⟩
  simp [notNull, live]

/-- What the registrations of a run are, when they were made with the values `made`: the record is there while it is open or
a call is in progress, has the values it was made with and counts the calls; a release that answers true closes it for good;
only an open one is entered; and the userdata are roots. -/
structure Sound (made : List Values) (s : Callbacks) : Prop where
  held : ∀ id < made.length,
    (∃ p r, s.registrations.lookup p = some r ∧ r.id = id) ↔ id ∉ s.released ∨ ∃ call ∈ s.calls, call.id = id
  carried : ∀ p r, s.registrations.lookup p = some r → made[r.id]? = some r.values
  counter : ∀ p r, s.registrations.lookup p = some r → r.activeCalls = inProgress s.calls r.id
  once : s.released.Nodup
  releases : ∀ p, (s.releaseCallbackRegistration p).2 = true ↔
    ∃ r, s.registrations.lookup p = some r ∧ r.id ∉ s.released
  closes : ∀ p s', s.releaseCallbackRegistration p = (s', true) →
    (∃ r, s.registrations.lookup p = some r ∧ s'.released = r.id :: s.released) ∧
      (s'.releaseCallbackRegistration p).2 = false ∧ (s'.registrationEnter p).2 = none
  enters : ∀ p r, (s.registrationEnter p).2 = some r ↔ s.registrations.lookup p = some r ∧ r.id ∉ s.released
  roots : ∀ id code env userdata1 userdata2, made[id]? = some (code, env, userdata1, userdata2) →
    (id ∉ s.released ∨ ∃ call ∈ s.calls, call.id = id) → ∀ userdata ∈ [userdata1, userdata2], userdata ≠ 0 →
    userdata ∈ s.liveAllocations → ∃ index word, (index, word, userdata) ∈ s.registrationRoots

/-- the records of the state that are there -/
theorem Inv.held (inv : s.Inv made) {id : Nat} (small : id < s.issued) :
    (∃ p r, s.registrations.lookup p = some r ∧ r.id = id) ↔ id ∉ s.released ∨ ∃ call ∈ s.calls, call.id = id := by
  constructor
  · rintro ⟨p, r, found, rfl⟩
    refine (inv.needed found).imp (inv.openIff found).1 fun active => ?_
    rw [inv.counter found, inProgress, countP_pos_iff] at active
    obtain ⟨call, mem, ids⟩ := active
    exact ⟨call, mem, of_decide_eq_true ids⟩
  · rintro (out | ⟨call, mem, rfl⟩)
    · exact inv.unreleased id small out
    · obtain ⟨r, found, ids⟩ := inv.calls call mem
      exact ⟨call.address, r, found, ids⟩

theorem Inv.releases (inv : s.Inv made) (p : Nat) : (s.releaseCallbackRegistration p).2 = true ↔
    ∃ r, s.registrations.lookup p = some r ∧ r.id ∉ s.released := by
  rw [releaseCallbackRegistration]
  cases found : s.registrations.lookup p with
  | none => simp
  | some r =>
    have openIff := inv.openIff found
    cases isOpen : r.isOpen with
    | false => simpa [isOpen] using openIff
    | true => simpa [isOpen] using openIff

theorem Inv.enters (inv : s.Inv made) (p : Nat) (r : CallbackRegistration) :
    (s.registrationEnter p).2 = some r ↔ s.registrations.lookup p = some r ∧ r.id ∉ s.released := by
  have enter : (s.registrationEnter p).2 = (s.registrations.lookup p).filter CallbackRegistration.isOpen := by
    rw [registrationEnter]
    cases (s.registrations.lookup p).filter CallbackRegistration.isOpen <;> rfl
  rw [enter, Option.filter_eq_some_iff]
  exact and_congr_right inv.openIff

/-- Behind a release that answers true nothing at the address is open. -/
theorem Inv.closes (inv : s.Inv made) (release : s.releaseCallbackRegistration p = (s', true)) :
    (∃ r, s.registrations.lookup p = some r ∧ s'.released = r.id :: s.released) ∧
      (s'.releaseCallbackRegistration p).2 = false ∧ (s'.registrationEnter p).2 = none := by
  have inv' : s'.Inv made := by
    have := inv.release p
    rwa [release] at this
  obtain ⟨r, found, out⟩ := (inv.releases p).1 (by rw [release])
  have isOpen := (inv.openIff found).2 out
  -- what stands at the address then is the record itself
  obtain ⟨released, same⟩ : s'.released = r.id :: s.released ∧ ∀ t, s'.registrations.lookup p = some t → t.id = r.id := by
    rw [releaseCallbackRegistration, found] at release
    simp only [isOpen, Bool.not_true, Bool.false_eq_true, if_false, Prod.mk.injEq, and_true] at release
    rw [← release]
    split_ifs
    · refine ⟨rfl, fun t there => ?_⟩
      rw [endRegistration, Table.lookup_erase_eq, if_pos rfl] at there
      cases there
    · refine ⟨rfl, fun t there => ?_⟩
      rw [setRegistration, AList.lookup_insert] at there
      cases there
      rfl
  have closed : ∀ t, s'.registrations.lookup p = some t → t.id ∈ s'.released := by
    intro t there
    rw [released, same t there]
    exact mem_cons_self
  refine ⟨⟨r, found, released⟩, ?_, ?_⟩
  · rw [Bool.eq_false_iff, Ne, inv'.releases]
    rintro ⟨t, there, outside⟩
    exact outside (closed t there)
  · rw [Option.eq_none_iff_forall_ne_some]
    intro t entered
    obtain ⟨there, outside⟩ := (inv'.enters p t).1 entered
    exact outside (closed t there)

theorem Inv.sound (inv : s.Inv made) : s.Sound made where
  held id small := inv.held (inv.places ▸ small)
  carried p r := inv.carried
  counter p r := inv.counter
  once := inv.once
  releases := inv.releases
  closes p s' := inv.closes
  enters := inv.enters
  roots id code env userdata1 userdata2 isMade inUse userdata slot notNull live := by
    have small : id < s.issued := by
      rw [inv.places]
      exact (List.getElem?_eq_some_iff.1 isMade).1
    obtain ⟨p, r, found, rfl⟩ := (inv.held small).2 inUse
    have same := Option.some.inj ((inv.carried found).symm.trans isMade)
    simp only [CallbackRegistration.values, Prod.mk.injEq] at same
    obtain ⟨-, -, rfl, rfl⟩ := same
    exact mem_registrationRoots found slot notNull live

/-- In every run in which no counter stands at its end when its registration is fired, however the fires and releases are
nested, the registrations are sound in the state that is reached, with the values they were registered with. -/
theorem registrations_sound (events : List Event) (allowed : Each (fun s e => e.Allowed s) events new)
    (meets : Each (fun s e => e.Meets s) events new) : (run events new).Sound (history events) :=
  (inv_new.run allowed meets).sound

/-- A callback fires its registration again, releases it, fires it in vain and collects before both calls return. -/
theorem registrations_sound_nested :
    let events : List Event := [.alloc 8, .register 16 100 0 8 0, .fire 16, .fire 16, .release 16, .fire 16, .collect {8},
      .return_]
    (run events new).Sound (history events) ∧ (run events new).registrations.lookup 16 = some ⟨100, 0, 8, 0, false, 1, 0⟩ ∧
      (run (events ++ [.return_]) new).registrations.lookup 16 = none :=
  ⟨registrations_sound _ (by decide +kernel) (by decide +kernel), by decide +kernel, by decide +kernel⟩

/-! ### The end of the counter -/

/-- a registration at address 16 with a number of calls in progress -/
def nested (isOpen : Bool) (activeCalls calls : Nat) (released : List Nat) : Callbacks :=
  ⟨AList.insert 16 ⟨0, 0, 0, 0, isOpen, activeCalls, 0⟩ ∅, ∅, ∅, false, [], List.replicate calls ⟨16, 0, true⟩, 1, released⟩

theorem run_append (events events' : List Event) (s : Callbacks) : run (events ++ events') s = run events' (run events s) := by
  induction events generalizing s with
  | nil => rfl
  | cons e events ih => exact ih (s.step e)

theorem nested_fire (active calls : Nat) (released : List Nat) :
    (nested true active calls released).step (.fire 16) = nested true (saturatingAdd32 active 1) (calls + 1) released := by
  have enter : (nested true active calls released).registrationEnter 16 =
      (nested true (saturatingAdd32 active 1) calls released, some ⟨0, 0, 0, 0, true, active, 0⟩) := by
    rw [registrationEnter, nested, AList.lookup_insert]
    rfl
  rfl

theorem nested_return (active calls : Nat) :
    (nested false active (calls + 1) [0]).step .return_ =
      if active - 1 ≠ 0 then nested false (active - 1) calls [0]
      else { nested false active calls [0] with registrations := ∅ } := by
  have exit : (nested false active (calls + 1) [0]).registrationExit 16 =
      if active - 1 ≠ 0 then nested false (active - 1) (calls + 1) [0]
      else { nested false active (calls + 1) [0] with registrations := ∅ } := by
    unfold registrationExit
    rw [nested, AList.lookup_insert]
    simp only [Bool.false_or, decide_eq_true_eq, setRegistration, endRegistration, AList.insert_insert]
    split_ifs
    · rfl
    · rfl
  have inCall : (nested false active (calls + 1) [0]).calls = ⟨16, 0, true⟩ :: List.replicate calls ⟨16, 0, true⟩ := rfl
  rw [step, Callbacks.return_, inCall]
  dsimp only
  rw [exit]
  split_ifs
  · rfl
  · rfl

theorem run_fires (n active calls : Nat) :
    run (List.replicate n (.fire 16)) (nested true (min active u32Max) calls []) =
      nested true (min (active + n) u32Max) (calls + n) [] := by
  induction n generalizing active calls with
  | zero => rfl
  | succ n ih =>
    have counter : saturatingAdd32 (min active u32Max) 1 = min (active + 1) u32Max := by
      show min (min active u32Max + 1) u32Max = _
      omega
    rw [replicate_succ, run, nested_fire, counter, ih, Nat.add_right_comm active, Nat.add_right_comm calls]
    rfl

theorem run_returns (n active calls : Nat) (more : n < active) :
    run (List.replicate n .return_) (nested false active (calls + n) [0]) = nested false (active - n) calls [0] := by
  induction n generalizing active with
  | zero => rfl
  | succ n ih =>
    rw [replicate_succ, run, ← Nat.add_assoc, nested_return, if_pos (by omega), ih (active - 1) (by omega), Nat.sub_sub,
      Nat.add_comm 1 n]

theorem each_of_forall {P : Callbacks → Event → Prop} {events : List Event} (all : ∀ e ∈ events, ∀ s, P s e) (s : Callbacks) :
    Each P events s := by
  induction events generalizing s with
  | nil => trivial
  | cons e events ih =>
    obtain ⟨first, others⟩ := forall_mem_cons.1 all
    exact ⟨first s, ih others (s.step e)⟩

/-- a callback that fires itself `2 ^ 32` times; the innermost call releases it, and all but the first return -/
def overflowing : List Event :=
  .register 16 0 0 0 0 :: (List.replicate (u32Max + 1) (.fire 16) ++ .release 16 :: List.replicate u32Max .return_)

/-- The counter lags behind the calls, so the record is gone while a call is still in progress. -/
theorem saturated_counter_ends_record :
    Each (fun s e => e.Allowed s) overflowing new ∧ (run overflowing new).calls = [⟨16, 0, true⟩] ∧
      (run overflowing new).registrations = ∅ ∧ ¬(run overflowing new).Sound (history overflowing) := by
  have fired : run (List.replicate (u32Max + 1) (.fire 16)) (nested true 0 0 []) = nested true u32Max (u32Max + 1) [] := by
    have fires := run_fires (u32Max + 1) 0 0
    rwa [Nat.zero_min, Nat.zero_add, Nat.min_eq_right (Nat.le_succ _)] at fires
  have released : (nested true u32Max (u32Max + 1) []).step (.release 16) = nested false u32Max (u32Max + 1) [0] := by
    show (releaseCallbackRegistration _ 16).1 = _
    rw [releaseCallbackRegistration, nested, AList.lookup_insert]
    simp only [Bool.not_true, Bool.false_eq_true, if_false, setRegistration, AList.insert_insert]
    rfl
  have returned : run (List.replicate u32Max .return_) (nested false u32Max (u32Max + 1) [0]) =
      { nested false 1 1 [0] with registrations := ∅ } := by
    have last : List.replicate u32Max Event.return_ = List.replicate (u32Max - 1) .return_ ++ [.return_] := by
      rw [← replicate_succ']
      rfl
    have before := run_returns (u32Max - 1) u32Max 2 (by decide)
    rw [show 2 + (u32Max - 1) = u32Max + 1 from rfl, show u32Max - (u32Max - 1) = 1 from rfl] at before
    rw [last, run_append, before, run, nested_return]
    rfl
  have registered : new.step (.register 16 0 0 0 0) = nested true 0 0 [] := rfl
  have ends : run overflowing new = { nested false 1 1 [0] with registrations := ∅ } := by
    rw [overflowing, run, registered, run_append, fired, run, released, returned]
  have first (events : List Event) : 0 < (history (.register 16 0 0 0 0 :: events)).length := Nat.zero_lt_succ _
  rw [ends]
  refine ⟨⟨by decide, each_of_forall (fun e mem s => ?_) _⟩, rfl, rfl, fun sound => ?_⟩
  · rcases mem_append.1 mem with mem | mem
    · rw [eq_of_mem_replicate mem]
      trivial
    · rcases mem_cons.1 mem with rfl | mem
      · trivial
      · rw [eq_of_mem_replicate mem]
        trivial
  · obtain ⟨p, r, found, -⟩ := (sound.held 0 (first _)).2 (.inr ⟨⟨16, 0, true⟩, mem_singleton_self _, rfl⟩)
    cases found

end Callbacks

end Subscript.Runtime
