import Subscript.Runtime.WorkerMessage
import Mathlib.Data.List.Chain

/-! The round trip of a message. The receiver writes its handles into the payload slot by slot, so a slot keeps its handle
when the later ones do not overlap it. -/

namespace Subscript.Runtime.Worker

open List Words

section Record

/-- the record of strings behind the fixed bytes -/
def encode (strings : List (List UInt8)) : List UInt8 :=
  strings.flatMap fun string => leBytes 8 string.length ++ string

/-- what a slot of the sender says: null is read as the empty string -/
def contents (ctx : Heap) (payload : List UInt8) (offset : Nat) : List UInt8 :=
  if load payload offset = 0 then [] else ctx.strBytes (load payload offset)

variable {ctx : Heap} {payload : List UInt8} {reserves : Nat → Bool} {offsets : List Nat} {record record' : List UInt8}

theorem appendStrings_cons (offset : Nat) (rest : List Nat) (record : List UInt8) :
    appendStrings ctx payload reserves (offset :: rest) record =
      if !tryReserve (reserves offset) record.length (min (8 + (contents ctx payload offset).length) usizeMax) then
        .error .allocationFailed
      else
        appendStrings ctx payload reserves rest
          (record ++ leBytes 8 (contents ctx payload offset).length ++ contents ctx payload offset) := rfl

theorem encode_cons (string : List UInt8) (rest : List (List UInt8)) :
    encode (string :: rest) = leBytes 8 string.length ++ string ++ encode rest := rfl

theorem appendStrings_ok (small : record.length ≤ isizeMax)
    (ok : appendStrings ctx payload reserves offsets record = .ok record') :
    record' = record ++ encode (offsets.map (contents ctx payload)) ∧ record'.length ≤ isizeMax := by
  induction offsets generalizing record with
  | nil =>
    cases ok
    exact ⟨(append_nil _).symm, small⟩
  | cons offset rest ih =>
    rw [appendStrings_cons] at ok
    by_cases fits : tryReserve (reserves offset) record.length
        (min (8 + (contents ctx payload offset).length) usizeMax) = true
    · rw [if_neg (by rw [fits]; decide)] at ok
      have room : record.length + min (8 + (contents ctx payload offset).length) usizeMax ≤ isizeMax := by
        simp only [tryReserve, Bool.and_eq_true, decide_eq_true_eq] at fits
        exact fits.2
      have small' : (record ++ leBytes 8 (contents ctx payload offset).length ++ contents ctx payload offset).length ≤
          isizeMax := by
        simp only [length_append, length_leBytes]
        unfold isizeMax usizeMax at *
        omega
      obtain ⟨is, fits'⟩ := ih small' ok
      refine ⟨?_, fits'⟩
      rw [is, map_cons, encode_cons]
      simp only [append_assoc]
    · rw [if_pos (by simpa using fits)] at ok
      cases ok

theorem appendStrings_error {e : PostResult} (failed : appendStrings ctx payload reserves offsets record = .error e) :
    e = .allocationFailed := by
  induction offsets generalizing record with
  | nil => cases failed
  | cons offset rest ih =>
    rw [appendStrings_cons] at failed
    split at failed
    · cases failed
      rfl
    · exact ih failed

/-- a record that fits is made -/
theorem appendStrings_fits
    (small : record.length + (encode (offsets.map (contents ctx payload))).length ≤ isizeMax) :
    appendStrings ctx payload (fun _ => true) offsets record =
      .ok (record ++ encode (offsets.map (contents ctx payload))) := by
  induction offsets generalizing record with
  | nil =>
    have empty : encode (([] : List Nat).map (contents ctx payload)) = [] := rfl
    rw [appendStrings, empty, append_nil]
  | cons offset rest ih =>
    rw [map_cons, encode_cons] at small ⊢
    simp only [length_append, length_leBytes] at small
    have fits : tryReserve true record.length (min (8 + (contents ctx payload offset).length) usizeMax) = true := by
      simp only [tryReserve, Bool.true_and, decide_eq_true_eq]
      omega
    rw [appendStrings_cons, if_neg (by rw [fits]; decide), ih]
    · simp only [append_assoc]
    · simp only [length_append, length_leBytes]
      omega

end Record

section Slots

/-- the handle that the allocator gives for a slot -/
def handle (answer : Nat → Option Handle) (offset : Nat) : Handle := (answer offset).getD 0

/-- the payload once the handles of `offsets` are written -/
def patched (answer : Nat → Option Handle) (offsets : List Nat) (block : List UInt8) : List UInt8 :=
  offsets.foldl (fun block offset => store block offset (handle answer offset)) block

variable {record : List UInt8} {p : Handle} {answer : Nat → Option Handle} {offsets : List Nat} {ctx : Heap}
  {strings : Nat → List UInt8} {front : List UInt8}

theorem slice?_append (first second third : List UInt8) (start stop : Nat) (start_eq : start = first.length)
    (stop_eq : stop = first.length + second.length) : slice? (first ++ second ++ third) start stop = some second := by
  subst start_eq stop_eq
  unfold slice?
  rw [if_pos (by simp only [length_append]; omega), append_assoc, drop_left, Nat.add_sub_cancel_left,
    take_left]

variable {block : List UInt8}

/-- the loop reads what the sender wrote -/
theorem materializeSlots_encode (small : record.length ≤ isizeMax)
    (is : record = front ++ encode (offsets.map strings)) (given : ∀ o ∈ offsets, ∃ q, answer o = some q ∧ q ≠ 0)
    (found : ctx.blocks p = some block) :
    ∃ ctx', materializeSlots record p answer offsets front.length ctx = (ctx', some record.length) ∧
      ctx'.trap = ctx.trap ∧ ctx'.blocks p = some (patched answer offsets block) ∧
      ctx'.strings = offsets.foldl (fun all o => Function.update all (handle answer o) (some (strings o))) ctx.strings := by
  induction offsets generalizing front ctx block with
  | nil =>
    have empty : encode (([] : List Nat).map strings) = [] := rfl
    rw [empty, append_nil] at is
    exact ⟨ctx, by rw [materializeSlots, is], rfl, found, rfl⟩
  | cons offset rest ih =>
    obtain ⟨q, gives, nonzero⟩ := given offset mem_cons_self
    obtain ⟨string, isString⟩ : ∃ string, string = strings offset := ⟨_, rfl⟩
    have split : record = front ++ leBytes 8 string.length ++ (string ++ encode (rest.map strings)) := by
      rw [is, map_cons, encode_cons, isString]
      simp only [append_assoc]
    have split' : record = front ++ leBytes 8 string.length ++ string ++ encode (rest.map strings) := by
      rw [split]
      simp only [append_assoc]
    have length : record.length = front.length + 8 + string.length + (encode (rest.map strings)).length := by
      rw [split']
      simp only [length_append, length_leBytes]
    have word : ofLe (leBytes 8 string.length) = string.length := by
      rw [ofLe_leBytes, Nat.mod_eq_of_lt]
      unfold isizeMax at small
      omega
    have first : slice? record front.length (min (front.length + 8) usizeMax) = some (leBytes 8 string.length) := by
      rw [split]
      refine slice?_append _ _ _ _ _ rfl ?_
      rw [length_leBytes]
      unfold usizeMax isizeMax at *
      omega
    have second : slice? record (front.length + 8) (min (front.length + 8 + string.length) usizeMax) = some string := by
      rw [split']
      refine slice?_append _ _ _ _ _ ?_ ?_
      · rw [length_append, length_leBytes]
      · rw [length_append, length_leBytes]
        unfold usizeMax isizeMax at *
        omega
    have fits : ¬ string.length > usizeMax := by
      unfold usizeMax isizeMax at *
      omega
    have fits' : ¬ 8 + string.length > usizeMax := by
      unfold usizeMax isizeMax at *
      omega
    have allocates : ctx.allocStr string (answer offset) 0 =
        ({ ctx with strings := Function.update ctx.strings q (some string) }, q) := by
      unfold Heap.allocStr
      rw [if_neg fits', gives]
    set ctx₁ : Heap := ({ ctx with strings := Function.update ctx.strings q (some string) } : Heap).writeWord p offset q
      with written
    have found₁ : ctx₁.blocks p = some (store block offset q) := by
      simp only [written, Heap.writeWord, found, Option.map_some, Function.update_self]
    obtain ⟨ctx', runs, trap, blocks, all⟩ := ih split' (fun o member => given o (mem_cons_of_mem _ member)) found₁
    have next : front.length + 8 + string.length = (front ++ leBytes 8 string.length ++ string).length := by
      simp only [length_append, length_leBytes]
    have is_q : handle answer offset = q := by rw [handle, gives, Option.getD_some]
    refine ⟨ctx', ?_, trap, ?_, ?_⟩
    · rw [materializeSlots, first]
      simp only [word, if_neg fits, second, allocates, if_neg nonzero]
      rw [next]
      exact runs
    · rw [blocks, patched, patched, foldl_cons, is_q]
    · rw [all, foldl_cons, is_q, ← isString]
      rfl

theorem within_store {offset : Nat} {rest : List Nat} (within : ∀ o ∈ offset :: rest, o + 8 ≤ block.length) (word : Nat) :
    ∀ o ∈ rest, o + 8 ≤ (store block offset word).length := by
  rw [length_store (within offset mem_cons_self)]
  exact fun o member => within o (mem_cons_of_mem _ member)

theorem length_patched (within : ∀ o ∈ offsets, o + 8 ≤ block.length) :
    (patched answer offsets block).length = block.length := by
  induction offsets generalizing block with
  | nil => rfl
  | cons offset rest ih =>
    exact (ih (within_store within _)).trans (length_store (within offset mem_cons_self))

/-- a byte outside the slots stays -/
theorem getElem?_patched (within : ∀ o ∈ offsets, o + 8 ≤ block.length) {i : Nat}
    (outside : ∀ o ∈ offsets, i < o ∨ o + 8 ≤ i) : (patched answer offsets block)[i]? = block[i]? := by
  induction offsets generalizing block with
  | nil => rfl
  | cons offset rest ih =>
    have away := outside offset mem_cons_self
    refine (ih (within_store within _) fun o member => outside o (mem_cons_of_mem _ member)).trans ?_
    rw [getElem?_store (within offset mem_cons_self), if_neg (by omega)]

/-- a slot keeps its handle when the later slots are apart from it -/
theorem load_patched (within : ∀ o ∈ offsets, o + 8 ≤ block.length)
    (apart : offsets.Pairwise fun o o' => o + 8 ≤ o') (small : ∀ o ∈ offsets, handle answer o < 256 ^ 8) {o : Nat}
    (member : o ∈ offsets) : load (patched answer offsets block) o = handle answer o := by
  induction offsets generalizing block with
  | nil => cases member
  | cons offset rest ih =>
    have within' := within_store within (handle answer offset)
    obtain ⟨later, apart'⟩ := pairwise_cons.1 apart
    rcases mem_cons.1 member with rfl | member'
    · have kept : load (patched answer rest (store block o (handle answer o))) o =
          load (store block o (handle answer o)) o := by
        refine load_congr fun i low high => getElem?_patched within' fun o' member => ?_
        have := later o' member
        omega
      exact kept.trans (load_store_same (within o mem_cons_self) (small o mem_cons_self))
    · exact ih within' apart' (fun o member => small o (mem_cons_of_mem _ member)) member'

end Slots

section Descriptor

/-- what the checks of a descriptor guarantee -/
structure Accepted (d : QueueDescriptor) : Prop where
  size : d.payloadSize ≤ isizeMax
  count : d.stringSlotOffsets.length ≤ isizeMax / 8
  within : ∀ o ∈ d.stringSlotOffsets, o + 8 ≤ d.payloadSize
  ascending : d.stringSlotOffsets.Pairwise (· < ·)

theorem copyOffsets_ok {size : Nat} {previous : Option Nat} {raw offsets : List Nat}
    (ok : QueueDescriptor.copyOffsets size previous raw = .ok offsets) :
    offsets = raw ∧ (∀ o ∈ offsets, o + 8 ≤ size ∧ ∀ q ∈ previous, q < o) ∧ offsets.Pairwise (· < ·) := by
  induction raw generalizing previous offsets with
  | nil =>
    cases ok
    exact ⟨rfl, nofun, .nil⟩
  | cons offset rest ih =>
    rw [QueueDescriptor.copyOffsets] at ok
    split at ok
    · cases ok
    · split at ok
      · cases ok
      · rename_i inside
        split at ok
        · cases ok
        · rename_i later
          cases more : QueueDescriptor.copyOffsets size (some offset) rest with
          | error e =>
            rw [more] at ok
            cases ok
          | ok copied =>
            rw [more] at ok
            cases ok
            obtain ⟨is, bounds, ascending⟩ := ih more
            have after : ∀ q ∈ previous, q < offset := by
              intro q is
              rw [Option.mem_def.1 is] at later
              simpa using later
            refine ⟨by rw [is], ?_, pairwise_cons.2 ⟨fun o member => (bounds o member).2 offset rfl, ascending⟩⟩
            intro o member
            rcases mem_cons.1 member with rfl | member'
            · exact ⟨Nat.le_of_not_lt inside, after⟩
            · obtain ⟨fits, next⟩ := bounds o member'
              exact ⟨fits, fun q is => (after q is).trans (next offset rfl)⟩

theorem accepted_of_copyFrom {raw : Option WorkerMessageDescriptor} {reserves : Bool} {d : QueueDescriptor}
    (ok : QueueDescriptor.copyFrom raw reserves = .ok d) : Accepted d := by
  cases raw with
  | none => cases ok
  | some raw =>
    rw [QueueDescriptor.copyFrom] at ok
    split at ok
    · cases ok
    · rename_i size
      split at ok
      · cases ok
      · rename_i count
        split at ok
        · cases ok
        · split at ok
          · cases ok
          · cases copied : QueueDescriptor.copyOffsets raw.payloadSize none
                ((raw.stringSlotOffsets.getD []).take raw.stringSlotCount) with
            | error e =>
              rw [copied] at ok
              cases ok
            | ok offsets =>
              rw [copied] at ok
              cases ok
              obtain ⟨is, bounds, ascending⟩ := copyOffsets_ok copied
              refine ⟨Nat.le_of_not_lt size, ?_, fun o member => (bounds o member).1, ascending⟩
              have short : offsets.length ≤ raw.stringSlotCount := by
                rw [is, length_take]
                exact Nat.min_le_left _ _
              exact short.trans (Nat.le_of_not_lt count)

end Descriptor

/-- addresses that the receiver's allocator finds: even, and nobody's -/
structure Fresh (receiver : Heap) (d : QueueDescriptor) (block : Handle) (answer : Nat → Option Handle) : Prop where
  nonzero : block ≠ 0
  given : ∀ o ∈ d.stringSlotOffsets, ∃ q, answer o = some q ∧ q ≠ 0 ∧ q % 2 = 0 ∧ q < 2 ^ 64 ∧ q ≠ block ∧
    receiver.strings q = none ∧ receiver.blocks q = none
  distinct : ∀ o ∈ d.stringSlotOffsets, ∀ o' ∈ d.stringSlotOffsets, answer o = answer o' → o = o'

/-- what is posted comes out of the queue and is materialized with the same bytes outside the slots and with strings of the
same contents in them -/
def RoundTrip (d : QueueDescriptor) : Prop :=
  ∀ (sender receiver : Heap) (payload : List UInt8) (first : Bool) (reserves : Nat → Bool)
    (queue rest : QueueState (List UInt8)) (signal : Monitor.Signal) (receive : Receive (List UInt8)) (block : Handle)
    (answer : Nat → Option Handle),
    payload.length = d.payloadSize →
    (∀ o ∈ d.stringSlotOffsets, load payload o = 0 ∨ (sender.string? (load payload o)).isSome) →
    postFixed ⟨[], false⟩ d sender (some payload) first reserves = (queue, .posted) →
    Queue.poll queue = .done rest signal (.received receive) →
    receiver.trap = none → Fresh receiver d block answer →
    ∃ receiver' out, materialize receiver (some block) answer d receive = (receiver', block) ∧ receiver'.trap = none ∧
      receiver'.blocks block = some out ∧ out.length = payload.length ∧
      (∀ i, (∀ o ∈ d.stringSlotOffsets, i < o ∨ o + 8 ≤ i) → out[i]? = payload[i]?) ∧
      ∀ o ∈ d.stringSlotOffsets, receiver'.string? (load out o) = some (contents sender payload o)

section Trip

variable {d : QueueDescriptor} {sender receiver : Heap} {payload : List UInt8} {first : Bool} {reserves : Nat → Bool}
  {queue : QueueState (List UInt8)} {block : Handle} {answer : Nat → Option Handle}

theorem postFixed_posted (length : payload.length = d.payloadSize)
    (posted : postFixed ⟨[], false⟩ d sender (some payload) first reserves = (queue, .posted)) :
    ∃ record, queue = ⟨[record], false⟩ ∧ record = payload ++ encode (d.stringSlotOffsets.map (contents sender payload)) ∧
      record.length ≤ isizeMax := by
  have bytes : ((some payload).getD []).take d.payloadSize = payload := take_of_length_le (Nat.le_of_eq length)
  have some : (d.payloadSize ≠ 0 && (some payload).isNone) = false := Bool.and_false _
  rw [postFixed, some] at posted
  simp only [bytes] at posted
  by_cases fits : tryReserve first 0 payload.length = true
  · rw [if_neg Bool.false_ne_true, if_neg (by rw [fits]; decide)] at posted
    cases made : appendStrings sender ((Option.some payload).getD []) reserves d.stringSlotOffsets payload with
    | error e =>
      rw [made, appendStrings_error made] at posted
      cases posted
    | ok record =>
      rw [made] at posted
      cases posted
      have small : payload.length ≤ isizeMax := by
        simp only [tryReserve, Bool.and_eq_true, decide_eq_true_eq, Nat.zero_add] at fits
        exact fits.2
      obtain ⟨is, fits'⟩ := appendStrings_ok small made
      exact ⟨record, rfl, is, fits'⟩
  · rw [if_neg Bool.false_ne_true, if_pos (by simpa using fits)] at posted
    cases posted

theorem postFixed_ok (length : payload.length = d.payloadSize)
    (small : payload.length + (encode (d.stringSlotOffsets.map (contents sender payload))).length ≤ isizeMax) :
    postFixed ⟨[], false⟩ d sender (some payload) true (fun _ => true) =
      (⟨[payload ++ encode (d.stringSlotOffsets.map (contents sender payload))], false⟩, .posted) := by
  have bytes : ((some payload).getD []).take d.payloadSize = payload := take_of_length_le (Nat.le_of_eq length)
  have some : (d.payloadSize ≠ 0 && (some payload).isNone) = false := Bool.and_false _
  have fits : tryReserve true 0 payload.length = true := by
    simp only [tryReserve, Bool.true_and, decide_eq_true_eq]
    omega
  rw [postFixed, some, if_neg Bool.false_ne_true]
  simp only [bytes]
  rw [if_neg (by rw [fits]; decide), Option.getD_some, appendStrings_fits small]
  rfl

variable {offsets : List Nat} {strings : Nat → List UInt8}

/-- the loop makes the strings of its handles and no others -/
theorem strings_other {p : Handle}
    (others : ∀ o ∈ offsets, handle answer o ≠ p) (all : Handle → Option (List UInt8)) :
    offsets.foldl (fun all o => Function.update all (handle answer o) (some (strings o))) all p = all p := by
  induction offsets generalizing all with
  | nil => rfl
  | cons next rest ih =>
    rw [foldl_cons, ih fun o member => others o (mem_cons_of_mem _ member)]
    exact Function.update_of_ne (Ne.symm (others next mem_cons_self)) _ _

theorem strings_of_foldl (distinct : ∀ o ∈ offsets, ∀ o' ∈ offsets, handle answer o = handle answer o' → o = o')
    (all : Handle → Option (List UInt8)) {o : Nat} (member : o ∈ offsets) :
    offsets.foldl (fun all o => Function.update all (handle answer o) (some (strings o))) all (handle answer o) =
      some (strings o) := by
  induction offsets generalizing all with
  | nil => cases member
  | cons offset rest ih =>
    rw [foldl_cons]
    by_cases later : o ∈ rest
    · exact ih (fun o first o' second => distinct o (mem_cons_of_mem _ first) o' (mem_cons_of_mem _ second)) _
        later
    · obtain rfl : o = offset := by
        rcases mem_cons.1 member with same | other
        · exact same
        · exact absurd other later
      rw [strings_other, Function.update_self]
      intro o' member' same
      exact later (distinct o' (mem_cons_of_mem _ member') o mem_cons_self same ▸ member')

/-- the receiver's side of the trip, for every layout of the slots -/
theorem materialize_record (length : payload.length = d.payloadSize) (trap : receiver.trap = none)
    (fresh : Fresh receiver d block answer)
    (small : (payload ++ encode (d.stringSlotOffsets.map (contents sender payload))).length ≤ isizeMax) :
    ∃ receiver', materialize receiver (some block) answer d
        (.message (payload ++ encode (d.stringSlotOffsets.map (contents sender payload)))) = (receiver', block) ∧
      receiver'.trap = none ∧ receiver'.blocks block = some (patched answer d.stringSlotOffsets payload) ∧
      receiver'.strings = d.stringSlotOffsets.foldl
        (fun all o => Function.update all (handle answer o) (some (contents sender payload o))) receiver.strings := by
  obtain ⟨record, isRecord⟩ : ∃ record, record = payload ++ encode (d.stringSlotOffsets.map (contents sender payload)) :=
    ⟨_, rfl⟩
  rw [← isRecord] at small ⊢
  set started : Heap :=
    { receiver with blocks := Function.update receiver.blocks block (some (List.replicate d.payloadSize 0)) } with allocated
  have fixed : slice? record 0 d.payloadSize = some payload := by
    have whole := slice?_append [] payload (encode (d.stringSlotOffsets.map (contents sender payload))) 0 d.payloadSize
      rfl (by rw [length_nil, length, Nat.zero_add])
    rwa [nil_append, ← isRecord] at whole
  obtain ⟨filled, isFilled⟩ : ∃ filled, filled = if payload.isEmpty then started else started.fill block payload :=
    ⟨_, rfl⟩
  have copied : filled.blocks block = some payload ∧ filled.trap = none ∧ filled.strings = receiver.strings := by
    rw [isFilled]
    cases payload with
    | nil =>
      refine ⟨?_, trap, rfl⟩
      have size : d.payloadSize = 0 := length.symm
      exact (Function.update_self _ _ _).trans (by rw [size]; rfl)
    | cons b rest =>
      refine ⟨?_, trap, rfl⟩
      rw [isEmpty_cons, if_neg Bool.false_ne_true, Heap.fill, allocated]
      simp only [Function.update_self, Option.map_some]
      rw [drop_eq_nil_of_le (by rw [length_replicate, length]), append_nil]
  obtain ⟨found, clear, same⟩ := copied
  have given : ∀ o ∈ d.stringSlotOffsets, ∃ q, answer o = some q ∧ q ≠ 0 := by
    intro o member
    obtain ⟨q, gives, nonzero, _⟩ := fresh.given o member
    exact ⟨q, gives, nonzero⟩
  obtain ⟨receiver', runs, trap', blocks, strings⟩ := materializeSlots_encode small isRecord given found
  refine ⟨receiver', ?_, trap'.trans clear, blocks, strings.trans (by rw [same])⟩
  rw [length] at runs
  have untrapped : receiver.trap.isSome = false := by rw [trap]; rfl
  have gives : receiver.alloc d.payloadSize (some block) 0 = (started, block) := rfl
  unfold materialize
  simp only [untrapped, gives]
  rw [if_neg Bool.false_ne_true, if_neg fresh.nonzero, fixed]
  simp only [← isFilled, runs]
  rw [if_neg (not_not.2 rfl)]

/-- slots that do not overlap make the trip -/
theorem roundTrip_of_apart (accepted : Accepted d)
    (apart : d.stringSlotOffsets.Pairwise fun o o' => o + 8 ≤ o') : RoundTrip d := by
  intro sender receiver payload first reserves queue rest signal receive block answer length live posted polled trap fresh
  obtain ⟨record, rfl, isRecord, small⟩ := postFixed_posted length posted
  cases polled
  rw [isRecord] at small ⊢
  obtain ⟨receiver', runs, trap', blocks, strings⟩ := materialize_record length trap fresh small
  have within : ∀ o ∈ d.stringSlotOffsets, o + 8 ≤ payload.length := by
    rw [length]
    exact accepted.within
  refine ⟨receiver', _, runs, trap', blocks, length_patched within, fun i outside => getElem?_patched within outside, ?_⟩
  intro o member
  obtain ⟨q, gives, _, even, below, _⟩ := fresh.given o member
  have isHandle : ∀ o ∈ d.stringSlotOffsets, answer o = some (handle answer o) := by
    intro o member
    obtain ⟨q, gives, _⟩ := fresh.given o member
    rw [handle, gives, Option.getD_some]
  have bounded : ∀ o ∈ d.stringSlotOffsets, handle answer o < 256 ^ 8 := by
    intro o member
    obtain ⟨q, gives, _, _, below, _⟩ := fresh.given o member
    rw [handle, gives, Option.getD_some]
    exact below
  have distinct : ∀ o ∈ d.stringSlotOffsets, ∀ o' ∈ d.stringSlotOffsets, handle answer o = handle answer o' → o = o' := by
    intro o member o' member' same
    refine fresh.distinct o member o' member' ?_
    rw [isHandle o member, isHandle o' member', same]
  have isEven : handle answer o % 2 = 0 := by rwa [handle, gives, Option.getD_some]
  rw [load_patched within apart bounded member, Heap.string?, Heap.inlineStringScalar, if_pos isEven]
  simp only [strings]
  exact strings_of_foldl distinct _ member

/-- the last two slots that overlap -/
theorem exists_overlap (ascending : offsets.Pairwise (· < ·))
    (overlap : ¬ offsets.Pairwise fun o o' => o + 8 ≤ o') :
    ∃ front o o' back, offsets = front ++ o :: o' :: back ∧ o < o' ∧ o' < o + 8 ∧ ∀ q ∈ back, o + 8 ≤ q := by
  induction offsets with
  | nil => exact absurd .nil overlap
  | cons o rest ih =>
    obtain ⟨after, ascending'⟩ := pairwise_cons.1 ascending
    by_cases apart : rest.Pairwise fun o o' => o + 8 ≤ o'
    · cases rest with
      | nil => exact absurd (pairwise_singleton _ _) overlap
      | cons o' back =>
        obtain ⟨later, _⟩ := pairwise_cons.1 apart
        have before := after o' mem_cons_self
        have near : o' < o + 8 := by
          by_contra far
          refine overlap (pairwise_cons.2 ⟨fun q member => ?_, apart⟩)
          rcases mem_cons.1 member with rfl | member'
          · omega
          · have := later q member'
            omega
        refine ⟨[], o, o', back, rfl, before, near, fun q member => ?_⟩
        have := later q member
        omega
    · obtain ⟨front, a, b, back, rfl, before, near, far⟩ := ih ascending' apart
      exact ⟨o :: front, a, b, back, rfl, before, near, far⟩

theorem patched_append (answer : Nat → Option Handle) (front back : List Nat) (block : List UInt8) :
    patched answer (front ++ back) block = patched answer back (patched answer front block) := foldl_append

/-- an empty Context -/
def emptyHeap : Heap := ⟨fun _ => none, fun _ => none, none⟩

theorem load_zeros (n o : Nat) : load (List.replicate n 0) o = 0 := by
  have zeros : ∀ k, ofLe (List.replicate k 0) = 0 := by
    intro k
    induction k with
    | zero => rfl
    | succ k ih =>
      rw [replicate_succ, ofLe, ih]
      rfl
  rw [load, drop_replicate, take_replicate, zeros]

theorem length_encode_empty (n : Nat) : (encode (List.replicate n [])).length = 8 * n := by
  induction n with
  | zero => rfl
  | succ n ih =>
    rw [replicate_succ, encode_cons, length_append, ih]
    simp only [length_append, length_leBytes, length_nil]
    omega

/-- the allocator's answers that show an overlap: two low addresses for the slots `o` and `o'` -/
def lowHandle (offsets : List Nat) (o o' q : Nat) : Nat :=
  if q = o then 16 else if q = o' then 32 else 2 ^ 63 + 2 * offsets.idxOf q

theorem lowHandle_cases (offsets : List Nat) (o o' q : Nat) :
    q = o ∧ lowHandle offsets o o' q = 16 ∨ q = o' ∧ lowHandle offsets o o' q = 32 ∨
      lowHandle offsets o o' q = 9223372036854775808 + 2 * offsets.idxOf q := by
  unfold lowHandle
  by_cases first : q = o
  · exact .inl ⟨first, if_pos first⟩
  · rw [if_neg first]
    by_cases second : q = o'
    · exact .inr (.inl ⟨second, if_pos second⟩)
    · exact .inr (.inr (if_neg second))

theorem fresh_lowHandle (accepted : Accepted d) (o o' : Nat) :
    Fresh emptyHeap d 48 fun q => some (lowHandle d.stringSlotOffsets o o' q) := by
  have index : ∀ q ∈ d.stringSlotOffsets, d.stringSlotOffsets.idxOf q < 1152921504606846976 := by
    intro q member
    have below := idxOf_lt_length_of_mem member
    have count := accepted.count
    unfold isizeMax at count
    omega
  refine ⟨by decide, fun q member => ⟨_, rfl, ?_⟩, fun q member q' member' same => ?_⟩
  · have := index q member
    have := lowHandle_cases d.stringSlotOffsets o o' q
    generalize lowHandle d.stringSlotOffsets o o' q = p at *
    have facts : p ≠ 0 ∧ p % 2 = 0 ∧ p < 2 ^ 64 ∧ p ≠ 48 := by omega
    exact ⟨facts.1, facts.2.1, facts.2.2.1, facts.2.2.2, rfl, rfl⟩
  · have equal : lowHandle d.stringSlotOffsets o o' q = lowHandle d.stringSlotOffsets o o' q' := Option.some.inj same
    have := lowHandle_cases d.stringSlotOffsets o o' q
    have := lowHandle_cases d.stringSlotOffsets o o' q'
    by_cases indices : d.stringSlotOffsets.idxOf q = d.stringSlotOffsets.idxOf q'
    · exact (idxOf_inj member).1 indices
    · omega

/-- overlapping slots do not make the trip: the receiver's handle of the first is overwritten -/
theorem not_roundTrip_of_overlap (accepted : Accepted d)
    (small : d.payloadSize + 8 * d.stringSlotOffsets.length ≤ isizeMax)
    (overlap : ¬ d.stringSlotOffsets.Pairwise fun o o' => o + 8 ≤ o') : ¬ RoundTrip d := by
  intro trip
  obtain ⟨front, o, o', back, split, before, near, far⟩ := exists_overlap accepted.ascending overlap
  obtain ⟨k, rfl⟩ : ∃ k, o' = o + k := ⟨o' - o, by omega⟩
  set answer : Nat → Option Handle := fun q => some (lowHandle d.stringSlotOffsets o (o + k) q) with answers
  set payload : List UInt8 := List.replicate d.payloadSize 0 with zeros
  have length : payload.length = d.payloadSize := length_replicate
  have nulls : ∀ q, load payload q = 0 := load_zeros _
  have empties : ∀ q, contents emptyHeap payload q = [] := fun q => if_pos (nulls q)
  have strings : d.stringSlotOffsets.map (contents emptyHeap payload) =
      List.replicate d.stringSlotOffsets.length [] := by
    rw [eq_replicate_iff]
    refine ⟨length_map _, fun string member => ?_⟩
    obtain ⟨q, _, rfl⟩ := mem_map.1 member
    exact empties q
  have fits : payload.length + (encode (d.stringSlotOffsets.map (contents emptyHeap payload))).length ≤ isizeMax := by
    rw [length, strings, length_encode_empty]
    exact small
  have fresh : Fresh emptyHeap d 48 answer := fresh_lowHandle accepted o (o + k)
  obtain ⟨receiver', out, runs, _, blocks, _, _, slots⟩ := trip emptyHeap emptyHeap payload true (fun _ => true) _ _ _ _ 48
    answer length (fun q _ => .inl (nulls q)) (postFixed_ok length fits) rfl rfl fresh
  have fits' : (payload ++ encode (d.stringSlotOffsets.map (contents emptyHeap payload))).length ≤ isizeMax := by
    rw [length_append]
    exact fits
  obtain ⟨receiver'', runs', _, blocks', made⟩ := materialize_record length rfl fresh fits'
  obtain rfl : receiver'' = receiver' := congrArg Prod.fst (runs'.symm.trans runs)
  obtain rfl : patched answer d.stringSlotOffsets payload = out := Option.mem_unique blocks' blocks
  -- the word in the first slot
  have within : ∀ q ∈ d.stringSlotOffsets, q + 8 ≤ payload.length := by
    rw [length]
    exact accepted.within
  have first : handle answer o = 16 := if_pos rfl
  have second : handle answer (o + k) = 32 := (if_neg (by omega)).trans (if_pos rfl)
  have word : load (patched answer d.stringSlotOffsets payload) o = 16 + 256 ^ k * 32 := by
    have within₁ : ∀ q ∈ front, q + 8 ≤ payload.length := fun q member => within q (by rw [split]; simp [member])
    have lengthFront : (patched answer front payload).length = payload.length := length_patched within₁
    have here := within o (by rw [split]; simp)
    have next := within (o + k) (by rw [split]; simp)
    obtain ⟨written, isWritten⟩ : ∃ written, written = store (store (patched answer front payload) o 16) (o + k) 32 :=
      ⟨_, rfl⟩
    have lengthWritten : written.length = payload.length := by
      have inner : (store (patched answer front payload) o 16).length = payload.length := by
        rw [length_store (by omega), lengthFront]
      rw [isWritten, length_store (by omega), inner]
    have steps : patched answer d.stringSlotOffsets payload = patched answer back written := by
      rw [split, patched_append, isWritten, ← first, ← second]
      rfl
    have kept : load (patched answer back written) o = load written o := by
      refine load_congr fun i low high => getElem?_patched (fun q member => ?_) fun q member => ?_
      · rw [lengthWritten]
        exact within q (by rw [split]; simp [member])
      · have := far q member
        omega
    have bound : ∀ j : Nat, 0 < j → 32 < 256 ^ j := fun j positive =>
      Nat.lt_of_lt_of_le (by decide : 32 < 256 ^ 1) (Nat.pow_le_pow_right (by decide) positive)
    have lowBound := bound k (by omega)
    rw [steps, kept, isWritten]
    exact load_store_inside (by omega) (by omega) (by omega) (bound _ (by omega))
  have even : (16 + 256 ^ k * 32) % 2 = 0 := by omega
  have slot := slots o (by rw [split]; simp)
  rw [word, Heap.string?, Heap.inlineStringScalar, if_pos even] at slot
  simp only [made] at slot
  rw [strings_other] at slot
  · cases slot
  · intro q member same
    have cases := lowHandle_cases d.stringSlotOffsets o (o + k) q
    have low : 256 ^ k ≤ 256 ^ 7 := Nat.pow_le_pow_right (by decide) (by omega)
    have positive : 0 < 256 ^ k := Nat.pow_pos (by decide)
    have equal : lowHandle d.stringSlotOffsets o (o + k) q = 16 + 256 ^ k * 32 := same
    omega

theorem length_encode (strings : List (List UInt8)) : 8 * strings.length ≤ (encode strings).length := by
  induction strings with
  | nil => exact Nat.le_refl _
  | cons string rest ih =>
    rw [encode_cons]
    simp only [length_append, length_cons, length_leBytes]
    omega

end Trip

/-- A descriptor that the checks accept makes the round trip for all payloads exactly when its slots do not overlap. The
other case is a record too long for any message to be posted. -/
theorem roundTrip_iff {raw : Option WorkerMessageDescriptor} {reserves : Bool} {d : QueueDescriptor}
    (ok : QueueDescriptor.copyFrom raw reserves = .ok d) :
    RoundTrip d ↔ (d.stringSlotOffsets.Pairwise fun o o' => o + 8 ≤ o') ∨
      isizeMax < d.payloadSize + 8 * d.stringSlotOffsets.length := by
  have accepted := accepted_of_copyFrom ok
  constructor
  · intro trip
    by_contra neither
    rw [not_or, Nat.not_lt] at neither
    exact not_roundTrip_of_overlap accepted neither.2 neither.1 trip
  · rintro (apart | long)
    · exact roundTrip_of_apart accepted apart
    · intro sender receiver payload first reserves queue rest signal receive block answer length live posted
      obtain ⟨record, _, isRecord, small⟩ := postFixed_posted length posted
      have strings := length_encode (d.stringSlotOffsets.map (contents sender payload))
      rw [length_map] at strings
      rw [isRecord, length_append, length] at small
      omega

theorem roundTrip_iff_two_slots :
    RoundTrip ⟨16, [0, 8]⟩ ↔ ([0, 8].Pairwise fun o o' => o + 8 ≤ o') ∨ isizeMax < 16 + 8 * [0, 8].length := by
  have ok : QueueDescriptor.copyFrom (some ⟨16, 2, some [0, 8]⟩) true = .ok ⟨16, [0, 8]⟩ := rfl
  exact roundTrip_iff ok

/-- Two slots four bytes apart are accepted. The receiver of twelve zero bytes, with the strings 16 and 32 for the slots,
finds no string in the first slot. -/
theorem overlapping_slots :
    QueueDescriptor.copyFrom (some ⟨12, 2, some [0, 4]⟩) true = .ok ⟨12, [0, 4]⟩ ∧
    (∃ queue record, postFixed ⟨[], false⟩ ⟨12, [0, 4]⟩ emptyHeap (some (List.replicate 12 0)) true (fun _ => true) =
        (queue, .posted) ∧ queue.messages = [record] ∧
      ∃ receiver out, materialize emptyHeap (some 48) (fun o => some (if o = 0 then 16 else 32)) ⟨12, [0, 4]⟩
          (.message record) = (receiver, 48) ∧ receiver.blocks 48 = some out ∧ load out 0 = 16 + 2 ^ 32 * 32 ∧
        receiver.string? (load out 0) = none) ∧
    ¬ RoundTrip ⟨12, [0, 4]⟩ := by
  refine ⟨rfl, ⟨_, _, rfl, rfl, _, _, rfl, rfl, rfl, rfl⟩, ?_⟩
  have ok : QueueDescriptor.copyFrom (some ⟨12, 2, some [0, 4]⟩) true = .ok ⟨12, [0, 4]⟩ := rfl
  exact not_roundTrip_of_overlap (accepted_of_copyFrom ok) (by decide) (by decide)

end Subscript.Runtime.Worker
