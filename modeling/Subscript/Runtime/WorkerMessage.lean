import Subscript.Memory.Words
import Subscript.Runtime.Exception
import Subscript.Runtime.WorkerQueue

/-! Messages between workers: the sender copies a payload and the contents of its string slots into a record, and the
receiver makes a payload and strings of its own from it. -/

namespace Subscript.Runtime.Worker

open Words

abbrev Handle := Nat

def isizeMax : Nat := 2 ^ 63 - 1

def usizeMax : Nat := 2 ^ 64 - 1

/-- a descriptor of a program image; an offset table that is `none` is a null pointer -/
structure WorkerMessageDescriptor where
  payloadSize : Nat
  stringSlotCount : Nat
  stringSlotOffsets : Option (List Nat)
deriving DecidableEq, Repr

structure QueueDescriptor where
  payloadSize : Nat
  stringSlotOffsets : List Nat
deriving DecidableEq, Repr

namespace QueueDescriptor

/-- the checks of the offset table, after the slot `previous` -/
def copyOffsets (payloadSize : Nat) : Option Nat → List Nat → Except String (List Nat)
  | _, [] => .ok []
  | previous, rawOffset :: rest =>
    if rawOffset + 8 > usizeMax then .error "worker message string slot is outside the payload"
    else if rawOffset + 8 > payloadSize then .error "worker message string slot is outside the payload"
    else if previous.any (· ≥ rawOffset) then .error "worker message string slot offsets are not ascending"
    else (rawOffset :: ·) <$> copyOffsets payloadSize (some rawOffset) rest

/-- `reserves` is the answer of the allocator for the table -/
def copyFrom (descriptor : Option WorkerMessageDescriptor) (reserves : Bool) : Except String QueueDescriptor :=
  match descriptor with
  | none => .error "worker message descriptor is null"
  | some descriptor =>
    if descriptor.payloadSize > isizeMax then .error "worker message payload size is not representable"
    else if descriptor.stringSlotCount > isizeMax / 8 then
      .error "worker message string slot count is not representable"
    else if descriptor.stringSlotCount ≠ 0 && descriptor.stringSlotOffsets.isNone then
      .error "worker message string slot offsets are null"
    else if !reserves then .error "worker message string slot table allocation failed"
    else
      (⟨descriptor.payloadSize, ·⟩) <$>
        copyOffsets descriptor.payloadSize none
          ((descriptor.stringSlotOffsets.getD []).take descriptor.stringSlotCount)

end QueueDescriptor

/-- what a Context holds of strings and message payloads -/
structure Heap where
  strings : Handle → Option (List UInt8)
  blocks : Handle → Option (List UInt8)
  trap : Option TrapRecord

namespace Heap

/-- the first trap stays -/
def trapWith (heap : Heap) (kind : TrapKind) (message : String) (posId : Nat) : Heap :=
  { heap with trap := heap.trap.or (some ⟨kind, message, posId⟩) }

def inlineStringScalar (handle : Handle) : Option Nat :=
  if handle % 2 = 0 then none
  else if handle / 2 > 0 ∧ handle / 2 ≤ 65536 then some (handle / 2 - 1) else none

/-- the bytes of the process's table of code points -/
def encodeUtf8 (scalar : Nat) : List UInt8 :=
  if scalar ≤ 0x7f then [UInt8.ofNat scalar]
  else if scalar ≤ 0x7ff then [UInt8.ofNat (0xc0 ||| scalar >>> 6), UInt8.ofNat (0x80 ||| scalar &&& 0x3f)]
  else [UInt8.ofNat (0xe0 ||| scalar >>> 12), UInt8.ofNat (0x80 ||| (scalar >>> 6) &&& 0x3f),
    UInt8.ofNat (0x80 ||| scalar &&& 0x3f)]

/-- the string of a handle, when it is live -/
def string? (heap : Heap) (handle : Handle) : Option (List UInt8) :=
  match inlineStringScalar handle with
  | some scalar => some (encodeUtf8 scalar)
  | none => heap.strings handle

def strBytes (heap : Heap) (handle : Handle) : List UInt8 := (heap.string? handle).getD []

/-- `alloc` of a payload, with zero bytes -/
def alloc (heap : Heap) (size : Nat) (answer : Option Handle) (posId : Nat) : Heap × Handle :=
  match answer with
  | some p => ({ heap with blocks := Function.update heap.blocks p (some (List.replicate size 0)) }, p)
  | none => (heap.trapWith .allocationFailure ("allocation of " ++ toString size ++ " bytes failed") posId, 0)

def allocStr (heap : Heap) (bytes : List UInt8) (answer : Option Handle) (posId : Nat) : Heap × Handle :=
  if 8 + bytes.length > usizeMax then
    (heap.trapWith .allocationFailure
      ("string allocation of " ++ toString bytes.length ++ " bytes is not representable") posId, 0)
  else
    match answer with
    | some p => ({ heap with strings := Function.update heap.strings p (some bytes) }, p)
    | none =>
      (heap.trapWith .allocationFailure ("allocation of " ++ toString (8 + bytes.length) ++ " bytes failed") posId, 0)

/-- a copy over the first bytes of a payload -/
def fill (heap : Heap) (p : Handle) (bytes : List UInt8) : Heap :=
  { heap with
    blocks := Function.update heap.blocks p ((heap.blocks p).map fun block => bytes ++ block.drop bytes.length) }

def writeWord (heap : Heap) (p : Handle) (offset word : Nat) : Heap :=
  { heap with blocks := Function.update heap.blocks p ((heap.blocks p).map fun block => store block offset word) }

end Heap

inductive PostResult where
  | posted
  | closed
  | nullPayload
  | allocationFailed
deriving DecidableEq, Repr

/-- what the allocator says to a vector that grows -/
def tryReserve (answer : Bool) (length additional : Nat) : Bool := answer && length + additional ≤ isizeMax

/-- the strings of the slots behind the fixed bytes -/
def appendStrings (ctx : Heap) (payload : List UInt8) (reserves : Nat → Bool) :
    List Nat → List UInt8 → Except PostResult (List UInt8)
  | [], record => .ok record
  | offset :: rest, record =>
    let handle := load payload offset
    let string := if handle = 0 then [] else ctx.strBytes handle
    if !tryReserve (reserves offset) record.length (min (8 + string.length) usizeMax) then .error .allocationFailed
    else appendStrings ctx payload reserves rest (record ++ leBytes 8 string.length ++ string)

/-- `post_fixed`; a payload that is `none` is a null pointer, and `first` and `reserves` are the answers of the allocator
for the fixed bytes and for the string of each slot -/
def postFixed (queue : QueueState (List UInt8)) (descriptor : QueueDescriptor) (ctx : Heap) (payload : Option (List UInt8))
    (first : Bool) (reserves : Nat → Bool) : QueueState (List UInt8) × PostResult :=
  if descriptor.payloadSize ≠ 0 && payload.isNone then (queue, .nullPayload)
  else
    let bytes := (payload.getD []).take descriptor.payloadSize
    if !tryReserve first 0 bytes.length then (queue, .allocationFailed)
    else
      match appendStrings ctx (payload.getD []) reserves descriptor.stringSlotOffsets bytes with
      | .error result => (queue, result)
      | .ok record =>
        match Queue.post queue record with
        | .done queue _ (.posted true) => (queue, .posted)
        | _ => (queue, .closed)

/-- `record.get(start..stop)` -/
def slice? (record : List UInt8) (start stop : Nat) : Option (List UInt8) :=
  if start ≤ stop ∧ stop ≤ record.length then some ((record.drop start).take (stop - start)) else none

/-- the loop over the slots; `answer` is the allocator's for the string of each slot. It ends with the cursor, or with
none when it returns null. -/
def materializeSlots (record : List UInt8) (payload : Handle) (answer : Nat → Option Handle) :
    List Nat → Nat → Heap → Heap × Option Nat
  | [], cursor, ctx => (ctx, some cursor)
  | offset :: rest, cursor, ctx =>
    match slice? record cursor (min (cursor + 8) usizeMax) with
    | none => (ctx.trapWith .internal "worker message record has no string length" 0, none)
    | some lengthBytes =>
      let length := ofLe lengthBytes
      if length > usizeMax then
        (ctx.trapWith .internal "worker message string length is not representable" 0, none)
      else
        let cursor := cursor + 8
        match slice? record cursor (min (cursor + length) usizeMax) with
        | none => (ctx.trapWith .internal "worker message record has incomplete string bytes" 0, none)
        | some bytes =>
          let (ctx, string) := ctx.allocStr bytes (answer offset) 0
          if string = 0 then (ctx, none)
          else materializeSlots record payload answer rest (cursor + length) (ctx.writeWord payload offset string)

def materialize (ctx : Heap) (block : Option Handle) (answer : Nat → Option Handle) (descriptor : QueueDescriptor)
    (receive : Receive (List UInt8)) : Heap × Handle :=
  match receive with
  | .message record =>
    if ctx.trap.isSome then (ctx, 0)
    else
      let (ctx, payload) := ctx.alloc descriptor.payloadSize block 0
      if payload = 0 then (ctx, payload)
      else
        match slice? record 0 descriptor.payloadSize with
        | none => (ctx.trapWith .internal "worker message record has no fixed payload" 0, 0)
        | some fixed =>
          let ctx := if fixed.isEmpty then ctx else ctx.fill payload fixed
          match materializeSlots record payload answer descriptor.stringSlotOffsets descriptor.payloadSize ctx with
          | (ctx, none) => (ctx, 0)
          | (ctx, some cursor) =>
            if cursor ≠ record.length then
              (ctx.trapWith .internal "worker message record has trailing bytes" 0, 0)
            else (ctx, payload)
  | _ => (ctx, 0)

end Subscript.Runtime.Worker
