import Mathlib.Data.List.ReduceOption
import Subscript.Runtime.AssocKey
import Subscript.Table.OrderedMap
import Subscript.Table.Probing

/-! The container behind `Map` and `Set` (`runtime/src/assocops.rs`): a vector of entries in the order of insertion
and an open-addressed index into it. No traversal is open and every allocation succeeds. `none` is an operation that
does not return: the loop of `bucket_insert` has no bound of its own. -/

namespace Subscript.Runtime

open Table (Slot)

structure Entry (kind : KeyKind) (V : Type) where
  hash : UInt64
  key : KeySlot kind
  value : V

/-- `order_len` is the length of `entries`; an entry that was deleted is zeroed -/
structure AssocHeader (kind : KeyKind) (V : Type) where
  len : Nat
  tombstones : Nat
  orderCap : Nat
  bucketCap : Nat
  entries : List (Option (Entry kind V))
  buckets : List Slot

variable {kind : KeyKind} {V : Type}

/-- `new`, and what `clear` leaves -/
def AssocHeader.new : AssocHeader kind V := ⟨0, 0, 0, 0, [], []⟩

structure Lookup where
  bucket : Nat
  entry : Option Nat

def homeBucket (cap : Nat) (hash : UInt64) : Nat := hash.toNat &&& cap - 1

def nextBucket (cap bucket : Nat) : Nat := bucket + 1 &&& cap - 1

namespace AssocHeader

variable (h : AssocHeader kind V)

/-- the entry of a bucket has the hash and the key -/
def holds (entry : Nat) (key : KeySlot kind) (hash : UInt64) : Bool :=
  match h.entries[entry]? with
  | some (some x) => x.hash = hash && keysEqual kind x.key key
  | _ => false

/-- the loop of `lookup`, with the rounds that are left -/
def lookupFrom (key : KeySlot kind) (hash : UInt64) : Nat → Nat → Option Nat → Lookup
  | 0, _, firstTombstone => ⟨firstTombstone.getD 0, none⟩
  | rounds + 1, bucket, firstTombstone =>
    match h.buckets.getD bucket .empty with
    | .empty => ⟨firstTombstone.getD bucket, none⟩
    | .tombstone => lookupFrom key hash rounds (nextBucket h.bucketCap bucket) (firstTombstone.or (some bucket))
    | .entry entry =>
      if h.holds entry key hash then ⟨bucket, some entry⟩
      else lookupFrom key hash rounds (nextBucket h.bucketCap bucket) firstTombstone

def lookup (key : KeySlot kind) (hash : UInt64) : Lookup :=
  if h.bucketCap = 0 then ⟨0, none⟩ else h.lookupFrom key hash h.bucketCap (homeBucket h.bucketCap hash) none

end AssocHeader

/-- the loop of `bucket_insert`: it runs for ever if it meets no empty bucket in one turn -/
def bucketInsertFrom (buckets : List Slot) (cap entry : Nat) : Nat → Nat → Option (List Slot)
  | 0, _ => none
  | rounds + 1, bucket =>
    if buckets.getD bucket .empty = .empty then some (buckets.set bucket (.entry entry))
    else bucketInsertFrom buckets cap entry rounds (nextBucket cap bucket)

def bucketInsert (buckets : List Slot) (cap : Nat) (hash : UInt64) (entry : Nat) : Option (List Slot) :=
  bucketInsertFrom buckets cap entry cap (homeBucket cap hash)

/-- the loop of `rehash` -/
def indexEntries (cap : Nat) : List (Option (Entry kind V)) → Nat → List Slot → Option (List Slot)
  | [], _, buckets => some buckets
  | none :: entries, entry, buckets => indexEntries cap entries (entry + 1) buckets
  | some x :: entries, entry, buckets => do
    let buckets ← bucketInsert buckets cap x.hash entry
    indexEntries cap entries (entry + 1) buckets

/-- the loop of `compact_entries`: the entries from `read` on are packed from `write` on -/
def packEntries (cap : Nat) :
    List (Option (Entry kind V)) → Nat → List Slot → Option (List (Option (Entry kind V)) × List Slot)
  | [], _, buckets => some ([], buckets)
  | none :: entries, write, buckets => packEntries cap entries write buckets
  | some x :: entries, write, buckets => do
    let buckets ← bucketInsert buckets cap x.hash write
    let (packed, buckets) ← packEntries cap entries (write + 1) buckets
    return (some x :: packed, buckets)

namespace AssocHeader

variable (h : AssocHeader kind V)

def growEntries (newCap : Nat) : AssocHeader kind V := { h with orderCap := newCap }

def rehash (newCap : Nat) : Option (AssocHeader kind V) := do
  let buckets ← indexEntries newCap h.entries 0 (List.replicate newCap .empty)
  return { h with buckets, bucketCap := newCap, tombstones := 0 }

def compactEntries : Option (AssocHeader kind V) :=
  if h.entries.length = h.len ∨ h.bucketCap = 0 then some h
  else do
    let (entries, buckets) ← packEntries h.bucketCap h.entries 0 (List.replicate h.bucketCap .empty)
    return { h with entries, buckets, tombstones := 0 }

/-- the first part of `ensure_capacity`: deleted entries give their room back before the vector grows -/
def compactWhenFull : Option (AssocHeader kind V) :=
  if h.entries.length = h.orderCap ∧ h.len < h.entries.length then h.compactEntries else some h

def growWhenFull : AssocHeader kind V :=
  if h.entries.length = h.orderCap then h.growEntries (if h.orderCap = 0 then 4 else h.orderCap * 2) else h

/-- the last part: the index is rebuilt at 75%, larger when the active entries need it -/
def rehashWhenLoaded : Option (AssocHeader kind V) :=
  if h.bucketCap = 0 ∨ (h.len + h.tombstones + 1) * 4 ≥ h.bucketCap * 3 then
    h.rehash <|
      if h.bucketCap = 0 then 8
      else if (h.len + 1) * 4 ≥ h.bucketCap * 3 then h.bucketCap * 2
      else h.bucketCap
  else some h

def ensureCapacity : Option (AssocHeader kind V) := do
  let h ← h.compactWhenFull
  h.growWhenFull.rehashWhenLoaded

/-- the value bytes of an entry are replaced -/
def overwrite (entry : Nat) (value : V) : AssocHeader kind V :=
  { h with entries := h.entries.modify entry (Option.map fun x => { x with value }) }

/-- the entry is written after the last one and its bucket points to it -/
def append (bucket : Nat) (hash : UInt64) (key : KeySlot kind) (value : V) : AssocHeader kind V :=
  { h with
    entries := h.entries ++ [some ⟨hash, storedKey kind key, value⟩]
    buckets := h.buckets.set bucket (.entry h.entries.length)
    tombstones := if h.buckets.getD bucket .empty = .tombstone then h.tombstones - 1 else h.tombstones
    len := h.len + 1 }

def insert (key : KeySlot kind) (value : V) : Option (AssocHeader kind V) :=
  let hash := hashKey kind key
  match (h.lookup key hash).entry with
  | some entry => some (h.overwrite entry value)
  | none => do
    let h ← h.ensureCapacity
    return h.append (h.lookup key hash).bucket hash key value

def findEntry (key : KeySlot kind) : Option Nat :=
  if h.bucketCap = 0 then none else (h.lookup key (hashKey kind key)).entry

/-- the value that is copied out -/
def get (key : KeySlot kind) : Option V := do
  let entry ← h.findEntry key
  let x ← h.entries[entry]?.join
  return x.value

def getOr (key : KeySlot kind) (fallback : V) : V := (h.get key).getD fallback

def has (key : KeySlot kind) : Bool := (h.findEntry key).isSome

def delete (key : KeySlot kind) : Bool × AssocHeader kind V :=
  if h.bucketCap = 0 then (false, h)
  else
    let found := h.lookup key (hashKey kind key)
    match found.entry with
    | none => (false, h)
    | some entry =>
      (true, { h with
        buckets := h.buckets.set found.bucket .tombstone
        entries := h.entries.set entry none
        len := h.len - 1
        tombstones := h.tombstones + 1 })

def clear (_ : AssocHeader kind V) : AssocHeader kind V := new

/-- `len(handle) -> i32`: the count is cast to 32 bits -/
def size : Int := (BitVec.ofNat 32 h.len).toInt

/-- the active entries in the order of the vector, as the traversals visit them -/
def walk : Table.OrderedMap (KeySlot kind) V := h.entries.reduceOption.map fun x => (x.key, x.value)

end AssocHeader

/-! ### Scripts -/

/-- what a script does with a container -/
inductive AssocOp (kind : KeyKind) (V : Type) where
  | set (key : KeySlot kind) (value : V)
  | delete (key : KeySlot kind)
  | clear
  | get (key : KeySlot kind)
  | getOr (key : KeySlot kind) (fallback : V)
  | has (key : KeySlot kind)
  | size
  | walk

inductive AssocResult (kind : KeyKind) (V : Type) where
  | done
  | found (value : Option V)
  | value (value : V)
  | flag (flag : Bool)
  | size (size : Int)
  | walk (entries : List (KeySlot kind × V))

/-- one operation on the container -/
def AssocOp.step : AssocOp kind V → AssocHeader kind V → Option (AssocResult kind V × AssocHeader kind V)
  | .set key value, h => do
    let h ← h.insert key value
    return (.done, h)
  | .delete key, h => some (.flag (h.delete key).1, (h.delete key).2)
  | .clear, h => some (.done, h.clear)
  | .get key, h => some (.found (h.get key), h)
  | .getOr key fallback, h => some (.value (h.getOr key fallback), h)
  | .has key, h => some (.flag (h.has key), h)
  | .size, h => some (.size h.size, h)
  | .walk, h => some (.walk h.walk, h)

def assocRun : List (AssocOp kind V) → AssocHeader kind V → Option (List (AssocResult kind V) × AssocHeader kind V)
  | [], h => some ([], h)
  | op :: ops, h => do
    let (result, h) ← op.step h
    let (results, h) ← assocRun ops h
    return (result :: results, h)

/-- the same operation on an ordered map whose keys are compared with SameValueZero; a key is kept as the
representative of its class -/
def AssocOp.spec : AssocOp kind V → Table.OrderedMap (KeySlot kind) V →
    AssocResult kind V × Table.OrderedMap (KeySlot kind) V
  | .set key value, m => (.done, m.set (sameValueZero kind) (storedKey kind key) value)
  | .delete key, m => (.flag (m.find (sameValueZero kind) key).isSome, m.erase (sameValueZero kind) key)
  | .clear, _ => (.done, [])
  | .get key, m => (.found (m.find (sameValueZero kind) key), m)
  | .getOr key fallback, m => (.value ((m.find (sameValueZero kind) key).getD fallback), m)
  | .has key, m => (.flag (m.find (sameValueZero kind) key).isSome, m)
  | .size, m => (.size m.length, m)
  | .walk, m => (.walk m, m)

def specRun : List (AssocOp kind V) → Table.OrderedMap (KeySlot kind) V →
    List (AssocResult kind V) × Table.OrderedMap (KeySlot kind) V
  | [], m => ([], m)
  | op :: ops, m =>
    let (result, m) := op.spec m
    let (results, m) := specRun ops m
    (result :: results, m)

end Subscript.Runtime
