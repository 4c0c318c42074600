import Mathlib.Data.List.Basic
import Mathlib.Algebra.Ring.Nat

/-! The allocator of the ship tier (`runtime/src/context/lifecycle.rs`, `memory.rs`). Memory is a word at each address;
a block has a header of two words, the state and the class with the position, and the free lists are threaded through
the first payload word of the dead blocks. What the system's allocator answers is an input. Maps here have no counted
value description, so clearing one retires its two storage blocks only. -/

namespace Subscript.Runtime

def headerSize : Nat := 16
def smallestBlock : Nat := 32
def largestBlock : Nat := 4096
def numClasses : Nat := 8
def chunkSize : Nat := 65536
def usizeMax : Nat := 2 ^ 64 - 1

def liveState : Nat := 0x535542534C495645
def deadState : Nat := 0x5355425344454144
def markState : Nat := 0x535542534D41524B

def classString : Nat := 0xFFFFFF01
def classMap : Nat := 0xFFFFFF05
def classSet : Nat := 0xFFFFFF06

def saturatingAdd (x y : Nat) : Nat := min (x + y) usizeMax

abbrev Words := Nat → Nat

def write (mem : Words) (address value : Nat) : Words := Function.update mem address value

/-- `write_bytes(start, 0, length)` -/
def zeroed (mem : Words) (start length : Nat) : Words := fun a => if start ≤ a ∧ a < start + length then 0 else mem a

/-- the state word, and the class in the low half of the next one -/
def writeHeader (mem : Words) (base classId posId : Nat) : Words :=
  write (write mem base liveState) (base + 8) (classId + 2 ^ 32 * posId)

def headerClassId (mem : Words) (base : Nat) : Nat := mem (base + 8) % 2 ^ 32

def classHoldsNoHandle (classId : Nat) : Bool := classId = classString

def isContainer (classId : Nat) : Bool := classId = classMap || classId = classSet

structure Chunk where
  base : Nat
  blockSize : Nat
  cls : Nat
  bump : Nat

structure LargeAlloc where
  base : Nat
  payloadSize : Nat

/-- the fields of `Context` that the arena uses; `large` is keyed by the payload address -/
structure Arena where
  mem : Words
  freeHeads : Nat → Nat
  chunks : List Chunk
  chunkMap : List (Nat × Nat)
  openChunk : Nat → Option Nat
  large : List (Nat × LargeAlloc)
  liveBytesCounter : Nat

def Arena.new : Arena := ⟨fun _ => 0, fun _ => 0, [], [], fun _ => none, [], 0⟩

def nextPowerOfTwo (n : Nat) : Nat := if n ≤ 1 then 1 else 2 ^ ((n - 1).log2 + 1)

/-- the trailing zeros of a power of two are its logarithm -/
def sizeClass (need : Nat) : Nat := (max (nextPowerOfTwo need) smallestBlock).log2 - smallestBlock.log2

/-- `Layout::from_size_align(size, 16)` -/
def layoutOk (size : Nat) : Bool := size ≤ 2 ^ 63 - 1 - 15

namespace Arena

variable (s : Arena)

/-! ### Allocation -/

def allocLarge (size classId posId : Nat) (system : Option Nat) : Nat × Arena :=
  let total := saturatingAdd headerSize (max size 1)
  if layoutOk total then
    match system with
    | none => (0, s)
    | some base =>
      let payload := base + headerSize
      (payload, { s with
        mem := writeHeader (zeroed s.mem base total) base classId posId
        large := (payload, ⟨base, size⟩) :: s.large.filter fun entry => entry.1 ≠ payload
        liveBytesCounter := saturatingAdd s.liveBytesCounter size })
  else (0, s)

/-- a chunk from the system, kept in the order of the addresses in `chunk_map` -/
def newChunk (cls : Nat) (system : Option Nat) : Option (Nat × Arena) :=
  match system with
  | none => none
  | some base =>
    let index := s.chunks.length
    let pos := (s.chunkMap.takeWhile fun entry => entry.1 < base).length
    some (index, { s with
      mem := zeroed s.mem base chunkSize
      chunks := s.chunks ++ [⟨base, smallestBlock <<< cls, cls, 0⟩]
      chunkMap := s.chunkMap.insertIdx pos (base, index)
      openChunk := Function.update s.openChunk cls (some index) })

/-- the open chunk of the class if it has room, or a new one -/
def chunkFor (cls : Nat) (system : Option Nat) : Option (Nat × Arena) :=
  match s.openChunk cls with
  | none => s.newChunk cls system
  | some i =>
    match s.chunks[i]? with
    | none => none
    | some chunk => if chunk.bump < chunkSize / (smallestBlock <<< cls) then some (i, s) else s.newChunk cls system

/-- the head of the free list, unlinked and armed again -/
def allocReused (cls head classId posId : Nat) : Nat × Arena :=
  let capacity := smallestBlock <<< cls - headerSize
  let mem := if classHoldsNoHandle classId then s.mem else zeroed s.mem head capacity
  (head, { s with
    freeHeads := Function.update s.freeHeads cls (s.mem head)
    mem := writeHeader mem (head - headerSize) classId posId
    liveBytesCounter := saturatingAdd s.liveBytesCounter capacity })

/-- the next block of the chunk -/
def allocBump (cls index classId posId : Nat) (chunk : Chunk) : Nat × Arena :=
  let base := chunk.base + chunk.bump * (smallestBlock <<< cls)
  (base + headerSize, { s with
    mem := writeHeader s.mem base classId posId
    chunks := s.chunks.set index { chunk with bump := chunk.bump + 1 }
    liveBytesCounter := saturatingAdd s.liveBytesCounter (smallestBlock <<< cls - headerSize) })

/-- `arena_alloc`: the payload address, or null -/
def alloc (size classId posId : Nat) (system : Option Nat) : Nat × Arena :=
  let need := saturatingAdd headerSize (max size 1)
  if largestBlock < need then s.allocLarge size classId posId system
  else
    let cls := sizeClass need
    if s.freeHeads cls ≠ 0 then s.allocReused cls (s.freeHeads cls) classId posId
    else
      match s.chunkFor cls system with
      | none => (0, s)
      | some (index, s) =>
        match s.chunks[index]? with
        | none => (0, s)
        | some chunk => s.allocBump cls index classId posId chunk

/-! ### Membership -/

/-- `arena_lookup_block`: the block and the class of a payload address below the watermark of its chunk -/
def lookupBlock (addr : Nat) : Option (Nat × Nat) :=
  let i := (s.chunkMap.takeWhile fun entry => entry.1 ≤ addr).length
  if i = 0 then none
  else do
    let (cbase, ci) ← s.chunkMap[i - 1]?
    if addr < cbase + headerSize ∨ cbase + chunkSize ≤ addr then none
    else
      let chunk ← s.chunks[ci]?
      let off := addr - cbase - headerSize
      if off &&& chunk.blockSize - 1 ≠ 0 then none
      else
        let bi := off >>> chunk.blockSize.log2
        if chunk.bump ≤ bi then none else some (chunk.base + bi * chunk.blockSize, chunk.cls)

def isLive (payload : Nat) : Bool :=
  match s.lookupBlock payload with
  | some (block, _) => s.mem block = liveState || s.mem block = markState
  | none => (s.large.lookup payload).isSome

/-! ### Release -/

/-- the words of the container header that `clear` resets -/
def clearHeader (mem : Words) (payload : Nat) : Words :=
  [0, 8, 16, 24, 32, 72, 80].foldl (fun mem offset => write mem (payload + offset) 0) mem

/-- `assocops::clear`: the header is reset and its storage is deleted -/
def clearContainer (delete : Arena → Nat → Arena) (payload : Nat) : Arena :=
  let entries := s.mem (payload + 72)
  let buckets := s.mem (payload + 80)
  let s := { s with mem := clearHeader s.mem payload }
  let s := if entries ≠ 0 then delete s entries else s
  if buckets ≠ 0 then delete s buckets else s

def releaseClassState (delete : Arena → Nat → Arena) (classId payload : Nat) : Arena :=
  if isContainer classId then s.clearContainer delete payload else s

/-- a block joins the free list of its class -/
def retire (block cls : Nat) : Arena :=
  { s with
    mem := write (write s.mem block deadState) (block + headerSize) (s.freeHeads cls)
    freeHeads := Function.update s.freeHeads cls (block + headerSize)
    liveBytesCounter := s.liveBytesCounter - (smallestBlock <<< cls - headerSize) }

def removeLarge (payload : Nat) : Arena := { s with large := s.large.filter fun entry => entry.1 ≠ payload }

/-- `arena_release`, with a bound on how deep containers are cleared within each other -/
def arenaRelease : Nat → Arena → Nat → Arena
  | 0, s, _ => s
  | depth + 1, s, payload =>
    match s.lookupBlock payload with
    | some (block, cls) =>
      if s.mem block = liveState ∨ s.mem block = markState then
        (s.releaseClassState (arenaRelease depth) (headerClassId s.mem block) payload).retire block cls
      else s
    | none =>
      match s.large.lookup payload with
      | none => s
      | some a =>
        let s := (s.removeLarge payload).releaseClassState (arenaRelease depth) (headerClassId s.mem a.base) payload
        { s with liveBytesCounter := s.liveBytesCounter - a.payloadSize }

/-- a container that is cleared has its storage words reset first, so each is gone through once -/
def release (payload : Nat) : Arena := arenaRelease ((s.chunks.map Chunk.bump).sum + s.large.length + 2) s payload

/-! ### Collection -/

/-- the live block that a word names and its payload size -/
def markTarget (addr : Nat) : Option (Nat × Nat) :=
  match s.lookupBlock addr with
  | some (block, cls) => if s.mem block = liveState then some (block, smallestBlock <<< cls - headerSize) else none
  | none =>
    match s.large.lookup addr with
    | some a => if s.mem a.base = liveState then some (a.base, a.payloadSize) else none
    | none => none

/-- the words that are pushed, the last on top -/
def scanPayload (payload size classId : Nat) : List Nat :=
  if classHoldsNoHandle classId then []
  else ((List.range (size / 8)).map fun word => s.mem (payload + word * 8)).reverse

/-- `arena_mark`, with the words that may still be popped -/
def arenaMark : Nat → List Nat → Arena → Arena
  | 0, _, s => s
  | _, [], s => s
  | rounds + 1, addr :: work, s =>
    match s.markTarget addr with
    | none => arenaMark rounds work s
    | some (block, size) =>
      let marked := { s with mem := write s.mem block markState }
      arenaMark rounds (s.scanPayload (block + headerSize) size (headerClassId s.mem block) ++ work) marked

/-- one round of the sweep of a chunk: the memory, the free list's head and the bytes retired so far -/
def sweepBlock (chunk : Chunk) (acc : Words × Nat × Nat) (bi : Nat) : Words × Nat × Nat :=
  let (mem, freeHead, retiredBytes) := acc
  let block := chunk.base + bi * chunk.blockSize
  if mem block = markState then (write mem block liveState, freeHead, retiredBytes)
  else if mem block = liveState then
    (write (write mem block deadState) (block + headerSize) freeHead, block + headerSize,
      retiredBytes + (chunk.blockSize - headerSize))
  else acc

def sweepChunk (s : Arena) (chunk : Chunk) : Arena :=
  let (mem, freeHead, retiredBytes) :=
    (List.range chunk.bump).foldl (sweepBlock chunk) (s.mem, s.freeHeads chunk.cls, 0)
  { s with
    mem
    freeHeads := Function.update s.freeHeads chunk.cls freeHead
    liveBytesCounter := s.liveBytesCounter - retiredBytes }

/-- marked records live on, the others are listed -/
def unmarkLarge (acc : Words × List Nat) (entry : Nat × LargeAlloc) : Words × List Nat :=
  if acc.1 entry.2.base = markState then (write acc.1 entry.2.base liveState, acc.2) else (acc.1, acc.2 ++ [entry.1])

def dropLarge (s : Arena) (payload : Nat) : Arena :=
  match s.large.lookup payload with
  | none => s
  | some a => { s.removeLarge payload with liveBytesCounter := s.liveBytesCounter - a.payloadSize }

def sweepLarge : Arena :=
  let (mem, freed) := s.large.foldl unmarkLarge (s.mem, [])
  freed.foldl dropLarge { s with mem }

def arenaSweep : Arena := (s.chunks.foldl sweepChunk s).sweepLarge

/-- `collect` with the words of the roots; every word is popped once, and a block is scanned once -/
def collect (roots : List Nat) : Arena :=
  if s.chunks.isEmpty && s.large.isEmpty then s
  else (arenaMark (roots.length + s.liveBytesCounter) roots.reverse s).arenaSweep

end Arena

/-- what is done with the arena; a store is the program's own, into a block it has -/
inductive ArenaOp where
  | alloc (size classId posId : Nat) (system : Option Nat)
  | release (payload : Nat)
  | collect (roots : List Nat)
  | store (address value : Nat)

def ArenaOp.step (s : Arena) : ArenaOp → Arena
  | .alloc size classId posId system => (s.alloc size classId posId system).2
  | .release payload => s.release payload
  | .collect roots => s.collect roots
  | .store address value => { s with mem := write s.mem address value }

end Subscript.Runtime
