import Subscript.Memory.Regions
import Subscript.Runtime.Arena

/-! Where the blocks of the arena lie. The chunks and the large allocations are apart, every chunk is a grid of blocks,
and the address arithmetic of `arena_lookup_block` finds just the payloads of the grid. -/

namespace Subscript.Runtime

open List Memory

/-! ### Sizes -/

theorem blockSize_eq (cls : Nat) : smallestBlock <<< cls = 2 ^ (cls + 5) := by
  rw [Nat.shiftLeft_eq, smallestBlock, Nat.pow_add, Nat.mul_comm]

theorem le_nextPowerOfTwo (n : Nat) : n ≤ nextPowerOfTwo n := by
  unfold nextPowerOfTwo
  split_ifs with h
  · exact h
  · have := @Nat.lt_log2_self (n - 1)
    omega

theorem nextPowerOfTwo_eq (n : Nat) : ∃ k, nextPowerOfTwo n = 2 ^ k := by
  unfold nextPowerOfTwo
  split_ifs
  · exact ⟨0, rfl⟩
  · exact ⟨_, rfl⟩

/-- a block of the class holds what is needed -/
theorem le_sizeClass (need : Nat) : need ≤ smallestBlock <<< sizeClass need := by
  obtain ⟨k, hk⟩ := nextPowerOfTwo_eq need
  have hle := le_nextPowerOfTwo need
  have hfive : smallestBlock = 2 ^ 5 := rfl
  rw [blockSize_eq, sizeClass, hfive, Nat.log2_two_pow]
  rcases Nat.le_total k 5 with hsmall | hlarge
  · exact Nat.le_trans hle (hk ▸ Nat.pow_le_pow_right (by omega) (by omega))
  · rw [Nat.max_eq_left (hk ▸ Nat.pow_le_pow_right (by omega) hlarge), hk, Nat.log2_two_pow]
    rw [hk] at hle
    rwa [Nat.sub_add_cancel hlarge]

variable {n : Nat}

theorem nextPowerOfTwo_le {k : Nat} (h : n ≤ 2 ^ k) : nextPowerOfTwo n ≤ 2 ^ k := by
  unfold nextPowerOfTwo
  split_ifs with hone
  · exact Nat.one_le_two_pow
  · refine Nat.pow_le_pow_right (by omega) ?_
    have := (Nat.log2_lt (show n - 1 ≠ 0 by omega)).mpr (show n - 1 < 2 ^ k by omega)
    omega

theorem sizeClass_lt {need : Nat} (h : need ≤ largestBlock) : sizeClass need < numClasses := by
  have hle : max (nextPowerOfTwo need) smallestBlock ≤ 2 ^ 12 :=
    Nat.max_le.mpr ⟨nextPowerOfTwo_le h, by decide⟩
  have hpos : max (nextPowerOfTwo need) smallestBlock ≠ 0 := by
    unfold smallestBlock
    omega
  have hlog := (Nat.log2_lt hpos).mpr (Nat.lt_of_le_of_lt hle (show 2 ^ 12 < 2 ^ 13 by decide))
  have hfive : smallestBlock.log2 = 5 := by decide
  rw [sizeClass, hfive, numClasses]
  omega

/-! ### The grid -/

structure Chunk.Ok (chunk : Chunk) : Prop where
  pos : 0 < chunk.base
  space : chunk.base + chunkSize ≤ 2 ^ 64
  cls : chunk.cls < numClasses
  size : chunk.blockSize = smallestBlock <<< chunk.cls
  bump : chunk.bump * chunk.blockSize ≤ chunkSize

def Chunk.region (chunk : Chunk) : Region := (chunk.base, chunkSize)

def LargeAlloc.region (a : LargeAlloc) : Region := (a.base, headerSize + a.payloadSize)

/-- a record and the address it is kept under -/
structure LargeOk (entry : Nat × LargeAlloc) : Prop where
  key : entry.1 = entry.2.base + headerSize
  pos : 0 < entry.2.base
  space : entry.2.base + headerSize + entry.2.payloadSize ≤ 2 ^ 64

/-- what holds of the tables of the arena -/
structure Geometry (s : Arena) : Prop where
  chunkOk : ∀ chunk ∈ s.chunks, chunk.Ok
  largeOk : ∀ entry ∈ s.large, LargeOk entry
  apart : (s.chunks.map Chunk.region ++ s.large.map fun entry => entry.2.region).Pairwise Apart
  sorted : s.chunkMap.Pairwise fun entry entry' => entry.1 < entry'.1
  mapped : ∀ base i, (base, i) ∈ s.chunkMap ↔ ∃ chunk, s.chunks[i]? = some chunk ∧ chunk.base = base
  opened : ∀ cls i, s.openChunk cls = some i → ∃ chunk, s.chunks[i]? = some chunk ∧ chunk.cls = cls

/-- a block below the watermark of its chunk -/
def Grid (s : Arena) (block cls : Nat) : Prop :=
  ∃ chunk ∈ s.chunks, ∃ i < chunk.bump, block = chunk.base + i * chunk.blockSize ∧ cls = chunk.cls

/-- the regions that the arena has handed out at some time: the blocks of the grid and the large allocations -/
def Owned (s : Arena) (r : Region) : Prop :=
  (∃ block cls, Grid s block cls ∧ r = (block, smallestBlock <<< cls)) ∨ ∃ entry ∈ s.large, r = entry.2.region

variable {s : Arena} {block cls : Nat}

/-- the memory, the free lists and the counter do not matter -/
theorem Geometry.tables (geo : Geometry s) {mem : Words} {freeHeads : Nat → Nat} {bytes : Nat} :
    Geometry { s with mem := mem, freeHeads := freeHeads, liveBytesCounter := bytes } :=
  ⟨geo.chunkOk, geo.largeOk, geo.apart, geo.sorted, geo.mapped, geo.opened⟩

theorem Grid.owned (h : Grid s block cls) : Owned s (block, smallestBlock <<< cls) := .inl ⟨block, cls, h, rfl⟩

variable {chunk : Chunk}

theorem Chunk.Ok.block_end (h : chunk.Ok) {i : Nat} (hi : i < chunk.bump) :
    i * chunk.blockSize + chunk.blockSize ≤ chunkSize := by
  have := Nat.mul_le_mul_right chunk.blockSize (show i + 1 ≤ chunk.bump from hi)
  rw [Nat.succ_mul] at this
  exact Nat.le_trans this h.bump

theorem Chunk.Ok.size_pos (h : chunk.Ok) : smallestBlock ≤ chunk.blockSize := by
  rw [h.size, Nat.shiftLeft_eq]
  exact Nat.le_mul_of_pos_right _ (Nat.two_pow_pos _)

theorem Geometry.chunks_apart (geo : Geometry s) {chunk' : Chunk} (h : chunk ∈ s.chunks)
    (h' : chunk' ∈ s.chunks) : chunk = chunk' ∨ Apart chunk.region chunk'.region :=
  Apart.of_pairwise (pairwise_append.mp geo.apart).1 h h'

variable {entry : Nat × LargeAlloc}

theorem Geometry.large_apart (geo : Geometry s) {entry' : Nat × LargeAlloc} (h : entry ∈ s.large)
    (h' : entry' ∈ s.large) : entry = entry' ∨ Apart entry.2.region entry'.2.region :=
  Apart.of_pairwise (pairwise_append.mp geo.apart).2.1 h h'

theorem Geometry.chunk_large_apart (geo : Geometry s) (h : chunk ∈ s.chunks)
    (h' : entry ∈ s.large) : Apart chunk.region entry.2.region :=
  (pairwise_append.mp geo.apart).2.2 _ (mem_map_of_mem h) _ (mem_map_of_mem h')

/-- blocks of one chunk are the same or apart -/
theorem Chunk.blocks_apart (chunk : Chunk) (i j : Nat) :
    i = j ∨ Apart (chunk.base + i * chunk.blockSize, chunk.blockSize)
      (chunk.base + j * chunk.blockSize, chunk.blockSize) := by
  rcases Nat.lt_trichotomy i j with hlt | heq | hlt
  · right
    have := Nat.mul_le_mul_right chunk.blockSize (show i + 1 ≤ j from hlt)
    rw [Nat.succ_mul] at this
    left
    omega
  · exact .inl heq
  · right
    have := Nat.mul_le_mul_right chunk.blockSize (show j + 1 ≤ i from hlt)
    rw [Nat.succ_mul] at this
    right
    show _ + chunk.blockSize ≤ _
    omega

theorem owned_apart (geo : Geometry s) {r r' : Region} (h : Owned s r) (h' : Owned s r') : r = r' ∨ Apart r r' := by
  rcases h with ⟨_, _, ⟨chunk, hchunk, i, hi, rfl, rfl⟩, rfl⟩ | ⟨entry, hlarge, rfl⟩
  · have hok := geo.chunkOk chunk hchunk
    have hend := hok.block_end hi
    rw [← hok.size]
    rcases h' with ⟨_, _, ⟨chunk', hchunk', j, hj, rfl, rfl⟩, rfl⟩ | ⟨entry', hlarge', rfl⟩
    · have hok' := geo.chunkOk chunk' hchunk'
      have hend' := hok'.block_end hj
      rw [← hok'.size]
      rcases geo.chunks_apart hchunk hchunk' with rfl | hapart
      · rcases chunk.blocks_apart i j with rfl | hblocks
        · exact .inl rfl
        · exact .inr hblocks
      · right
        refine (hapart.part ?_ ?_).symm.part ?_ ?_ |>.symm <;> simp only [Chunk.region] <;> omega
    · right
      refine (geo.chunk_large_apart hchunk hlarge').part ?_ ?_ <;> simp only [Chunk.region] <;> omega
  · rcases h' with ⟨_, _, ⟨chunk', hchunk', j, hj, rfl, rfl⟩, rfl⟩ | ⟨entry', hlarge', rfl⟩
    · have hok' := geo.chunkOk chunk' hchunk'
      have hend' := hok'.block_end hj
      rw [← hok'.size]
      right
      refine ((geo.chunk_large_apart hchunk' hlarge).part ?_ ?_).symm <;> simp only [Chunk.region] <;> omega
    · rcases geo.large_apart hlarge hlarge' with rfl | hapart
      · exact .inl rfl
      · exact .inr hapart

/-- an owned region has its header and lies in the address space -/
theorem Owned.space (geo : Geometry s) {r : Region} (h : Owned s r) : 0 < r.1 ∧ headerSize ≤ r.2 ∧ r.1 + r.2 ≤ 2 ^ 64 := by
  rcases h with ⟨_, _, ⟨chunk, hchunk, i, hi, rfl, rfl⟩, rfl⟩ | ⟨entry, hlarge, rfl⟩
  · have hok := geo.chunkOk chunk hchunk
    have hend := hok.block_end hi
    have hpos := hok.pos
    have hspace := hok.space
    have hsize := hok.size_pos
    rw [← hok.size]
    simp only [headerSize, smallestBlock] at *
    omega
  · obtain ⟨-, hpos, hspace⟩ := geo.largeOk _ hlarge
    simp only [LargeAlloc.region]
    omega

variable {start : Nat}

theorem Owned.apart (geo : Geometry s) {start' n' : Nat} (h : Owned s (start, n)) (h' : Owned s (start', n'))
    (hne : start ≠ start') : Apart (start, n) (start', n') := by
  rcases owned_apart geo h h' with heq | hapart
  · exact absurd (Prod.mk.inj heq).1 hne
  · exact hapart

/-- regions that start at one address are the same -/
theorem Owned.same_start (geo : Geometry s) {n' : Nat} (h : Owned s (start, n)) (h' : Owned s (start, n')) :
    n = n' := by
  rcases owned_apart geo h h' with heq | hapart
  · exact (Prod.mk.inj heq).2
  · have hn := (h.space geo).2.1
    have hn' := (h'.space geo).2.1
    simp only [Apart, headerSize] at *
    omega

theorem grid_cls_unique (geo : Geometry s) {cls' : Nat} (h : Grid s block cls) (h' : Grid s block cls') : cls = cls' := by
  have hsize := h.owned.same_start geo h'.owned
  rw [blockSize_eq, blockSize_eq] at hsize
  have := Nat.pow_right_injective (Nat.le_refl 2) hsize
  omega

theorem grid_or_large (geo : Geometry s) (hgrid : Grid s block cls) (h : entry ∈ s.large) :
    block ≠ entry.2.base := by
  obtain ⟨chunk, hchunk, i, hi, rfl, rfl⟩ := hgrid
  have hok := geo.chunkOk chunk hchunk
  have hend := hok.block_end hi
  have hsize := hok.size_pos
  have hapart := geo.chunk_large_apart hchunk h
  simp only [Apart, Chunk.region, LargeAlloc.region, headerSize, smallestBlock] at *
  omega

/-! ### `arena_lookup_block` -/

/-- the last entry of a sorted table that is not above an address -/
theorem takeWhile_last {table : List (Nat × Nat)} (hsorted : table.Pairwise fun entry entry' => entry.1 < entry'.1)
    (addr : Nat) {entry : Nat × Nat} (hmem : entry ∈ table) (hle : entry.1 ≤ addr)
    (hlast : ∀ entry' ∈ table, entry'.1 ≤ addr → entry'.1 ≤ entry.1) :
    (table.takeWhile fun entry => entry.1 ≤ addr).length ≠ 0 ∧
      table[(table.takeWhile fun entry => entry.1 ≤ addr).length - 1]? = some entry := by
  obtain ⟨before, after, rfl⟩ := append_of_mem hmem
  obtain ⟨-, hafter, hbefore⟩ := pairwise_append.mp hsorted
  have hbelow : ∀ e ∈ before, decide (e.1 ≤ addr) = true := fun e he =>
    decide_eq_true (Nat.le_of_lt (Nat.lt_of_lt_of_le (hbefore e he entry mem_cons_self) hle))
  have habove : after.takeWhile (fun entry => entry.1 ≤ addr) = [] := by
    cases after with
    | nil => rfl
    | cons e after =>
      have hgt := (pairwise_cons.mp hafter).1 e mem_cons_self
      refine takeWhile_cons_of_neg fun h => ?_
      have := hlast e (by simp) (of_decide_eq_true h)
      omega
  have htake : (before ++ entry :: after).takeWhile (fun entry => entry.1 ≤ addr) = before ++ [entry] := by
    rw [takeWhile_append_of_pos hbelow]
    simp [hle, habove]
  rw [htake, length_append, length_singleton]
  exact ⟨by omega, by simp⟩

/-- the masks of the source are the remainder and the quotient -/
theorem Chunk.Ok.offset (h : chunk.Ok) (off : Nat) :
    off &&& chunk.blockSize - 1 = off % chunk.blockSize ∧ off >>> chunk.blockSize.log2 = off / chunk.blockSize := by
  rw [h.size, blockSize_eq, Nat.and_two_pow_sub_one_eq_mod, Nat.log2_two_pow, Nat.shiftRight_eq_div_pow]
  exact ⟨rfl, rfl⟩

theorem lookupBlock_of_grid (geo : Geometry s) (hgrid : Grid s block cls) :
    s.lookupBlock (block + headerSize) = some (block, cls) := by
  obtain ⟨chunk, hchunk, i, hi, rfl, rfl⟩ := hgrid
  have hok := geo.chunkOk chunk hchunk
  have hend := hok.block_end hi
  have hsize := hok.size_pos
  obtain ⟨ci, hci⟩ := mem_iff_getElem?.mp hchunk
  have hmem : (chunk.base, ci) ∈ s.chunkMap := (geo.mapped _ _).mpr ⟨chunk, hci, rfl⟩
  obtain ⟨hne, hentry⟩ := takeWhile_last geo.sorted (chunk.base + i * chunk.blockSize + headerSize) hmem
    (show chunk.base ≤ _ by omega) fun entry' hentry' hle => by
      obtain ⟨chunk', hci', hbase'⟩ := (geo.mapped entry'.1 entry'.2).mp hentry'
      rcases geo.chunks_apart hchunk (mem_of_getElem? hci') with rfl | hapart
      · exact Nat.le_of_eq hbase'.symm
      · simp only [Apart, Chunk.region, headerSize, smallestBlock] at *
        omega
  have hoff : chunk.base + i * chunk.blockSize + headerSize - chunk.base - headerSize = i * chunk.blockSize := by omega
  have hpos : 0 < chunk.blockSize := by
    unfold smallestBlock at hsize
    omega
  have hrange : ¬ (chunk.base + i * chunk.blockSize + headerSize < chunk.base + headerSize ∨
      chunk.base + chunkSize ≤ chunk.base + i * chunk.blockSize + headerSize) := by
    unfold headerSize smallestBlock at *
    omega
  obtain ⟨hand, hshift⟩ := hok.offset (i * chunk.blockSize)
  rw [Arena.lookupBlock]
  simp only [hne, if_false, hentry, Option.bind_eq_bind, Option.bind_some, hrange, hci, hoff, hand, hshift,
    Nat.mul_mod_left, ne_eq, not_true_eq_false, Nat.mul_div_cancel _ hpos, Nat.not_le.mpr hi]

theorem grid_of_lookupBlock (geo : Geometry s) {addr : Nat} (h : s.lookupBlock addr = some (block, cls)) :
    Grid s block cls ∧ addr = block + headerSize := by
  rw [Arena.lookupBlock] at h
  split_ifs at h with hzero
  obtain ⟨⟨cbase, ci⟩, hentry, h⟩ := Option.bind_eq_some_iff.mp h
  simp only at h
  split_ifs at h with hrange
  obtain ⟨chunk, hci, h⟩ := Option.bind_eq_some_iff.mp h
  obtain ⟨chunk', hci', rfl⟩ := (geo.mapped cbase ci).mp (mem_of_getElem? hentry)
  obtain rfl : chunk = chunk' := Option.mem_unique hci hci'
  have hchunk := mem_of_getElem? hci
  have hok := geo.chunkOk chunk hchunk
  obtain ⟨hand, hshift⟩ := hok.offset (addr - chunk.base - headerSize)
  simp only [hand, hshift] at h
  split_ifs at h with hmod hbump
  obtain ⟨rfl, rfl⟩ := Prod.mk.inj (Option.some.inj h)
  refine ⟨⟨chunk, hchunk, _, Nat.lt_of_not_le hbump, rfl, rfl⟩, ?_⟩
  have hdiv := Nat.div_add_mod (addr - chunk.base - headerSize) chunk.blockSize
  rw [Nat.mul_comm] at hdiv
  omega

end Subscript.Runtime
