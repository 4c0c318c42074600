import Subscript.Runtime.ArenaMark

/-! The sweep: the blocks that are not marked leave the heap, the others are unmarked. Together with the mark phase, a
collection keeps just the blocks that are reached. -/

namespace Subscript.Runtime

open List Memory

variable {s t : Arena} {heap : Heap} {K S : Set Nat} {b cls cap : Nat}

/-- one round of the sweep, with the tables kept up to date -/
def sweepStep (s : Arena) (entry : Nat × Nat) : Arena :=
  if s.mem entry.1 = markState then { s with mem := write s.mem entry.1 liveState }
  else if s.mem entry.1 = liveState then s.retire entry.1 entry.2
  else s

/-- the tables that belong to the accumulators of the loop over a chunk -/
def sweepState (s : Arena) (cls : Nat) (acc : Words × Nat × Nat) : Arena :=
  { s with
    mem := acc.1
    freeHeads := Function.update s.freeHeads cls acc.2.1
    liveBytesCounter := s.liveBytesCounter - acc.2.2 }

theorem sweepState_step {chunk : Chunk} (hok : chunk.Ok) (acc : Words × Nat × Nat) (i : Nat) :
    sweepStep (sweepState s chunk.cls acc) (chunk.base + i * chunk.blockSize, chunk.cls) =
      sweepState s chunk.cls (Arena.sweepBlock chunk acc i) := by
  obtain ⟨mem, head, retired⟩ := acc
  have hmem : (sweepState s chunk.cls (mem, head, retired)).mem = mem := rfl
  rw [sweepStep, Arena.sweepBlock, hmem]
  split_ifs
  · rfl
  · have hhead : (sweepState s chunk.cls (mem, head, retired)).freeHeads chunk.cls = head := Function.update_self ..
    rw [Arena.retire, hhead, hok.size]
    simp only [sweepState, Function.update_idem, Nat.sub_sub]
  · rfl

/-- the blocks of a chunk below its watermark -/
def chunkBlocks (chunk : Chunk) : List (Nat × Nat) :=
  (List.range chunk.bump).map fun i => (chunk.base + i * chunk.blockSize, chunk.cls)

theorem sweepState_fold {chunk : Chunk} (hok : chunk.Ok) (is : List Nat) (acc : Words × Nat × Nat) :
    is.foldl (fun s i => sweepStep s (chunk.base + i * chunk.blockSize, chunk.cls)) (sweepState s chunk.cls acc) =
      sweepState s chunk.cls (is.foldl (Arena.sweepBlock chunk) acc) := by
  induction is generalizing acc with
  | nil => rfl
  | cons i is ih => rw [foldl_cons, foldl_cons, sweepState_step hok, ih]

theorem sweepChunk_eq {chunk : Chunk} (hok : chunk.Ok) : s.sweepChunk chunk = (chunkBlocks chunk).foldl sweepStep s := by
  have hstart : sweepState s chunk.cls (s.mem, s.freeHeads chunk.cls, 0) = s := by
    simp only [sweepState, Function.update_eq_self, Nat.sub_zero]
  have hfold := sweepState_fold (s := s) hok (List.range chunk.bump) (s.mem, s.freeHeads chunk.cls, 0)
  rw [hstart] at hfold
  rw [chunkBlocks, foldl_map, hfold]
  rfl

/-- the payloads of `S` are swept: those that are not in `K` have left the heap, the others are not marked any more -/
structure Sweeping (s : Arena) (heap : Heap) (K : Set Nat) (t : Arena) (S : Set Nat) : Prop where
  chunks : t.chunks = s.chunks
  large : t.large = s.large
  inv : Inv t (heap.without (S \ K)) (K \ S)

theorem Sweeping.step (h : Sweeping s heap K t S) (hK : ∀ p ∈ K, ∃ cap, (p, cap) ∈ heap) (hgrid : Grid s b cls)
    (hnew : b + headerSize ∉ S) : Sweeping s heap K (sweepStep t (b, cls)) (insert (b + headerSize) S) := by
  have hgrid' : Grid t b cls := by
    obtain ⟨chunk, hchunk, hblock⟩ := hgrid
    exact ⟨chunk, h.chunks ▸ hchunk, hblock⟩
  have hstay : ∀ {cap}, (b + headerSize, cap) ∈ heap → (b + headerSize, cap) ∈ heap.without (S \ K) := fun hmem =>
    Heap.mem_without.mpr ⟨hmem, fun hin => hnew hin.1⟩
  by_cases hkeep : b + headerSize ∈ K
  · -- a marked block
    obtain ⟨cap, hmem⟩ := hK _ hkeep
    have hmark := h.inv.marked b cap (hstay hmem) ⟨hkeep, hnew⟩
    have hset : insert (b + headerSize) S \ K = S \ K := Set.insert_sdiff_of_mem _ hkeep
    rw [sweepStep, if_pos hmark]
    refine ⟨h.chunks, h.large, ?_⟩
    rw [hset]
    refine h.inv.stamp (hstay hmem) (.inr ⟨fun hin => hin.2 (Set.mem_insert ..), rfl⟩) fun p hp => ?_
    exact and_congr_right fun _ => not_congr (or_iff_right hp)
  · have hset : insert (b + headerSize) S \ K = insert (b + headerSize) (S \ K) := Set.insert_sdiff_of_notMem _ hkeep
    have hmarks : K \ insert (b + headerSize) S = K \ S := by
      ext p
      refine and_congr_right fun hp => not_congr (or_iff_right ?_)
      rintro rfl
      exact hkeep hp
    have hheap : heap.without (insert (b + headerSize) S \ K) = (heap.without (S \ K)).remove (b + headerSize) := by
      rw [hset, Heap.without_insert]
    by_cases hin : ∃ cap, (b + headerSize, cap) ∈ heap
    · -- a live block that was not reached
      obtain ⟨cap, hmem⟩ := hin
      have hlive := h.inv.unmarked b cap (hstay hmem) fun hin => hkeep hin.1
      rw [sweepStep, if_neg (by rw [hlive]; exact markState_ne_liveState.symm), if_pos hlive]
      refine ⟨h.chunks, h.large, ?_⟩
      rw [hheap, hmarks]
      exact h.inv.retire hgrid' (hstay hmem)
    · have habsent : ∀ cap, (b + headerSize, cap) ∉ heap.without (S \ K) := fun cap hmem =>
        hin ⟨cap, (Heap.mem_without.mp hmem).1⟩
      have hdead := h.inv.dead b cls hgrid' habsent
      rw [sweepStep, if_neg (by rw [hdead]; exact markState_ne_deadState.symm),
        if_neg (by rw [hdead]; exact liveState_ne_deadState.symm)]
      refine ⟨h.chunks, h.large, ?_⟩
      rw [hheap, hmarks, Heap.remove_absent habsent]
      exact h.inv

theorem Sweeping.blocks (hK : ∀ p ∈ K, ∃ cap, (p, cap) ∈ heap) (blocks : List (Nat × Nat)) :
    ∀ t S, Sweeping s heap K t S → (∀ entry ∈ blocks, Grid s entry.1 entry.2 ∧ entry.1 + headerSize ∉ S) →
      (blocks.map Prod.fst).Nodup →
      Sweeping s heap K (blocks.foldl sweepStep t) (S ∪ {p | ∃ entry ∈ blocks, p = entry.1 + headerSize}) := by
  induction blocks with
  | nil =>
    intro t S h _ _
    have hset : S ∪ {p | ∃ entry ∈ ([] : List (Nat × Nat)), p = entry.1 + headerSize} = S := by simp
    rw [hset]
    exact h
  | cons entry blocks ih =>
    intro t S h hblocks hnodup
    obtain ⟨hfresh, hnodup⟩ := nodup_cons.mp hnodup
    obtain ⟨hgrid, hnew⟩ := hblocks entry mem_cons_self
    have := ih _ _ (h.step hK hgrid hnew) (fun entry' hentry' => ?_) hnodup
    · have hset : insert (entry.1 + headerSize) S ∪ {p | ∃ entry ∈ blocks, p = entry.1 + headerSize} =
          S ∪ {p | ∃ entry' ∈ entry :: blocks, p = entry'.1 + headerSize} := by
        ext p
        simp only [Set.mem_union, Set.mem_insert_iff, Set.mem_ofPred_eq, mem_cons, exists_eq_or_imp]
        tauto
      rw [hset] at this
      exact this
    · obtain ⟨hgrid', hnew'⟩ := hblocks entry' (mem_cons_of_mem _ hentry')
      refine ⟨hgrid', ?_⟩
      rintro (heq | hin)
      · have hsame : entry'.1 = entry.1 := by omega
        exact hfresh (hsame ▸ mem_map_of_mem hentry')
      · exact hnew' hin

/-- all blocks below the watermarks, chunk by chunk -/
def gridBlocks (s : Arena) : List (Nat × Nat) := s.chunks.flatMap chunkBlocks

theorem mem_gridBlocks : (b, cls) ∈ gridBlocks s ↔ Grid s b cls := by
  simp only [gridBlocks, chunkBlocks, mem_flatMap, mem_map, mem_range, Grid, Prod.mk.injEq, eq_comm]

theorem gridBlocks_nodup (geo : Geometry s) : ((gridBlocks s).map Prod.fst).Nodup := by
  have hchunks : s.chunks.Pairwise fun chunk chunk' => Apart chunk.region chunk'.region :=
    pairwise_map.mp (pairwise_append.mp geo.apart).1
  rw [gridBlocks, map_flatMap, nodup_flatMap]
  constructor
  · intro chunk hchunk
    have hpos := (geo.chunkOk chunk hchunk).size_pos
    rw [chunkBlocks, map_map]
    refine List.Nodup.map ?_ nodup_range
    intro i j heq
    exact Nat.eq_of_mul_eq_mul_right (by unfold smallestBlock at hpos; omega) (Nat.add_left_cancel heq)
  · refine hchunks.imp_of_mem fun {chunk chunk'} hchunk hchunk' hapart => disjoint_left.mpr fun b hb hb' => ?_
    have hwithin : ∀ {chunk : Chunk}, chunk ∈ s.chunks → b ∈ (chunkBlocks chunk).map Prod.fst → Within b chunk.region := by
      intro chunk hchunk hb
      obtain ⟨entry, hentry, rfl⟩ := mem_map.mp hb
      obtain ⟨i, hi, rfl⟩ := mem_map.mp hentry
      have hok := geo.chunkOk chunk hchunk
      have hend := hok.block_end (mem_range.mp hi)
      have hpos := hok.size_pos
      simp only [Within, Chunk.region, smallestBlock] at *
      omega
    exact hapart.not_within (hwithin hchunk hb) (hwithin hchunk' hb')

theorem sweepChunks_eq (geo : Geometry s) : s.chunks.foldl Arena.sweepChunk s = (gridBlocks s).foldl sweepStep s := by
  have hfold : ∀ (chunks : List Chunk) (t : Arena), (∀ chunk ∈ chunks, chunk.Ok) →
      chunks.foldl Arena.sweepChunk t = (chunks.flatMap chunkBlocks).foldl sweepStep t := by
    intro chunks
    induction chunks with
    | nil => exact fun _ _ => rfl
    | cons chunk chunks ih =>
      intro t hok
      rw [foldl_cons, flatMap_cons, foldl_append, sweepChunk_eq (hok chunk mem_cons_self)]
      exact ih _ fun chunk' hchunk' => hok chunk' (mem_cons_of_mem _ hchunk')
  exact hfold s.chunks s geo.chunkOk

/-! ### Large records -/

/-- the keys of the records -/
def largeKeys (s : Arena) : List Nat := s.large.map Prod.fst

theorem largeKeys_nodup (geo : Geometry s) : (largeKeys s).Nodup := by
  refine pairwise_map.mpr ?_
  have hapart : s.large.Pairwise fun entry entry' => Apart entry.2.region entry'.2.region :=
    pairwise_map.mp (pairwise_append.mp geo.apart).2.1
  refine hapart.imp_of_mem fun {entry entry'} h h' hr heq => ?_
  have hkey := (geo.largeOk entry h).key
  have hkey' := (geo.largeOk entry' h').key
  simp only [Apart, LargeAlloc.region, headerSize] at *
  omega

/-- the first loop over the records: marks are taken off, and the records without one are listed -/
theorem unmarkLarge_fold (entries : List (Nat × LargeAlloc)) :
    ∀ (mem : Words) (freed : List Nat) (M : Set Nat), Inv { s with mem } heap M → (∀ entry ∈ entries, entry ∈ s.large) →
      (entries.map Prod.fst).Nodup →
      ∃ mem' freed', entries.foldl Arena.unmarkLarge (mem, freed) = (mem', freed') ∧
        Inv { s with mem := mem' } heap (M \ {p | p ∈ entries.map Prod.fst}) ∧
        ∀ p, p ∈ freed' ↔ p ∈ freed ∨ p ∈ entries.map Prod.fst ∧ p ∉ M := by
  induction entries with
  | nil =>
    intro mem freed M inv _ _
    refine ⟨mem, freed, rfl, ?_, fun p => by simp⟩
    have hset : M \ {p | p ∈ ([] : List (Nat × LargeAlloc)).map Prod.fst} = M := by simp
    rw [hset]
    exact inv
  | cons entry entries ih =>
    intro mem freed M inv hlarge hnodup
    obtain ⟨hfresh, hnodup⟩ := nodup_cons.mp hnodup
    have hentry := hlarge entry mem_cons_self
    have hkey := (inv.geo.largeOk entry hentry).key
    have hmem := inv.large entry hentry
    have hrest : ∀ entry' ∈ entries, entry' ∈ s.large := fun entry' h => hlarge entry' (mem_cons_of_mem _ h)
    rw [hkey] at hmem hfresh
    rw [map_cons, hkey, foldl_cons]
    by_cases hmark : entry.2.base + headerSize ∈ M
    · have hword : mem entry.2.base = markState := inv.marked _ _ hmem hmark
      have hrest' : ∀ p, p ≠ entry.2.base + headerSize → (p ∈ M \ {entry.2.base + headerSize} ↔ p ∈ M) := fun p hp => by
        exact and_iff_left hp
      have hstamp := inv.stamp hmem (.inr ⟨fun h => h.2 rfl, rfl⟩) hrest'
      obtain ⟨mem', freed', heq, inv', hfreed⟩ := ih _ freed _ hstamp hrest hnodup
      refine ⟨mem', freed', ?_, ?_, fun p => ?_⟩
      · rw [Arena.unmarkLarge, if_pos hword]
        exact heq
      · have hset : (M \ {entry.2.base + headerSize}) \ {p | p ∈ entries.map Prod.fst} =
            M \ {p | p ∈ (entry.2.base + headerSize) :: entries.map Prod.fst} := by
          ext p
          simp only [Set.mem_sdiff, Set.mem_singleton_iff, Set.mem_ofPred_eq, mem_cons, not_or, and_assoc]
        rw [← hset]
        exact inv'
      · rw [hfreed, mem_cons]
        refine or_congr_right ⟨fun ⟨hin, hout⟩ => ⟨.inr hin, fun hM => hout ⟨hM, ?_⟩⟩, fun ⟨hin, hout⟩ => ?_⟩
        · rintro rfl
          exact hfresh hin
        · rcases hin with rfl | hin
          · exact absurd hmark hout
          · exact ⟨hin, fun hM => hout hM.1⟩
    · have hword : mem entry.2.base ≠ markState := by
        have : mem entry.2.base = liveState := inv.unmarked _ _ hmem hmark
        rw [this]
        exact markState_ne_liveState.symm
      obtain ⟨mem', freed', heq, inv', hfreed⟩ := ih mem (freed ++ [entry.1]) M inv hrest hnodup
      refine ⟨mem', freed', ?_, ?_, fun p => ?_⟩
      · rw [Arena.unmarkLarge, if_neg hword]
        exact heq
      · have hset : M \ {p | p ∈ entries.map Prod.fst} =
            M \ {p | p ∈ (entry.2.base + headerSize) :: entries.map Prod.fst} := by
          ext p
          simp only [Set.mem_sdiff, Set.mem_ofPred_eq, mem_cons, not_or]
          refine and_congr_right fun hM => ⟨fun h => ⟨?_, h⟩, And.right⟩
          rintro rfl
          exact hmark hM
        rw [← hset]
        exact inv'
      · rw [hfreed, mem_append, mem_singleton, hkey, mem_cons, or_assoc]
        refine or_congr_right ⟨?_, ?_⟩
        · rintro (rfl | ⟨hin, hout⟩)
          · exact ⟨.inl rfl, hmark⟩
          · exact ⟨.inr hin, hout⟩
        · rintro ⟨rfl | hin, hout⟩
          · exact .inl rfl
          · exact .inr ⟨hin, hout⟩

/-- the second loop: the listed records are dropped -/
theorem dropLarge_fold {M : Set Nat} (freed : List Nat) :
    ∀ (t : Arena) (heap : Heap), Inv t heap M → (∀ p ∈ freed, ∀ cap, (p, cap) ∈ heap → ∃ a, (p, a) ∈ t.large) →
      Inv (freed.foldl Arena.dropLarge t) (freed.foldl Heap.remove heap) M := by
  induction freed with
  | nil => exact fun _ _ inv _ => inv
  | cons p freed ih =>
    intro t heap inv hlarge
    refine ih _ _ ?_ fun q hq cap hmem => ?_
    · unfold Arena.dropLarge
      cases hlookup : t.large.lookup p with
      | some a => exact inv.dropped (lookup_eq_some hlookup)
      | none =>
        have habsent : ∀ cap, (p, cap) ∉ heap := fun cap hmem => by
          obtain ⟨a, ha⟩ := hlarge p mem_cons_self cap hmem
          exact absurd (hlookup.symm.trans (lookup_large inv.geo ha).2) nofun
        rw [Heap.remove_absent habsent]
        exact inv
    · obtain ⟨hmem, hne⟩ := Heap.mem_remove.mp hmem
      obtain ⟨a, ha⟩ := hlarge q (mem_cons_of_mem _ hq) cap hmem
      refine ⟨a, ?_⟩
      unfold Arena.dropLarge
      cases t.large.lookup p with
      | some _ => exact mem_filter.mpr ⟨ha, decide_eq_true hne⟩
      | none => exact ha

theorem foldl_remove (freed : List Nat) (heap : Heap) : freed.foldl Heap.remove heap = heap.without {p | p ∈ freed} := by
  induction freed generalizing heap with
  | nil => exact (Heap.without_eq_self fun e _ => by simp).symm
  | cons p freed ih =>
    rw [foldl_cons, ih]
    have hset : {q | q ∈ p :: freed} = insert p {q | q ∈ freed} := by
      ext q
      simp
    rw [hset, Heap.without_insert, Heap.without, Heap.remove, Heap.remove, Heap.without, filter_comm]

/-! ### `collect` -/

/-- the heap keeps what is reached from the roots -/
noncomputable def Heap.collect (s : Arena) (heap : Heap) (roots : List Nat) : Heap :=
  heap.without {p | ¬ Reached s heap roots p}

/-- the sweep of an arena whose marked blocks are `K` -/
theorem Inv.arenaSweep (inv : Inv s heap K) (hK : ∀ p ∈ K, ∃ cap, (p, cap) ∈ heap) :
    Inv s.arenaSweep (heap.without Kᶜ) ∅ := by
  have hstart : Sweeping s heap K s ∅ := by
    refine ⟨rfl, rfl, ?_⟩
    rw [Set.sdiff_empty, Heap.without_eq_self fun e _ h => h.1.elim]
    exact inv
  have hblocks := Sweeping.blocks hK (gridBlocks s) s ∅ hstart
    (fun entry hentry => ⟨mem_gridBlocks.mp hentry, fun h => h.elim⟩) (gridBlocks_nodup inv.geo)
  rw [Set.empty_union] at hblocks
  set G : Set Nat := {p | ∃ entry ∈ gridBlocks s, p = entry.1 + headerSize} with hG
  rw [Arena.arenaSweep, sweepChunks_eq inv.geo]
  set t := (gridBlocks s).foldl sweepStep s
  have hlarge := hblocks.large
  have inv₁ : Inv { t with mem := t.mem } (heap.without (G \ K)) (K \ G) := hblocks.inv
  obtain ⟨mem, freed, heq, inv₂, hfreed⟩ := unmarkLarge_fold t.large t.mem [] (K \ G) inv₁ (fun _ h => h)
    (largeKeys_nodup hblocks.inv.geo)
  -- a payload of the heap is one of the grid or of the records, and not of both
  have hcases : ∀ e ∈ heap, (e.1 ∈ G ∧ e.1 ∉ t.large.map Prod.fst) ∨ (e.1 ∉ G ∧ e.1 ∈ t.large.map Prod.fst) := by
    rintro ⟨p, cap⟩ hmem
    obtain ⟨b, rfl⟩ := inv.base_of_mem hmem
    rw [hlarge]
    cases inv.found hmem with
    | block hgrid hlookup _ =>
      refine .inl ⟨⟨_, mem_gridBlocks.mpr hgrid, rfl⟩, fun hin => ?_⟩
      obtain ⟨entry, hentry, hkey⟩ := mem_map.mp hin
      have hok := (inv.geo.largeOk entry hentry).key
      exact grid_or_large inv.geo hgrid hentry (by simp only at hkey; omega)
    | large hentry hbase _ _ _ =>
      refine .inr ⟨?_, mem_map.mpr ⟨_, hentry, rfl⟩⟩
      rintro ⟨entry, hin, heq⟩
      have hgrid : Grid s entry.1 entry.2 := mem_gridBlocks.mp hin
      exact grid_or_large inv.geo hgrid hentry (by simp only at heq ⊢; omega)
  have hmarks : (K \ G) \ {p | p ∈ t.large.map Prod.fst} = ∅ := by
    refine Set.eq_empty_of_forall_notMem fun p ⟨⟨hp, hout⟩, hout'⟩ => ?_
    obtain ⟨cap, hmem⟩ := hK p hp
    rcases hcases _ hmem with ⟨hin, -⟩ | ⟨-, hin⟩
    · exact hout hin
    · exact hout' hin
  rw [hmarks] at inv₂
  have hsweep : t.sweepLarge = freed.foldl Arena.dropLarge { t with mem } := by
    rw [Arena.sweepLarge, heq]
  have inv₃ := dropLarge_fold freed { t with mem } _ inv₂ fun p hp cap hmem => by
    rcases (hfreed p).mp hp with hnil | ⟨hin, -⟩
    · cases hnil
    · obtain ⟨entry, hentry, rfl⟩ := mem_map.mp hin
      exact ⟨entry.2, hentry⟩
  rw [hsweep]
  rw [foldl_remove, Heap.without_without] at inv₃
  have hheap : heap.without (G \ K ∪ {p | p ∈ freed}) = heap.without Kᶜ := by
    refine Heap.without_congr fun e he => ?_
    show (e.1 ∈ G ∧ e.1 ∉ K) ∨ e.1 ∈ freed ↔ e.1 ∉ K
    rw [hfreed, Set.mem_sdiff]
    rcases hcases e he with ⟨hin, hout⟩ | ⟨hout, hin⟩ <;> simp only [hin, hout] <;> simp
  rw [← hheap]
  exact inv₃

theorem Inv.collect (inv : Inv s heap ∅) (roots : List Nat) : Inv (s.collect roots) (heap.collect s roots) ∅ := by
  have hreached : ∀ p, Reached s heap roots p → ∃ cap, (p, cap) ∈ heap := by
    intro p hp
    cases hp with
    | root _ h => exact ⟨_, h⟩
    | scan _ _ _ h => exact ⟨_, h⟩
  unfold Arena.collect
  split_ifs with hempty
  · -- there is no block at all
    obtain ⟨hchunks, hlarge⟩ := Bool.and_eq_true_iff.mp hempty
    rw [List.isEmpty_iff] at hchunks hlarge
    have hnone : heap = [] := by
      refine eq_nil_iff_forall_not_mem.mpr fun ⟨p, cap⟩ hmem => ?_
      obtain ⟨b, rfl⟩ := inv.base_of_mem hmem
      cases inv.found hmem with
      | block hgrid _ _ =>
        obtain ⟨chunk, hchunk, -⟩ := hgrid
        rw [hchunks] at hchunk
        cases hchunk
      | large hentry _ _ _ _ =>
        rw [hlarge] at hentry
        cases hentry
    subst hnone
    exact inv
  · have hmark := inv.marked_reached roots
    have hset : {p | ¬ Reached s heap roots p} = {p | Reached s heap roots p}ᶜ := rfl
    exact hmark.inv.arenaSweep hreached

end Subscript.Runtime
