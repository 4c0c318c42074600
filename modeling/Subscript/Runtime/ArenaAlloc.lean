import Subscript.Runtime.ArenaInv

/-! Allocation keeps the invariant: a block comes from the free list, from the open chunk, from a new chunk or from the
system, and in each case it is apart from every block of the heap. -/

namespace Subscript.Runtime

open List Memory

variable {s : Arena} {heap : Heap} {b cls cap : Nat}

/-- what the system's allocator promises: memory that the arena does not have -/
structure Fresh (s : Arena) (base size : Nat) : Prop where
  pos : 0 < base
  space : base + size ≤ 2 ^ 64
  apart : ∀ r ∈ s.chunks.map Chunk.region ++ s.large.map fun entry => entry.2.region, Apart (base, size) r

variable {s' : Arena}

/-- a block of the new arena joins the heap -/
theorem Inv.armed (inv : Inv s heap ∅) (geo : Geometry s') (howned : ∀ r, Owned s r → Owned s' r)
    (hgrid : ∀ b' cls', Grid s' b' cls' → Grid s b' cls' ∨ b' = b)
    (hlarge : ∀ entry ∈ s'.large, entry ∈ s.large ∨ entry.1 = b + headerSize ∧ entry.2.payloadSize = cap)
    (hnew : Owned s' (b, headerSize + cap)) (hfresh : ∀ cap', (b + headerSize, cap') ∉ heap)
    (hagree : Agree (b, headerSize + cap) s.mem s'.mem) (hlive : s'.mem b = liveState)
    (hclass : isContainer (headerClassId s'.mem b) = true → 104 ≤ cap)
    (hfree : ∀ cls' < numClasses, ∃ l, FreeList s' cls' l)
    (hbytes : s'.liveBytesCounter = saturatingAdd s.liveBytesCounter cap) :
    Inv s' ((b + headerSize, cap) :: heap) ∅ := by
  have hne : ∀ {b' cap'}, (b' + headerSize, cap') ∈ heap → b' ≠ b := by
    rintro b' cap' h rfl
    exact hfresh cap' h
  have hword : ∀ {b' n}, Owned s (b', n) → b' ≠ b → s'.mem b' = s.mem b' ∧ s'.mem (b' + 8) = s.mem (b' + 8) := by
    intro b' n hb' hne'
    have hb' := howned _ hb'
    obtain ⟨hw, hw'⟩ := hb'.header geo
    have hapart := (hb'.apart geo hnew hne')
    exact ⟨hagree _ (hapart.not_within hw), hagree _ (hapart.not_within hw')⟩
  have hcases : ∀ {b' cap'}, (b' + headerSize, cap') ∈ (b + headerSize, cap) :: heap →
      b' = b ∧ cap' = cap ∨ (b' + headerSize, cap') ∈ heap := by
    intro b' cap' h
    rcases mem_cons.mp h with heq | h
    · obtain ⟨h₁, h₂⟩ := Prod.mk.inj heq
      exact .inl ⟨by omega, h₂⟩
    · exact .inr h
  have hkeys : (((b + headerSize, cap) :: heap).map Prod.fst).Nodup := by
    refine nodup_cons.mpr ⟨fun h => ?_, inv.nodup⟩
    obtain ⟨⟨p, cap'⟩, he, heq⟩ := mem_map.mp h
    simp only at heq
    exact hfresh cap' (heq ▸ he)
  have habove : ∀ e ∈ (b + headerSize, cap) :: heap, headerSize ≤ e.1 := by
    intro e he
    rcases mem_cons.mp he with rfl | he
    · exact Nat.le_add_left ..
    · exact inv.above e he
  have hregions : ∀ b' cap', (b' + headerSize, cap') ∈ (b + headerSize, cap) :: heap →
      Owned s' (b', headerSize + cap') := by
    intro b' cap' h
    rcases hcases h with ⟨rfl, rfl⟩ | h
    · exact hnew
    · exact howned _ (inv.owned b' cap' h)
  exact
    { geo := geo
      owned := hregions
      above := habove
      large := fun entry hentry => by
        rcases hlarge entry hentry with hold | ⟨hkey, hsize⟩
        · exact mem_cons_of_mem _ (inv.large entry hold)
        · rw [hkey, hsize]
          exact mem_cons_self
      nodup := hkeys
      marked := fun _ _ _ hM => hM.elim
      unmarked := fun b' cap' h hM => by
        rcases hcases h with ⟨rfl, rfl⟩ | h
        · exact hlive
        · rw [(hword (inv.owned b' cap' h) (hne h)).1]
          exact inv.unmarked b' cap' h hM
      dead := fun b' cls' hgrid' habsent => by
        have hne' : b' ≠ b := by
          rintro rfl
          exact habsent cap mem_cons_self
        rcases hgrid b' cls' hgrid' with hold | heq
        · rw [(hword hold.owned hne').1]
          exact inv.dead b' cls' hold fun cap' h => habsent cap' (mem_cons_of_mem _ h)
        · exact absurd heq hne'
      free := hfree
      bytes := by
        have hle := Heap.bytes_le geo hkeys habove hregions
        have hcons : Heap.bytes ((b + headerSize, cap) :: heap) = cap + heap.bytes := rfl
        rw [hbytes, saturatingAdd, inv.bytes]
        omega
      containers := fun b' cap' h hcontainer => by
        rcases hcases h with ⟨rfl, rfl⟩ | h
        · exact hclass hcontainer
        · refine inv.containers b' cap' h ?_
          rw [headerClassId, ← (hword (inv.owned b' cap' h) (hne h)).2]
          exact hcontainer }

/-! ### Headers -/

theorem writeHeader_state (mem : Words) (base classId posId : Nat) : writeHeader mem base classId posId base = liveState := by
  rw [writeHeader, write, Function.update_of_ne (by omega), write, Function.update_self]

variable {classId : Nat}

theorem writeHeader_class (mem : Words) (base posId : Nat) (h : classId < 2 ^ 32) :
    headerClassId (writeHeader mem base classId posId) base = classId := by
  rw [headerClassId, writeHeader, write, Function.update_self, Nat.add_mul_mod_self_left, Nat.mod_eq_of_lt h]

theorem agree_zeroed (mem : Words) (start length : Nat) : Agree (start, length) mem (zeroed mem start length) := by
  intro a ha
  exact if_neg ha

variable {r : Region}

theorem Agree.mono {r' : Region} {mem mem' : Words} (h : Agree r mem mem') (hsub : ∀ a, Within a r → Within a r') :
    Agree r' mem mem' := fun a ha => h a fun hin => ha (hsub a hin)

theorem Agree.writeHeader {n : Nat} {mem mem' : Words} (h : Agree (b, n) mem mem') (hn : headerSize ≤ n)
    (classId posId : Nat) : Agree (b, n) mem (writeHeader mem' b classId posId) :=
  (h.write (within_header hn).1 _).write (within_header hn).2 _

/-! ### The free list -/

theorem Inv.allocReused (inv : Inv s heap ∅) (hcls : cls < numClasses) (hhead : s.freeHeads cls ≠ 0)
    (hclass : classId < 2 ^ 32) (posId : Nat)
    (hcontainer : isContainer classId = true → 104 ≤ smallestBlock <<< cls - headerSize) :
    ∃ b, s.freeHeads cls = b + headerSize ∧
      Inv (s.allocReused cls (s.freeHeads cls) classId posId).2
        ((b + headerSize, smallestBlock <<< cls - headerSize) :: heap) ∅ ∧
      ∀ cap', (b + headerSize, cap') ∉ heap := by
  obtain ⟨l, hl⟩ := inv.free cls hcls
  obtain ⟨rest, rfl, hrest⟩ := hl.linked.pop hhead
  obtain ⟨b, hb, hgrid, hdead⟩ := (hl.exact _).mp mem_cons_self
  have hfresh : ∀ cap, (b + headerSize, cap) ∉ heap := fun _ hmem => inv.alive hmem hdead
  have hspace := hgrid.owned.space inv.geo
  have hsize : headerSize + (smallestBlock <<< cls - headerSize) = smallestBlock <<< cls := by omega
  refine ⟨b, hb, ?_, hfresh⟩
  rw [hb]
  obtain ⟨hnotin, hnodup⟩ := nodup_cons.mp hl.nodup
  set s' := (s.allocReused cls (b + headerSize) classId posId).2 with hs'
  have hagree : Agree (b, smallestBlock <<< cls) s.mem s'.mem := by
    have hbase : b + headerSize - headerSize = b := by omega
    refine Agree.writeHeader ?_ hspace.2.1 classId posId
    split_ifs
    · exact Agree.refl
    · refine Agree.mono (agree_zeroed s.mem _ _) fun a ha => ?_
      simp only [Within] at *
      omega
  have hlive : s'.mem b = liveState := by
    have hbase : b + headerSize - headerSize = b := by omega
    rw [hs', Arena.allocReused, hbase]
    exact writeHeader_state ..
  have hother : ∀ b' cls', Grid s b' cls' → b' ≠ b →
      s'.mem b' = s.mem b' ∧ s'.mem (b' + headerSize) = s.mem (b' + headerSize) := by
    intro b' cls' hgrid' hne
    have hw := (hgrid'.owned.header inv.geo).1
    exact ⟨hagree.other inv.geo hgrid.owned hgrid'.owned hne hw,
      hagree.other inv.geo hgrid.owned hgrid'.owned hne (hgrid'.within_link inv.geo)⟩
  refine inv.armed ?_ (fun _ h => h) (fun _ _ h => .inl h) (fun _ h => .inl h) ?_ hfresh ?_ hlive ?_ ?_ rfl
  · exact inv.geo.tables
  · rw [hsize]
    exact hgrid.owned
  · rwa [hsize]
  · have hbase : b + headerSize - headerSize = b := by omega
    have hword : headerClassId s'.mem b = classId := by
      exact writeHeader_class _ _ _ hclass
    rw [hword]
    exact hcontainer
  · intro cls' hcls'
    by_cases hsame : cls' = cls
    · subst hsame
      -- the head is taken off
      refine ⟨rest, ?_, hnodup, fun p => ?_⟩
      · have hheads : s'.freeHeads cls' = s.mem (s.freeHeads cls') := by
          rw [hs', Arena.allocReused, hb]
          exact Function.update_self ..
        rw [hheads]
        refine hrest.congr fun p hp => ?_
        obtain ⟨b', rfl, hgrid', -⟩ := (hl.exact p).mp (mem_cons_of_mem _ hp)
        refine (hother b' cls' hgrid' ?_).2
        rintro rfl
        exact hnotin (hb ▸ hp)
      · constructor
        · intro hp
          obtain ⟨b', rfl, hgrid', hdead'⟩ := (hl.exact p).mp (mem_cons_of_mem _ hp)
          refine ⟨b', rfl, hgrid', ?_⟩
          rw [(hother b' cls' hgrid' ?_).1, hdead']
          rintro rfl
          exact hnotin (hb ▸ hp)
        · rintro ⟨b', rfl, hgrid', hdead'⟩
          have hne : b' ≠ b := by
            rintro rfl
            exact liveState_ne_deadState (hlive.symm.trans hdead')
          rw [(hother b' cls' hgrid' hne).1] at hdead'
          rcases mem_cons.mp ((hl.exact _).mpr ⟨b', rfl, hgrid', hdead'⟩) with heq | hin
          · omega
          · exact hin
    · obtain ⟨l', hl'⟩ := inv.free cls' hcls'
      have hne : ∀ b', Grid s b' cls' → b' ≠ b := by
        rintro b' hgrid' rfl
        exact hsame (grid_cls_unique inv.geo hgrid' hgrid)
      refine ⟨l', hl'.kept (Function.update_of_ne hsame ..) (fun b' => ?_) fun b' hgrid' _ => ?_⟩
      · refine and_congr_right fun hgrid' => ?_
        rw [(hother b' cls' hgrid' (hne b' hgrid')).1]
      · exact (hother b' cls' hgrid' (hne b' hgrid')).2

/-! ### Chunks -/

/-- tables that differ in memory that no block has -/
theorem Inv.outside (inv : Inv s heap ∅) (geo : Geometry s')
    (hgrid : ∀ b cls, Grid s' b cls ↔ Grid s b cls) (hlarge : s'.large = s.large)
    (hagree : Agree r s.mem s'.mem) (hapart : ∀ r', Owned s r' → Apart r' r) (hheads : s'.freeHeads = s.freeHeads)
    (hbytes : s'.liveBytesCounter = s.liveBytesCounter) : Inv s' heap ∅ := by
  have howned : ∀ r', Owned s r' → Owned s' r' := by
    rintro r' (⟨b, cls, hb, rfl⟩ | ⟨entry, hentry, rfl⟩)
    · exact .inl ⟨b, cls, (hgrid b cls).mpr hb, rfl⟩
    · exact .inr ⟨entry, hlarge ▸ hentry, rfl⟩
  have hword : ∀ {b n}, Owned s (b, n) → ∀ {a}, Within a (b, n) → s'.mem a = s.mem a := fun hb _ ha =>
    hagree _ ((hapart _ hb).not_within ha)
  have hheader : ∀ {b n}, Owned s (b, n) → s'.mem b = s.mem b ∧ s'.mem (b + 8) = s.mem (b + 8) := fun {b n} hb => by
    obtain ⟨hw, hw'⟩ := hb.header inv.geo
    exact ⟨hword hb hw, hword hb hw'⟩
  refine inv.frame geo (.refl heap) (fun b cap h => howned _ (inv.owned b cap h)) (fun entry hentry => ?_)
    (fun b cap h => hheader (inv.owned b cap h)) (fun b cls hb habsent => ?_) (fun cls hcls => ?_) (hbytes.trans inv.bytes)
  · exact inv.large entry (hlarge ▸ hentry)
  · have hb := (hgrid b cls).mp hb
    rw [(hheader hb.owned).1]
    exact inv.dead b cls hb habsent
  · obtain ⟨l, hl⟩ := inv.free cls hcls
    refine ⟨l, hl.kept (by rw [hheads]) (fun b => ?_) fun b hb _ => hword hb.owned (hb.within_link inv.geo)⟩
    rw [hgrid b cls]
    exact and_congr_right fun hb => by rw [(hheader hb.owned).1]

variable {base size : Nat}

/-- the regions of the blocks lie in those of the system -/
theorem Fresh.apart_owned (hfresh : Fresh s base size) (geo : Geometry s) (h : Owned s r) :
    Apart r (base, size) := by
  rcases h with ⟨_, _, ⟨chunk, hchunk, i, hi, rfl, rfl⟩, rfl⟩ | ⟨entry, hentry, rfl⟩
  · have hok := geo.chunkOk chunk hchunk
    have hend := hok.block_end hi
    have hapart := hfresh.apart chunk.region (mem_append_left _ (mem_map_of_mem hchunk))
    rw [← hok.size]
    refine hapart.symm.part ?_ ?_ <;> simp only [Chunk.region] <;> omega
  · exact (hfresh.apart _ (mem_append_right _ (mem_map.mpr ⟨entry, hentry, rfl⟩))).symm

/-- a table stays sorted when a new address is put behind the smaller ones -/
theorem insertIdx_sorted {table : List (Nat × Nat)} (hsorted : table.Pairwise fun entry entry' => entry.1 < entry'.1)
    {entry : Nat × Nat} (hnew : ∀ entry' ∈ table, entry'.1 ≠ entry.1) :
    (table.insertIdx (table.takeWhile fun entry' => entry'.1 < entry.1).length entry).Pairwise
      fun entry entry' => entry.1 < entry'.1 := by
  induction table with
  | nil => exact pairwise_singleton ..
  | cons e table ih =>
    obtain ⟨he, hsorted⟩ := pairwise_cons.mp hsorted
    by_cases hlt : e.1 < entry.1
    · have ih := ih hsorted fun e' he' => hnew e' (mem_cons_of_mem _ he')
      rw [takeWhile_cons, if_pos (decide_eq_true hlt), length_cons, insertIdx_succ_cons]
      refine pairwise_cons.mpr ⟨fun e' he' => ?_, ih⟩
      rcases (mem_insertIdx ( takeWhile_prefix _).length_le).mp he' with rfl | he'
      · exact hlt
      · exact he e' he'
    · rw [takeWhile_cons, if_neg (by simpa using hlt), length_nil, insertIdx_zero]
      have hfirst := hnew e mem_cons_self
      refine pairwise_cons.mpr ⟨fun e' he' => ?_, pairwise_cons.mpr ⟨he, hsorted⟩⟩
      rcases mem_cons.mp he' with rfl | he'
      · omega
      · have := he e' he'
        omega

variable {index : Nat}

theorem Geometry.newChunk (geo : Geometry s) (hcls : cls < numClasses)
    (hfresh : Fresh s base chunkSize) (h : s.newChunk cls (some base) = some (index, s')) : Geometry s' := by
  obtain ⟨rfl, rfl⟩ := Prod.mk.inj (Option.some.inj h)
  have hindex : ∀ i chunk, (s.chunks ++ [Chunk.mk base (smallestBlock <<< cls) cls 0])[i]? = some chunk ↔
      s.chunks[i]? = some chunk ∨ i = s.chunks.length ∧ chunk = ⟨base, smallestBlock <<< cls, cls, 0⟩ := by
    intro i chunk
    rw [getElem?_append]
    split_ifs with hlt
    · exact ⟨.inl, fun h => h.resolve_right fun h => by omega⟩
    · have hnone : s.chunks[i]? = none := getElem?_eq_none (by omega)
      rw [hnone, getElem?_singleton]
      split_ifs with heq
      · refine ⟨fun h => .inr ⟨by omega, (Option.some.inj h).symm⟩, ?_⟩
        rintro (h | ⟨-, rfl⟩)
        · cases h
        · rfl
      · refine ⟨fun h => (nomatch h), ?_⟩
        rintro (h | ⟨rfl, -⟩)
        · cases h
        · omega
  refine ⟨?_, geo.largeOk, ?_, ?_, ?_, ?_⟩
  · intro chunk hchunk
    rcases mem_append.mp hchunk with hold | hnew
    · exact geo.chunkOk chunk hold
    · rw [mem_singleton.mp hnew]
      exact ⟨hfresh.pos, hfresh.space, hcls, rfl, by simp⟩
  · rw [map_append, map_singleton, append_assoc, singleton_append,
      perm_middle.pairwise_iff (fun h => h.symm)]
    exact pairwise_cons.mpr ⟨hfresh.apart, geo.apart⟩
  · refine insertIdx_sorted geo.sorted fun entry hentry heq => ?_
    obtain ⟨chunk, hchunk, hbase⟩ := (geo.mapped entry.1 entry.2).mp hentry
    have hapart := hfresh.apart chunk.region
      (mem_append_left _ (mem_map_of_mem (mem_of_getElem? hchunk)))
    simp only [Apart, Chunk.region, chunkSize] at hapart heq
    omega
  · intro base' i
    rw [mem_insertIdx ( takeWhile_prefix _).length_le, geo.mapped]
    constructor
    · rintro (heq | ⟨chunk, hchunk, hbase⟩)
      · obtain ⟨rfl, rfl⟩ := Prod.mk.inj heq
        exact ⟨_, (hindex _ _).mpr (.inr ⟨rfl, rfl⟩), rfl⟩
      · exact ⟨chunk, (hindex _ _).mpr (.inl hchunk), hbase⟩
    · rintro ⟨chunk, hchunk, hbase⟩
      rcases (hindex _ _).mp hchunk with hold | ⟨rfl, rfl⟩
      · exact .inr ⟨chunk, hold, hbase⟩
      · exact .inl (Prod.ext hbase.symm rfl)
  · intro cls' i hopen
    change Function.update s.openChunk cls (some s.chunks.length) cls' = some i at hopen
    rw [Function.update_apply] at hopen
    split_ifs at hopen with heq
    · cases hopen
      exact ⟨_, (hindex _ _).mpr (.inr ⟨rfl, rfl⟩), heq.symm⟩
    · obtain ⟨chunk, hchunk, hcls'⟩ := geo.opened cls' i hopen
      exact ⟨chunk, (hindex _ _).mpr (.inl hchunk), hcls'⟩

/-- a new chunk has no block yet -/
theorem Inv.newChunk (inv : Inv s heap ∅) (hcls : cls < numClasses)
    (hfresh : Fresh s base chunkSize) (h : s.newChunk cls (some base) = some (index, s')) : Inv s' heap ∅ := by
  have geo := inv.geo.newChunk hcls hfresh h
  obtain ⟨rfl, rfl⟩ := Prod.mk.inj (Option.some.inj h)
  refine inv.outside geo (fun b cls' => ?_) rfl (agree_zeroed s.mem base chunkSize) (fun r hr => ?_) rfl rfl
  · constructor
    · rintro ⟨chunk, hchunk, i, hi, rfl, rfl⟩
      rcases mem_append.mp hchunk with hold | hnew
      · exact ⟨chunk, hold, i, hi, rfl, rfl⟩
      · rw [mem_singleton.mp hnew] at hi
        exact absurd hi (Nat.not_lt_zero i)
    · rintro ⟨chunk, hchunk, hblock⟩
      exact ⟨chunk, mem_append_left _ hchunk, hblock⟩
  · exact hfresh.apart_owned inv.geo hr

/-- the chunk that the next block of a class comes from -/
structure Room (s : Arena) (index : Nat) (chunk : Chunk) (cls : Nat) : Prop where
  found : s.chunks[index]? = some chunk
  same : chunk.cls = cls
  bump : chunk.bump < chunkSize / (smallestBlock <<< cls)

variable {system : Option Nat}

theorem Inv.chunkFor (inv : Inv s heap ∅) (hcls : cls < numClasses)
    (hfresh : ∀ base, system = some base → Fresh s base chunkSize)
    (h : s.chunkFor cls system = some (index, s')) : Inv s' heap ∅ ∧ ∃ chunk, Room s' index chunk cls := by
  have hnew : s.newChunk cls system = some (index, s') → Inv s' heap ∅ ∧ ∃ chunk, Room s' index chunk cls := by
    intro h
    cases hsystem : system with
    | none =>
      rw [hsystem] at h
      cases h
    | some base =>
      rw [hsystem] at h
      refine ⟨inv.newChunk hcls (hfresh base hsystem) h, ⟨base, smallestBlock <<< cls, cls, 0⟩, ?_⟩
      obtain ⟨rfl, rfl⟩ := Prod.mk.inj (Option.some.inj h)
      have hsize : smallestBlock <<< cls ≤ chunkSize := by
        rw [blockSize_eq]
        refine Nat.le_trans (Nat.pow_le_pow_right (by omega) (show cls + 5 ≤ 16 from ?_)) (by decide)
        unfold numClasses at hcls
        omega
      refine ⟨by simp, rfl, Nat.div_pos hsize ?_⟩
      rw [blockSize_eq]
      exact Nat.two_pow_pos _
  unfold Arena.chunkFor at h
  cases hopen : s.openChunk cls with
  | none =>
    rw [hopen] at h
    exact hnew h
  | some i =>
    obtain ⟨chunk, hchunk, hcls'⟩ := inv.geo.opened cls i hopen
    simp only [hopen, hchunk] at h
    split_ifs at h with hroom
    · obtain ⟨rfl, rfl⟩ := Prod.mk.inj (Option.some.inj h)
      exact ⟨inv, chunk, hchunk, hcls', hroom⟩
    · exact hnew h

/-- the watermark of a chunk moves up by one block -/
theorem Geometry.bump (geo : Geometry s) {index : Nat} {chunk : Chunk} (hroom : Room s index chunk cls) {s' : Arena}
    (hchunks : s'.chunks = s.chunks.set index { chunk with bump := chunk.bump + 1 }) (hmap : s'.chunkMap = s.chunkMap)
    (hopen : s'.openChunk = s.openChunk) (hlarge : s'.large = s.large) : Geometry s' := by
  have hchunk := mem_of_getElem? hroom.found
  have hok := geo.chunkOk chunk hchunk
  have hlt : index < s.chunks.length := (List.getElem?_eq_some_iff.mp hroom.found).1
  have hsame : ∀ {β : Type} (f : Chunk → β), f { chunk with bump := chunk.bump + 1 } = f chunk →
      ∀ (i : Nat) (y : β), (∃ c, s'.chunks[i]? = some c ∧ f c = y) ↔ ∃ c, s.chunks[i]? = some c ∧ f c = y := by
    intro β f hf i y
    rw [hchunks, getElem?_set, if_pos hlt]
    split_ifs with heq
    · subst heq
      rw [hroom.found]
      simp [hf]
    · rfl
  refine ⟨?_, by rw [hlarge]; exact geo.largeOk, ?_, by rw [hmap]; exact geo.sorted, ?_, ?_⟩
  · intro c hc
    rw [hchunks] at hc
    rcases mem_or_eq_of_mem_set hc with hold | rfl
    · exact geo.chunkOk c hold
    · refine ⟨hok.pos, hok.space, hok.cls, hok.size, ?_⟩
      have hbump := hroom.bump
      rw [← hroom.same, ← hok.size] at hbump
      exact Nat.le_trans (Nat.mul_le_mul_right _ hbump) (Nat.div_mul_le_self ..)
  · have hregions : s'.chunks.map Chunk.region = s.chunks.map Chunk.region := by
      rw [hchunks, map_set]
      refine ext_getElem? fun i => ?_
      rw [getElem?_set]
      split_ifs with heq hlt'
      · rw [← heq, getElem?_map, hroom.found]
        rfl
      · rw [← heq, getElem?_eq_none (by omega)]
      · rfl
    rw [hregions, hlarge]
    exact geo.apart
  · intro base i
    rw [hmap, geo.mapped, hsame Chunk.base rfl]
  · intro cls' i h
    rw [hopen] at h
    exact (hsame Chunk.cls rfl i cls').mpr (geo.opened cls' i h)

variable {chunk : Chunk}

theorem grid_bump (hroom : Room s index chunk cls) (s' : Arena)
    (hchunks : s'.chunks = s.chunks.set index { chunk with bump := chunk.bump + 1 }) (b cls' : Nat) :
    Grid s' b cls' ↔ Grid s b cls' ∨ b = chunk.base + chunk.bump * chunk.blockSize ∧ cls' = cls := by
  have hlt : index < s.chunks.length := (List.getElem?_eq_some_iff.mp hroom.found).1
  have hnew : { chunk with bump := chunk.bump + 1 } ∈ s'.chunks := by
    rw [hchunks]
    exact mem_set hlt _
  constructor
  · rintro ⟨c, hc, i, hi, rfl, rfl⟩
    rw [hchunks] at hc
    rcases mem_or_eq_of_mem_set hc with hold | rfl
    · exact .inl ⟨c, hold, i, hi, rfl, rfl⟩
    · rcases Nat.lt_succ_iff_lt_or_eq.mp hi with hi | rfl
      · exact .inl ⟨chunk, mem_of_getElem? hroom.found, i, hi, rfl, rfl⟩
      · exact .inr ⟨rfl, hroom.same⟩
  · rintro (⟨c, hc, i, hi, rfl, rfl⟩ | ⟨rfl, rfl⟩)
    · obtain ⟨j, hj⟩ := mem_iff_getElem?.mp hc
      by_cases heq : index = j
      · subst heq
        obtain rfl : chunk = c := Option.mem_unique hroom.found hj
        exact ⟨_, hnew, i, Nat.lt_succ_of_lt hi, rfl, rfl⟩
      · refine ⟨c, mem_iff_getElem?.mpr ⟨j, ?_⟩, i, hi, rfl, rfl⟩
        rw [hchunks, getElem?_set, if_neg heq, hj]
    · exact ⟨_, hnew, chunk.bump, Nat.lt_succ_self _, rfl, hroom.same.symm⟩

theorem Inv.allocBump (inv : Inv s heap ∅) (hroom : Room s index chunk cls)
    (hclass : classId < 2 ^ 32) (posId : Nat)
    (hcontainer : isContainer classId = true → 104 ≤ smallestBlock <<< cls - headerSize) :
    ∃ b, (s.allocBump cls index classId posId chunk).1 = b + headerSize ∧
      Inv (s.allocBump cls index classId posId chunk).2
        ((b + headerSize, smallestBlock <<< cls - headerSize) :: heap) ∅ ∧
      ∀ cap', (b + headerSize, cap') ∉ heap := by
  have hok := inv.geo.chunkOk chunk (mem_of_getElem? hroom.found)
  have hblock : chunk.blockSize = smallestBlock <<< cls := by rw [hok.size, hroom.same]
  set s' := (s.allocBump cls index classId posId chunk).2 with hs'
  have geo : Geometry s' := inv.geo.bump hroom rfl rfl rfl rfl
  have hgrid := fun b cls' => grid_bump hroom s' rfl b cls'
  set b := chunk.base + chunk.bump * (smallestBlock <<< cls) with hb
  rw [hblock] at hgrid
  have hnew : Grid s' b cls := (hgrid b cls).mpr (.inr ⟨rfl, rfl⟩)
  have hspace := hnew.owned.space geo
  have hsize : headerSize + (smallestBlock <<< cls - headerSize) = smallestBlock <<< cls := by omega
  have howned : ∀ r, Owned s r → Owned s' r := by
    rintro r (⟨b', cls', hb', rfl⟩ | ⟨entry, hentry, rfl⟩)
    · exact .inl ⟨b', cls', (hgrid b' cls').mpr (.inl hb'), rfl⟩
    · exact .inr ⟨entry, hentry, rfl⟩
  -- the block is above the watermark, so it was not in the grid
  have hnot : ∀ n, ¬ Owned s (b, n) := by
    rintro n (⟨b', cls', ⟨c, hc, i, hi, hb', rfl⟩, heq⟩ | ⟨entry, hentry, heq⟩)
    · obtain ⟨rfl, rfl⟩ := Prod.mk.inj heq
      have hchunk := mem_of_getElem? hroom.found
      rcases inv.geo.chunks_apart hc hchunk with rfl | hapart
      · rw [hblock] at hb'
        have := Nat.eq_of_mul_eq_mul_right (show 0 < smallestBlock <<< cls by unfold headerSize at hspace; omega)
          (Nat.add_left_cancel (hb.symm.trans hb'))
        omega
      · have hokc := inv.geo.chunkOk c hc
        have hend := hokc.block_end hi
        have hend' := (geo.chunkOk _ (List.mem_set (List.getElem?_eq_some_iff.mp hroom.found).1 _)).block_end
          (Nat.lt_succ_self chunk.bump)
        have hpos := hokc.size_pos
        have hpos' := hok.size_pos
        unfold smallestBlock at hpos hpos'
        rw [hblock] at hpos' hend'
        refine hapart.not_within (a := b) ⟨?_, ?_⟩ ⟨?_, ?_⟩ <;> simp only [Chunk.region] <;> omega
    · obtain ⟨hbase, -⟩ := Prod.mk.inj heq
      exact grid_or_large geo hnew (show entry ∈ s'.large from hentry) hbase
  have hfresh : ∀ cap', (b + headerSize, cap') ∉ heap := fun cap' h => hnot _ (inv.owned b cap' h)
  have hmem : s'.mem = Runtime.writeHeader s.mem b classId posId := rfl
  have hagree : Agree (b, smallestBlock <<< cls) s.mem s'.mem := by
    exact Agree.refl.writeHeader hspace.2.1 classId posId
  have hlive : s'.mem b = liveState := by
    rw [hmem]
    exact writeHeader_state ..
  refine ⟨b, rfl, inv.armed geo howned (fun b' cls' h => ?_) (fun _ h => .inl h) ?_ hfresh ?_ hlive ?_ ?_ rfl, hfresh⟩
  · exact ((hgrid b' cls').mp h).imp id And.left
  · rw [hsize]
    exact hnew.owned
  · rwa [hsize]
  · rw [hmem, writeHeader_class _ _ _ hclass]
    exact hcontainer
  · intro cls' hcls'
    obtain ⟨l, hl⟩ := inv.free cls' hcls'
    have hword : ∀ b', Grid s b' cls' → s'.mem b' = s.mem b' ∧ s'.mem (b' + headerSize) = s.mem (b' + headerSize) := by
      intro b' hb'
      have hne : b' ≠ b := by
        rintro rfl
        exact hnot _ hb'.owned
      have hapart := (howned _ hb'.owned).apart geo hnew.owned hne
      have hw := (hb'.owned.header inv.geo).1
      exact ⟨hagree _ (hapart.not_within hw), hagree _ (hapart.not_within (hb'.within_link inv.geo))⟩
    refine ⟨l, hl.kept rfl (fun b' => ?_) fun b' hb' _ => (hword b' hb').2⟩
    constructor
    · rintro ⟨hb', hdead⟩
      rcases (hgrid b' cls').mp hb' with hold | ⟨rfl, -⟩
      · exact ⟨hold, (hword b' hold).1 ▸ hdead⟩
      · exact absurd (hlive.symm.trans hdead) liveState_ne_deadState
    · rintro ⟨hb', hdead⟩
      exact ⟨(hgrid b' cls').mpr (.inl hb'), (hword b' hb').1.trans hdead⟩

/-! ### Large allocations -/

theorem Geometry.addLarge (geo : Geometry s) (hfresh : Fresh s base (headerSize + size))
    (hchunks : s'.chunks = s.chunks) (hmap : s'.chunkMap = s.chunkMap) (hopen : s'.openChunk = s.openChunk)
    (hlarge : s'.large = (base + headerSize, ⟨base, size⟩) :: s.large) : Geometry s' := by
  refine ⟨by rw [hchunks]; exact geo.chunkOk, ?_, ?_, by rw [hmap]; exact geo.sorted, ?_, ?_⟩
  · intro entry hentry
    rw [hlarge] at hentry
    rcases mem_cons.mp hentry with rfl | hold
    · exact ⟨rfl, hfresh.pos, by have := hfresh.space; simp only; omega⟩
    · exact geo.largeOk entry hold
  · rw [hchunks, hlarge, map_cons, perm_middle.pairwise_iff (fun h => h.symm)]
    exact pairwise_cons.mpr ⟨hfresh.apart, geo.apart⟩
  · rw [hmap, hchunks]
    exact geo.mapped
  · rw [hopen, hchunks]
    exact geo.opened

theorem Inv.allocLarge (inv : Inv s heap ∅) (hsize : largestBlock < saturatingAdd headerSize (max size 1))
    (hlayout : layoutOk (saturatingAdd headerSize (max size 1)) = true)
    (hfresh : Fresh s base (saturatingAdd headerSize (max size 1))) (classId posId : Nat) :
    ∃ b, (s.allocLarge size classId posId (some base)).1 = b + headerSize ∧
      Inv (s.allocLarge size classId posId (some base)).2 ((b + headerSize, size) :: heap) ∅ ∧
      ∀ cap', (b + headerSize, cap') ∉ heap := by
  have htotal : saturatingAdd headerSize (max size 1) = headerSize + size ∧ 4080 < size := by
    have := of_decide_eq_true hlayout
    simp only [saturatingAdd, headerSize, largestBlock, usizeMax] at *
    omega
  -- a fresh address is not in the heap
  have habsent : ∀ cap', (base + headerSize, cap') ∉ heap := by
    intro cap' h
    have howned := inv.owned base cap' h
    have hw := (howned.header inv.geo).1
    refine (hfresh.apart_owned inv.geo howned).not_within hw ?_
    rw [htotal.1]
    exact (within_header (Nat.le_add_right ..)).1
  have hkept : (s.large.filter fun entry => entry.1 ≠ base + headerSize) = s.large := by
    refine filter_eq_self.mpr fun entry hentry => decide_eq_true fun heq => ?_
    exact habsent _ (heq ▸ inv.large entry hentry)
  rw [Arena.allocLarge, if_pos hlayout]
  simp only [hkept, htotal.1]
  rw [htotal.1] at hfresh
  refine ⟨base, rfl, ?_, habsent⟩
  have hmem := Agree.writeHeader (agree_zeroed s.mem base (headerSize + size)) (Nat.le_add_right ..) classId posId
  set s' : Arena := { s with
    mem := writeHeader (zeroed s.mem base (headerSize + size)) base classId posId
    large := (base + headerSize, ⟨base, size⟩) :: s.large
    liveBytesCounter := saturatingAdd s.liveBytesCounter size }
  have geo : Geometry s' := inv.geo.addLarge hfresh rfl rfl rfl rfl
  have howned : ∀ r, Owned s r → Owned s' r := by
    rintro r (hgrid | ⟨entry, hentry, rfl⟩)
    · exact .inl hgrid
    · exact .inr ⟨entry, mem_cons_of_mem _ hentry, rfl⟩
  refine inv.armed geo howned (fun _ _ h => .inl h) (fun entry hentry => ?_) ?_ habsent hmem ?_ ?_ ?_ rfl
  · rcases mem_cons.mp hentry with rfl | hold
    · exact .inr ⟨rfl, rfl⟩
    · exact .inl hold
  · exact .inr ⟨(base + headerSize, ⟨base, size⟩), mem_cons_self, rfl⟩
  · exact writeHeader_state ..
  · omega
  · intro cls hcls
    obtain ⟨l, hl⟩ := inv.free cls hcls
    have hword : ∀ b, Grid s b cls → ∀ a, Within a (b, smallestBlock <<< cls) → s'.mem a = s.mem a := fun b hb a ha =>
      hmem a ((hfresh.apart_owned inv.geo hb.owned).not_within ha)
    refine ⟨l, hl.kept rfl (fun b => ?_) fun b hb _ => hword b hb _ (hb.within_link inv.geo)⟩
    refine and_congr_right fun hb => ?_
    have hold : Grid s b cls := hb
    rw [hword b hold b (hold.owned.header inv.geo).1]

/-! ### `arena_alloc` -/

/-- the capacity of the block for a size: that of its class, or the size -/
def payloadCapacity (size : Nat) : Nat :=
  let need := saturatingAdd headerSize (max size 1)
  if largestBlock < need then size else smallestBlock <<< sizeClass need - headerSize

/-- what the arena asks of the system for a size, if it asks at all -/
def systemSize (size : Nat) : Nat :=
  let need := saturatingAdd headerSize (max size 1)
  if largestBlock < need then need else chunkSize

/-- the block of a container holds its header, which has 104 bytes -/
theorem container_fits (hsize : 49 ≤ size) : 104 ≤ payloadCapacity size := by
  unfold payloadCapacity
  simp only
  split_ifs with hlarge
  · simp only [saturatingAdd, headerSize, largestBlock, usizeMax] at hlarge
    omega
  · have hneed : 64 < saturatingAdd headerSize (max size 1) := by
      simp only [saturatingAdd, headerSize, usizeMax]
      omega
    generalize saturatingAdd headerSize (max size 1) = need at hneed ⊢
    have hle := le_sizeClass need
    rw [blockSize_eq] at hle ⊢
    have hclass : 2 ≤ sizeClass need := by
      by_contra hlt
      have := Nat.pow_le_pow_right (show 0 < 2 by omega) (show sizeClass need + 5 ≤ 6 by omega)
      omega
    have := Nat.pow_le_pow_right (show 0 < 2 by omega) (show 7 ≤ sizeClass need + 5 by omega)
    have hheader : headerSize = 16 := rfl
    omega

/-- an allocation fails and changes nothing, or adds a block to the heap that was not there -/
theorem Inv.alloc (inv : Inv s heap ∅) (hclass : classId < 2 ^ 32) (posId : Nat)
    (hsystem : ∀ base, system = some base → Fresh s base (systemSize size))
    (hcontainer : isContainer classId = true → 49 ≤ size) :
    s.alloc size classId posId system = (0, s) ∨
      ∃ b, (s.alloc size classId posId system).1 = b + headerSize ∧
        Inv (s.alloc size classId posId system).2 ((b + headerSize, payloadCapacity size) :: heap) ∅ ∧
        ∀ cap', (b + headerSize, cap') ∉ heap := by
  unfold Arena.alloc
  simp only
  split_ifs with hlarge hhead
  · have hcap : payloadCapacity size = size := if_pos hlarge
    have hneed : systemSize size = saturatingAdd headerSize (max size 1) := if_pos hlarge
    by_cases hlayout : layoutOk (saturatingAdd headerSize (max size 1)) = true
    · cases hs : system with
      | none =>
        left
        simp only [Arena.allocLarge, hlayout, if_true]
      | some base =>
        right
        rw [hcap]
        exact inv.allocLarge hlarge hlayout (hneed ▸ hsystem base hs) classId posId
    · left
      exact if_neg hlayout
  all_goals
    have hcap : payloadCapacity size = smallestBlock <<< sizeClass (saturatingAdd headerSize (max size 1)) - headerSize :=
      if_neg hlarge
    have hneed : systemSize size = chunkSize := if_neg hlarge
    have hcls := sizeClass_lt (Nat.le_of_not_lt hlarge)
    have hfits : isContainer classId = true →
        104 ≤ smallestBlock <<< sizeClass (saturatingAdd headerSize (max size 1)) - headerSize := fun hc =>
      hcap ▸ container_fits (hcontainer hc)
    rw [hcap]
  · right
    exact inv.allocReused hcls hhead hclass posId hfits
  · cases hchunk : s.chunkFor (sizeClass (saturatingAdd headerSize (max size 1))) system with
    | none => exact .inl rfl
    | some found =>
      obtain ⟨index, s₁⟩ := found
      obtain ⟨inv₁, chunk, hroom⟩ := inv.chunkFor hcls (fun base hb => hneed ▸ hsystem base hb) hchunk
      right
      simp only [hroom.found]
      exact inv₁.allocBump hroom hclass posId hfits

end Subscript.Runtime
