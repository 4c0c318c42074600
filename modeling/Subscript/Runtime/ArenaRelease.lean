import Subscript.Runtime.ArenaAlloc

/-! Membership and release. `is_live` is membership in the heap, whatever the address is; a release takes the block out
of the heap, and a container takes its storage with it. -/

namespace Subscript.Runtime

open List Memory

variable {s : Arena} {heap : Heap} {M : Set Nat} {b cls cap q : Nat}

/-! ### Membership -/

theorem large_unique (geo : Geometry s) {entry entry' : Nat × LargeAlloc} (h : entry ∈ s.large) (h' : entry' ∈ s.large)
    (heq : entry.1 = entry'.1) : entry = entry' := by
  rcases geo.large_apart h h' with hsame | hapart
  · exact hsame
  · have hkey := (geo.largeOk entry h).key
    have hkey' := (geo.largeOk entry' h').key
    simp only [Apart, LargeAlloc.region, headerSize] at *
    omega

theorem lookup_eq_some {α : Type} {table : List (Nat × α)} {key : Nat} {a : α} (h : table.lookup key = some a) :
    (key, a) ∈ table := by
  induction table with
  | nil => cases h
  | cons entry table ih =>
    obtain ⟨k, x⟩ := entry
    rw [lookup_cons] at h
    split at h
    · next heq =>
      obtain rfl : key = k := by simpa using heq
      cases h
      exact mem_cons_self
    · exact mem_cons_of_mem _ (ih h)

theorem lookup_of_mem {α : Type} {table : List (Nat × α)} {key : Nat} {a : α} (h : (key, a) ∈ table)
    (hunique : ∀ a', (key, a') ∈ table → a' = a) : table.lookup key = some a := by
  cases hlookup : table.lookup key with
  | none =>
    have := lookup_eq_none_iff.mp hlookup (key, a) h
    simp at this
  | some a' => rw [hunique a' (lookup_eq_some hlookup)]

/-- a block of the heap, as the lookups find it -/
inductive Found (s : Arena) (b cap : Nat) : Prop
  | block {cls : Nat} (grid : Grid s b cls) (lookup : s.lookupBlock (b + headerSize) = some (b, cls))
      (size : cap = smallestBlock <<< cls - headerSize)
  | large {a : LargeAlloc} (mem : (b + headerSize, a) ∈ s.large) (base : a.base = b) (size : a.payloadSize = cap)
      (none : s.lookupBlock (b + headerSize) = none) (lookup : s.large.lookup (b + headerSize) = some a)

variable {p : Nat} {a : LargeAlloc}

theorem lookup_large (geo : Geometry s) (h : (p, a) ∈ s.large) :
    s.lookupBlock p = none ∧ s.large.lookup p = some a := by
  constructor
  · cases hlookup : s.lookupBlock p with
    | none => rfl
    | some found =>
      obtain ⟨hgrid, heq⟩ := grid_of_lookupBlock geo hlookup
      have hkey := (geo.largeOk _ h).key
      exact absurd (show found.1 = a.base by simp only at hkey; omega) (grid_or_large geo hgrid h)
  · refine lookup_of_mem h fun a' h' => ?_
    exact (Prod.mk.inj (large_unique geo h' h rfl)).2

theorem Inv.found (inv : Inv s heap M) (h : (b + headerSize, cap) ∈ heap) : Found s b cap := by
  rcases inv.owned b cap h with ⟨b', cls, hgrid, heq⟩ | ⟨entry, hentry, heq⟩
  · obtain ⟨rfl, -⟩ := Prod.mk.inj heq
    exact .block hgrid (lookupBlock_of_grid inv.geo hgrid) (inv.block_cap hgrid h)
  · obtain ⟨rfl, hsize⟩ := Prod.mk.inj heq
    have hkey := (inv.geo.largeOk entry hentry).key
    obtain ⟨p, a⟩ := entry
    simp only at hkey hsize
    subst hkey
    obtain ⟨hnone, hlookup⟩ := lookup_large inv.geo hentry
    exact .large hentry rfl (by omega) hnone hlookup

theorem deadState_ne : ¬ (deadState = liveState ∨ deadState = markState) := by decide

theorem Inv.state (inv : Inv s heap M) (h : (b + headerSize, cap) ∈ heap) : s.mem b = liveState ∨ s.mem b = markState := by
  by_cases hM : b + headerSize ∈ M
  · exact .inr (inv.marked b cap h hM)
  · exact .inl (inv.unmarked b cap h hM)

theorem Inv.base_of_mem (inv : Inv s heap M) (h : (p, cap) ∈ heap) : ∃ b, p = b + headerSize :=
  ⟨p - headerSize, (Nat.sub_add_cancel (inv.above _ h)).symm⟩

/-- the exact membership test -/
theorem Inv.isLive_iff (inv : Inv s heap M) (p : Nat) : s.isLive p = true ↔ ∃ cap, (p, cap) ∈ heap := by
  rw [Arena.isLive]
  cases hlookup : s.lookupBlock p with
  | some found =>
    obtain ⟨b, cls⟩ := found
    obtain ⟨hgrid, rfl⟩ := grid_of_lookupBlock inv.geo hlookup
    simp only [Bool.or_eq_true, decide_eq_true_eq]
    constructor
    · intro hstate
      by_contra hnone
      rw [inv.dead b cls hgrid fun cap h => hnone ⟨cap, h⟩] at hstate
      exact deadState_ne hstate
    · rintro ⟨cap, h⟩
      exact inv.state h
  | none =>
    constructor
    · intro h
      obtain ⟨a, ha⟩ := Option.isSome_iff_exists.mp h
      exact ⟨_, inv.large _ (lookup_eq_some ha)⟩
    · rintro ⟨cap, h⟩
      obtain ⟨b, rfl⟩ := inv.base_of_mem h
      cases inv.found h with
      | block _ hsome => exact absurd (hlookup.symm.trans hsome) nofun
      | large _ _ _ _ hsome => rw [hsome]; rfl

/-! ### Release -/

/-- a large record is dropped -/
theorem Inv.dropped (inv : Inv s heap M) (h : (p, a) ∈ s.large) :
    Inv { s.removeLarge p with liveBytesCounter := s.liveBytesCounter - a.payloadSize } (heap.remove p) M := by
  have hold : ∀ {e}, e ∈ heap.remove p → e ∈ heap := fun he => (Heap.mem_remove.mp he).1
  have hsub : (s.large.filter fun entry => entry.1 ≠ p).Sublist s.large := filter_sublist
  have geo : Geometry (s.removeLarge p) :=
    { inv.geo with
      largeOk := fun entry hentry => inv.geo.largeOk entry (hsub.subset hentry)
      apart := inv.geo.apart.sublist (List.Sublist.append_left (hsub.map _) _) }
  refine inv.frame geo.tables filter_sublist (fun b cap h' => ?_) (fun entry hentry => ?_) (fun _ _ _ => ⟨rfl, rfl⟩)
    (fun b cls hgrid habsent => ?_) (fun cls hcls => ?_) ?_
  · rcases inv.owned b cap (hold h') with hgrid | ⟨entry, hentry, heq⟩
    · exact .inl hgrid
    · refine .inr ⟨entry, mem_filter.mpr ⟨hentry, decide_eq_true fun hkey => ?_⟩, heq⟩
      have := (inv.geo.largeOk entry hentry).key
      have hbase := (Prod.mk.inj heq).1
      exact (Heap.mem_remove.mp h').2 (by rw [← hkey, this, hbase])
  · obtain ⟨hmem, hne⟩ := mem_filter.mp hentry
    exact Heap.mem_remove.mpr ⟨inv.large entry hmem, of_decide_eq_true hne⟩
  · refine inv.dead b cls hgrid fun cap h' => habsent cap (Heap.mem_remove.mpr ⟨h', fun heq => ?_⟩)
    have hkey : p = a.base + headerSize := (inv.geo.largeOk _ h).key
    exact grid_or_large inv.geo hgrid h (show b = a.base by simp only at heq; omega)
  · obtain ⟨l, hl⟩ := inv.free cls hcls
    exact ⟨l, hl.linked, hl.nodup, hl.exact⟩
  · have := Heap.bytes_remove inv.nodup (inv.large _ h)
    have hbytes := inv.bytes
    show s.liveBytesCounter - a.payloadSize = _
    simp only at this
    omega

/-- the block is a live container -/
def Container (s : Arena) (heap : Heap) (p : Nat) : Prop :=
  ∃ b cap, p = b + headerSize ∧ (p, cap) ∈ heap ∧ isContainer (headerClassId s.mem b) = true

/-- what a release of `q` leaves as it was: the chunks, and the class words of the other blocks -/
structure Kept (s s' : Arena) (heap : Heap) : Prop where
  chunks : s'.chunks = s.chunks
  classes : ∀ b cap, (b + headerSize, cap) ∈ heap → s'.mem (b + 8) = s.mem (b + 8)

variable {heap' : Heap}

theorem Kept.container {s' : Arena} (hkept : Kept s s' heap') (hsub : heap' ⊆ heap)
    (h : Container s' heap' p) : Container s heap p := by
  obtain ⟨b, cap, rfl, hmem, hclass⟩ := h
  refine ⟨b, cap, rfl, hsub hmem, ?_⟩
  rwa [headerClassId, ← hkept.classes b cap hmem]

theorem Kept.trans {s₁ s₂ s₃ : Arena} (h : Kept s₁ s₂ heap) (h' : Kept s₂ s₃ heap') (hsub : heap' ⊆ heap) :
    Kept s₁ s₃ heap' where
  chunks := h'.chunks.trans h.chunks
  classes := fun b cap hmem => (h'.classes b cap hmem).trans (h.classes b cap (hsub hmem))

theorem retire_class (inv : Inv s heap M) (hgrid : Grid s b cls) : Kept s (s.retire b cls) (heap.remove (b + headerSize)) where
  chunks := rfl
  classes := by
    intro b' cap' h'
    obtain ⟨hmem, hne⟩ := Heap.mem_remove.mp h'
    have hb' := inv.owned b' cap' hmem
    refine (hgrid.agree_retire inv.geo).other inv.geo hgrid.owned hb' ?_ (hb'.header inv.geo).2
    rintro rfl
    exact hne rfl

/-- a release that is not of a container -/
theorem Inv.release_plain (inv : Inv s heap M) (hq : ¬ Container s heap q) (depth : Nat) :
    Inv (Arena.arenaRelease (depth + 1) s q) (heap.remove q) M ∧
      Kept s (Arena.arenaRelease (depth + 1) s q) (heap.remove q) := by
  have hgone : (∀ cap, (q, cap) ∉ heap) → Inv s (heap.remove q) M ∧ Kept s s (heap.remove q) := fun habsent => by
    rw [Heap.remove_absent habsent]
    exact ⟨inv, rfl, fun _ _ _ => rfl⟩
  rw [Arena.arenaRelease]
  cases hlookup : s.lookupBlock q with
  | some found =>
    obtain ⟨b, cls⟩ := found
    obtain ⟨hgrid, rfl⟩ := grid_of_lookupBlock inv.geo hlookup
    simp only
    split_ifs with hstate
    · have hin : ∃ cap, (b + headerSize, cap) ∈ heap := by
        by_contra hnone
        rw [inv.dead b cls hgrid fun cap h => hnone ⟨cap, h⟩] at hstate
        exact deadState_ne hstate
      obtain ⟨cap, h⟩ := hin
      have hplain : ¬ isContainer (headerClassId s.mem b) = true := fun hc => hq ⟨b, cap, rfl, h, hc⟩
      rw [Arena.releaseClassState, if_neg hplain]
      exact ⟨inv.retire hgrid h, retire_class inv hgrid⟩
    · exact hgone fun cap h => hstate (inv.state h)
  | none =>
    cases hlarge : s.large.lookup q with
    | none =>
      refine hgone fun cap h => ?_
      obtain ⟨b, rfl⟩ := inv.base_of_mem h
      cases inv.found h with
      | block _ hsome => exact absurd (hlookup.symm.trans hsome) nofun
      | large _ _ _ _ hsome => exact absurd (hlarge.symm.trans hsome) nofun
    | some a =>
      have hmem := lookup_eq_some hlarge
      have hkey := (inv.geo.largeOk _ hmem).key
      have hplain : ¬ isContainer (headerClassId s.mem a.base) = true := fun hc =>
        hq ⟨a.base, _, hkey, inv.large _ hmem, hc⟩
      simp only
      rw [Arena.releaseClassState, if_neg hplain]
      exact ⟨inv.dropped hmem, rfl, fun _ _ _ => rfl⟩

/-- null is in no heap -/
theorem Inv.delete_plain (inv : Inv s heap M) (hq : ¬ Container s heap q) (depth : Nat) :
    Inv (if q ≠ 0 then Arena.arenaRelease (depth + 1) s q else s) (heap.remove q) M ∧
      Kept s (if q ≠ 0 then Arena.arenaRelease (depth + 1) s q else s) (heap.remove q) := by
  split_ifs with hnull
  · exact inv.release_plain hq depth
  · have habsent : ∀ cap, (q, cap) ∉ heap := fun cap h => by
      have := inv.above _ h
      simp only [headerSize] at this
      omega
    rw [Heap.remove_absent habsent]
    exact ⟨inv, rfl, fun _ _ _ => rfl⟩

/-! ### Containers -/

/-- the second half of `clear` -/
def deleteStorage (delete : Arena → Nat → Arena) (s : Arena) (entries buckets : Nat) : Arena :=
  let s := if entries ≠ 0 then delete s entries else s
  if buckets ≠ 0 then delete s buckets else s

theorem clearContainer_eq (delete : Arena → Nat → Arena) (p : Nat) :
    s.clearContainer delete p =
      deleteStorage delete { s with mem := Arena.clearHeader s.mem p } (s.mem (p + 72)) (s.mem (p + 80)) := rfl

theorem Inv.deleteStorage (inv : Inv s heap M) {entries buckets : Nat} (hentries : ¬ Container s heap entries)
    (hbuckets : ¬ Container s heap buckets) (depth : Nat) :
    Inv (Runtime.deleteStorage (Arena.arenaRelease (depth + 1)) s entries buckets)
        ((heap.remove entries).remove buckets) M ∧
      Kept s (Runtime.deleteStorage (Arena.arenaRelease (depth + 1)) s entries buckets)
        ((heap.remove entries).remove buckets) := by
  have hsub : ∀ (heap : Heap) p, heap.remove p ⊆ heap := fun heap p e he => (Heap.mem_remove.mp he).1
  obtain ⟨inv₁, hkept₁⟩ := inv.delete_plain hentries depth
  obtain ⟨inv₂, hkept₂⟩ := inv₁.delete_plain (fun h => hbuckets (hkept₁.container (hsub _ _) h)) depth
  exact ⟨inv₂, hkept₁.trans hkept₂ (hsub _ _)⟩

theorem agree_clearHeader (mem : Words) (hcap : 104 ≤ cap) : Agree (p, cap) mem (Arena.clearHeader mem p) := by
  have hfold : ∀ (offsets : List Nat) (mem' : Words), (∀ o ∈ offsets, o < cap) → Agree (p, cap) mem mem' →
      Agree (p, cap) mem (offsets.foldl (fun mem offset => write mem (p + offset) 0) mem') := by
    intro offsets
    induction offsets with
    | nil => exact fun _ _ h => h
    | cons o offsets ih =>
      intro mem' hlt hagree
      refine ih _ (fun o' ho' => hlt o' (mem_cons_of_mem _ ho')) (hagree.write ⟨?_, ?_⟩ 0)
      · exact Nat.le_add_right ..
      · exact Nat.add_lt_add_left (hlt o mem_cons_self) p
  refine hfold _ mem (fun o ho => ?_) Agree.refl
  simp only [mem_cons, not_mem_nil, or_false] at ho
  omega

/-- the header of a container is reset within its payload -/
theorem Inv.cleared (inv : Inv s heap M) (h : (b + headerSize, cap) ∈ heap) (hcap : 104 ≤ cap) :
    Inv { s with mem := Arena.clearHeader s.mem (b + headerSize) } heap M ∧
      Kept s { s with mem := Arena.clearHeader s.mem (b + headerSize) } heap := by
  have hagree := agree_clearHeader s.mem (p := b + headerSize) hcap
  refine ⟨inv.payload h hagree, rfl, fun b' cap' h' => hagree _ ?_⟩
  -- a class word is in no payload
  have howned := inv.owned b cap h
  have hb' := inv.owned b' cap' h'
  by_cases heq : b' = b
  · simp only [Within, headerSize]
    omega
  · have hw := (hb'.header inv.geo).2
    have := (hb'.apart inv.geo howned heq).not_within hw
    simp only [Within] at *
    omega

def lower (k : Nat) (s : Arena) : Arena := { s with liveBytesCounter := s.liveBytesCounter - k }

theorem retire_lower (k : Nat) (s : Arena) (b cls : Nat) : (lower k s).retire b cls = lower k (s.retire b cls) := by
  unfold lower Arena.retire
  rw [Nat.sub_right_comm]

variable {delete : Arena → Nat → Arena}

theorem deleteStorage_lower {k : Nat}
    (hdelete : ∀ s q, delete (lower k s) q = lower k (delete s q)) (s : Arena) (entries buckets : Nat) :
    deleteStorage delete (lower k s) entries buckets = lower k (deleteStorage delete s entries buckets) := by
  unfold deleteStorage
  split_ifs <;> simp only [hdelete]

theorem releaseClassState_lower {k : Nat}
    (hdelete : ∀ s q, delete (lower k s) q = lower k (delete s q)) (s : Arena) (classId p : Nat) :
    (lower k s).releaseClassState delete classId p = lower k (s.releaseClassState delete classId p) := by
  unfold Arena.releaseClassState
  split_ifs
  · exact deleteStorage_lower hdelete { s with mem := Arena.clearHeader s.mem p } _ _
  · rfl

/-- no release reads the counter -/
theorem arenaRelease_lower (k depth : Nat) (s : Arena) (q : Nat) :
    Arena.arenaRelease depth (lower k s) q = lower k (Arena.arenaRelease depth s q) := by
  induction depth generalizing s q with
  | zero => rfl
  | succ depth ih =>
    have hstate := releaseClassState_lower ih
    rw [Arena.arenaRelease, Arena.arenaRelease]
    have hlookup : (lower k s).lookupBlock q = s.lookupBlock q := rfl
    have hmem : (lower k s).mem = s.mem := rfl
    have hlarge : (lower k s).large = s.large := rfl
    rw [hlookup, hmem, hlarge]
    cases s.lookupBlock q with
    | some found =>
      simp only
      split_ifs
      · rw [hstate, retire_lower]
      · rfl
    | none =>
      cases s.large.lookup q with
      | none => rfl
      | some a =>
        have hremove : (lower k s).removeLarge q = lower k (s.removeLarge q) := rfl
        simp only [hremove, hstate]
        unfold lower
        rw [Nat.sub_right_comm]

/-- A container is released with its storage, if the storage words name no container. -/
theorem Inv.release_container (inv : Inv s heap M) (h : (b + headerSize, cap) ∈ heap)
    (hclass : isContainer (headerClassId s.mem b) = true)
    (hentries : ¬ Container s heap (s.mem (b + headerSize + 72)))
    (hbuckets : ¬ Container s heap (s.mem (b + headerSize + 80))) (depth : Nat) :
    Inv (Arena.arenaRelease (depth + 2) s (b + headerSize))
      (((heap.remove (s.mem (b + headerSize + 72))).remove (s.mem (b + headerSize + 80))).remove (b + headerSize)) M := by
  obtain ⟨inv₁, hkept₁⟩ := inv.cleared h (inv.containers b cap h hclass)
  have hself : Container s heap (b + headerSize) := ⟨b, cap, rfl, h, hclass⟩
  have hne : ∀ {p}, ¬ Container s heap p → b + headerSize ≠ p := by
    rintro p hp rfl
    exact hp hself
  rw [Arena.arenaRelease]
  cases inv.found h with
  | block hgrid hlookup hsize =>
    simp only [hlookup]
    rw [if_pos (inv.state h), Arena.releaseClassState, if_pos hclass, clearContainer_eq]
    obtain ⟨inv₂, hkept₂⟩ := inv₁.deleteStorage (fun hc => hentries (hkept₁.container (List.Subset.refl _) hc))
      (fun hc => hbuckets (hkept₁.container (List.Subset.refl _) hc)) depth
    refine inv₂.retire ?_ (show (b + headerSize, cap) ∈ _ from ?_)
    · obtain ⟨chunk, hchunk, hblock⟩ := hgrid
      exact ⟨chunk, by rw [hkept₂.chunks]; exact hchunk, hblock⟩
    · exact Heap.mem_remove.mpr ⟨Heap.mem_remove.mpr ⟨h, hne hentries⟩, hne hbuckets⟩
  | large hmem hbase hsize hnone hlookup =>
    rename_i a
    subst hbase
    simp only [hnone, hlookup]
    rw [Arena.releaseClassState, if_pos hclass, clearContainer_eq]
    -- the record is dropped before the storage is deleted, and counted after it
    have inv₂ := inv₁.dropped hmem
    have hsub : ∀ (heap : Heap) p, heap.remove p ⊆ heap := fun heap p e he => (Heap.mem_remove.mp he).1
    have hplain : ∀ {p}, ¬ Container s heap p →
        ¬ Container { s with mem := Arena.clearHeader s.mem (a.base + headerSize) } (heap.remove (a.base + headerSize)) p := by
      rintro p hp ⟨b', cap', rfl, hmem', hclass'⟩
      exact hp (hkept₁.container (List.Subset.refl _) ⟨b', cap', rfl, hsub _ _ hmem', hclass'⟩)
    obtain ⟨inv₃, -⟩ := inv₂.deleteStorage (hplain hentries) (hplain hbuckets) depth
    set t : Arena := { s with mem := Arena.clearHeader s.mem (a.base + headerSize) }.removeLarge (a.base + headerSize)
    have hcounted := deleteStorage_lower (arenaRelease_lower a.payloadSize (depth + 1)) t
      (s.mem (a.base + headerSize + 72)) (s.mem (a.base + headerSize + 80))
    rw [Heap.remove_comm _ _ (a.base + headerSize), Heap.remove_comm _ _ (a.base + headerSize)]
    change Inv (lower a.payloadSize (Runtime.deleteStorage (Arena.arenaRelease (depth + 1)) t
      (s.mem (a.base + headerSize + 72)) (s.mem (a.base + headerSize + 80)))) _ M
    rw [← hcounted]
    exact inv₃

/-- the storage words of a container; null is in no heap -/
def storageOf (s : Arena) (p : Nat) : List Nat :=
  if isContainer (headerClassId s.mem (p - headerSize)) then [s.mem (p + 72), s.mem (p + 80)] else []

/-- what a release takes out of the heap: the block, and the storage of a container -/
def Heap.release (s : Arena) (heap : Heap) (p : Nat) : Heap :=
  if s.isLive p then (storageOf s p).foldl Heap.remove heap |>.remove p else heap

theorem Inv.release (inv : Inv s heap M) (p : Nat)
    (hstorage : s.isLive p = true → ∀ q ∈ storageOf s p, ¬ Container s heap q) :
    Inv (s.release p) (heap.release s p) M := by
  unfold Arena.release Heap.release
  split_ifs with hlive
  · have hstorage := hstorage hlive
    obtain ⟨cap, h⟩ := (inv.isLive_iff p).mp hlive
    obtain ⟨b, rfl⟩ := inv.base_of_mem h
    have hbase : b + headerSize - headerSize = b := Nat.add_sub_cancel ..
    unfold storageOf at hstorage ⊢
    split_ifs at hstorage ⊢ with hclass
    · exact inv.release_container h hclass (hstorage _ (by simp)) (hstorage _ (by simp)) _
    · refine (inv.release_plain ?_ _).1
      rintro ⟨b', cap', heq, -, hclass'⟩
      obtain rfl : b = b' := by omega
      exact hclass hclass'
  · have habsent : ∀ cap, (p, cap) ∉ heap := fun cap h => hlive ((inv.isLive_iff p).mpr ⟨cap, h⟩)
    have hplain : ¬ Container s heap p := by
      rintro ⟨b, cap, rfl, h, -⟩
      exact habsent cap h
    have := (inv.release_plain hplain ((s.chunks.map Chunk.bump).sum + s.large.length + 1)).1
    rwa [Heap.remove_absent habsent] at this

end Subscript.Runtime
