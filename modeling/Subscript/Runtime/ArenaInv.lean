import Mathlib.Algebra.Order.BigOperators.Group.List
import Mathlib.Algebra.Order.Ring.Nat
import Subscript.Memory.Links
import Subscript.Runtime.ArenaGrid

/-! The invariant of the arena, against the heap that the program sees: the payloads that were allocated and not
released, with their capacities. The state words say which blocks are in the heap, and the free lists hold the
others. -/

namespace Subscript.Runtime

open List Memory

/-- payloads and their capacities -/
abbrev Heap := List (Nat × Nat)

def Heap.bytes (heap : Heap) : Nat := (heap.map Prod.snd).sum

def Heap.remove (heap : Heap) (p : Nat) : Heap := heap.filter fun e => e.1 ≠ p

/-- the free list of a class: linked, without repetition, and just the dead blocks of the class -/
structure FreeList (s : Arena) (cls : Nat) (l : List Nat) : Prop where
  linked : Linked s.mem (s.freeHeads cls) l
  nodup : l.Nodup
  exact : ∀ p, p ∈ l ↔ ∃ b, p = b + headerSize ∧ Grid s b cls ∧ s.mem b = deadState

/-- `M` are the payloads that a collection has marked so far -/
structure Inv (s : Arena) (heap : Heap) (M : Set Nat) : Prop where
  geo : Geometry s
  owned : ∀ b cap, (b + headerSize, cap) ∈ heap → Owned s (b, headerSize + cap)
  above : ∀ e ∈ heap, headerSize ≤ e.1
  large : ∀ entry ∈ s.large, (entry.1, entry.2.payloadSize) ∈ heap
  nodup : (heap.map Prod.fst).Nodup
  marked : ∀ b cap, (b + headerSize, cap) ∈ heap → b + headerSize ∈ M → s.mem b = markState
  unmarked : ∀ b cap, (b + headerSize, cap) ∈ heap → b + headerSize ∉ M → s.mem b = liveState
  dead : ∀ b cls, Grid s b cls → (∀ cap, (b + headerSize, cap) ∉ heap) → s.mem b = deadState
  free : ∀ cls < numClasses, ∃ l, FreeList s cls l
  bytes : s.liveBytesCounter = heap.bytes
  containers : ∀ b cap, (b + headerSize, cap) ∈ heap → isContainer (headerClassId s.mem b) = true → 104 ≤ cap

variable {s : Arena} {heap : Heap} {M : Set Nat} {b cls cap p : Nat}

/-! ### The heap -/

theorem Heap.mem_remove {e : Nat × Nat} : e ∈ heap.remove p ↔ e ∈ heap ∧ e.1 ≠ p := by
  rw [Heap.remove, mem_filter]
  simp

theorem Heap.remove_absent (h : ∀ cap, (p, cap) ∉ heap) : heap.remove p = heap := by
  refine filter_eq_self.mpr fun e he => decide_eq_true ?_
  rintro rfl
  exact h e.2 he

theorem Heap.remove_comm (heap : Heap) (p q : Nat) : (heap.remove p).remove q = (heap.remove q).remove p :=
  filter_comm ..

theorem Heap.cap_unique (h : (heap.map Prod.fst).Nodup) {cap' : Nat} (hmem : (p, cap) ∈ heap) (hmem' : (p, cap') ∈ heap) :
    cap = cap' := by
  have := inj_on_of_nodup_map h hmem hmem' rfl
  exact (Prod.mk.inj this).2

theorem Heap.bytes_remove (h : (heap.map Prod.fst).Nodup) (hmem : (p, cap) ∈ heap) :
    heap.bytes = cap + (heap.remove p).bytes := by
  induction heap with
  | nil => cases hmem
  | cons e heap ih =>
    obtain ⟨hfresh, hrest⟩ := nodup_cons.mp h
    rcases mem_cons.mp hmem with rfl | htail
    · have habsent : ∀ cap', (p, cap') ∉ heap := fun cap' hcap' => hfresh (mem_map.mpr ⟨_, hcap', rfl⟩)
      have : Heap.remove ((p, cap) :: heap) p = heap := by
        rw [Heap.remove, filter_cons_of_neg (by simp)]
        exact Heap.remove_absent habsent
      rw [this]
      rfl
    · have hne : e.1 ≠ p := by
        rintro rfl
        exact hfresh (mem_map.mpr ⟨_, htail, rfl⟩)
      have : Heap.remove (e :: heap) p = e :: Heap.remove heap p := filter_cons_of_pos (by simpa using hne)
      have ih := ih hrest htail
      rw [this]
      simp only [Heap.bytes, map_cons, sum_cons] at *
      omega

/-- the live blocks do not fill the address space -/
theorem Heap.bytes_le (geo : Geometry s) (hnodup : (heap.map Prod.fst).Nodup) (habove : ∀ e ∈ heap, headerSize ≤ e.1)
    (howned : ∀ b cap, (b + headerSize, cap) ∈ heap → Owned s (b, headerSize + cap)) : heap.bytes ≤ usizeMax := by
  have hregion : ∀ e ∈ heap, Owned s (e.1 - headerSize, headerSize + e.2) := fun e he => by
    have := habove e he
    exact howned _ _ (by rwa [Nat.sub_add_cancel this])
  have hapart : (heap.map fun e => (e.1 - headerSize, headerSize + e.2)).Pairwise Apart := by
    refine pairwise_map.mpr ?_
    refine (pairwise_map.mp hnodup).imp_of_mem fun {e e'} he he' hne => ?_
    refine (hregion e he).apart geo (hregion e' he') ?_
    have := habove e he
    have := habove e' he'
    omega
  have hsum := sum_le_of_apart 1 (2 ^ 64) hapart fun r hr => by
    obtain ⟨e, he, rfl⟩ := mem_map.mp hr
    have := (hregion e he).space geo
    exact ⟨this.1, this.2.2⟩
  have hle : heap.bytes ≤ ((heap.map fun e => (e.1 - headerSize, headerSize + e.2)).map Prod.snd).sum := by
    rw [Heap.bytes, map_map]
    refine sum_le_sum fun e _ => ?_
    show e.2 ≤ headerSize + e.2
    omega
  exact Nat.le_trans hle hsum

/-! ### Words -/

/-- the words outside the region are as before -/
def Agree (r : Region) (mem mem' : Words) : Prop := ∀ a, ¬ Within a r → mem' a = mem a

theorem Agree.write {r : Region} {mem mem' : Words} (h : Agree r mem mem') {a : Nat} (ha : Within a r) (value : Nat) :
    Agree r mem (write mem' a value) := by
  intro a' ha'
  have hne : a' ≠ a := by
    rintro rfl
    exact ha' ha
  rw [Runtime.write, Function.update_of_ne hne]
  exact h a' ha'

theorem Agree.refl {r : Region} {mem : Words} : Agree r mem mem := fun _ _ => rfl

/-- what happens in one block does not reach another -/
theorem Agree.other {mem' : Words} {b' n n' : Nat} (hagree : Agree (b, n) s.mem mem') (geo : Geometry s)
    (h : Owned s (b, n)) (h' : Owned s (b', n')) (hne : b' ≠ b) {a : Nat} (ha : Within a (b', n')) : mem' a = s.mem a :=
  hagree a ((h'.apart geo h hne).not_within ha)

theorem within_header {n : Nat} (h : headerSize ≤ n) : Within b (b, n) ∧ Within (b + 8) (b, n) := by
  simp only [Within, headerSize] at *
  omega

theorem Owned.header (geo : Geometry s) {n : Nat} (h : Owned s (b, n)) : Within b (b, n) ∧ Within (b + 8) (b, n) :=
  within_header (h.space geo).2.1

theorem Grid.within_link (geo : Geometry s) (h : Grid s b cls) : Within (b + headerSize) (b, smallestBlock <<< cls) := by
  obtain ⟨chunk, hchunk, i, -, -, rfl⟩ := h
  have hsize := (geo.chunkOk chunk hchunk).size_pos
  rw [(geo.chunkOk chunk hchunk).size] at hsize
  simp only [Within, headerSize, smallestBlock] at *
  omega

/-- a free list whose blocks stay dead, with their links -/
theorem FreeList.kept {s' : Arena} {l : List Nat} (h : FreeList s cls l) (hheads : s'.freeHeads cls = s.freeHeads cls)
    (hgrid : ∀ b, Grid s' b cls ∧ s'.mem b = deadState ↔ Grid s b cls ∧ s.mem b = deadState)
    (hlinks : ∀ b, Grid s b cls → s.mem b = deadState → s'.mem (b + headerSize) = s.mem (b + headerSize)) :
    FreeList s' cls l where
  linked := by
    rw [hheads]
    refine h.linked.congr fun p hp => ?_
    obtain ⟨b, rfl, hb, hdead⟩ := (h.exact p).mp hp
    exact hlinks b hb hdead
  nodup := h.nodup
  exact := by
    intro p
    rw [h.exact]
    exact exists_congr fun b => and_congr_right fun _ => (hgrid b).symm

theorem liveState_ne_deadState : liveState ≠ deadState := by decide

theorem markState_ne_deadState : markState ≠ deadState := by decide

theorem markState_ne_liveState : markState ≠ liveState := by decide

/-- a block of the heap is not dead -/
theorem Inv.alive (inv : Inv s heap M) (h : (b + headerSize, cap) ∈ heap) : s.mem b ≠ deadState := by
  by_cases hM : b + headerSize ∈ M
  · rw [inv.marked b cap h hM]
    exact markState_ne_deadState
  · rw [inv.unmarked b cap h hM]
    exact liveState_ne_deadState

/-- the entry of a block of the grid has the capacity of its class -/
theorem Inv.block_cap (inv : Inv s heap M) (hgrid : Grid s b cls) (h : (b + headerSize, cap) ∈ heap) :
    cap = smallestBlock <<< cls - headerSize := by
  have := (inv.owned b cap h).same_start inv.geo hgrid.owned
  omega

/-- What a step has to show that only takes blocks out of the heap, when the headers of the others stay. -/
theorem Inv.frame (inv : Inv s heap M) {s' : Arena} {heap' : Heap} (geo : Geometry s') (hsub : heap'.Sublist heap)
    (howned : ∀ b cap, (b + headerSize, cap) ∈ heap' → Owned s' (b, headerSize + cap))
    (hlarge : ∀ entry ∈ s'.large, (entry.1, entry.2.payloadSize) ∈ heap')
    (hheader : ∀ b cap, (b + headerSize, cap) ∈ heap' → s'.mem b = s.mem b ∧ s'.mem (b + 8) = s.mem (b + 8))
    (hdead : ∀ b cls, Grid s' b cls → (∀ cap, (b + headerSize, cap) ∉ heap') → s'.mem b = deadState)
    (hfree : ∀ cls < numClasses, ∃ l, FreeList s' cls l) (hbytes : s'.liveBytesCounter = heap'.bytes) : Inv s' heap' M where
  geo := geo
  owned := howned
  above e he := inv.above e (hsub.subset he)
  large := hlarge
  nodup := inv.nodup.sublist (hsub.map _)
  marked b cap h hM := by
    rw [(hheader b cap h).1]
    exact inv.marked b cap (hsub.subset h) hM
  unmarked b cap h hM := by
    rw [(hheader b cap h).1]
    exact inv.unmarked b cap (hsub.subset h) hM
  dead := hdead
  free := hfree
  bytes := hbytes
  containers b cap h hclass := by
    refine inv.containers b cap (hsub.subset h) ?_
    rw [headerClassId, ← (hheader b cap h).2]
    exact hclass

/-! ### Stores -/

/-- writes into the payload of a live block -/
theorem Inv.payload (inv : Inv s heap M) (h : (b + headerSize, cap) ∈ heap) {mem' : Words}
    (hagree : Agree (b + headerSize, cap) s.mem mem') : Inv { s with mem := mem' } heap M := by
  have howned := inv.owned b cap h
  have hwhole : Agree (b, headerSize + cap) s.mem mem' := fun a ha => hagree a fun hin => ha <| by
    simp only [Within] at *
    omega
  -- no header word lies in a payload
  have hstate : ∀ b' n, Owned s (b', n) → mem' b' = s.mem b' ∧ mem' (b' + 8) = s.mem (b' + 8) := by
    intro b' n hb'
    by_cases heq : b' = b
    · constructor <;> refine hagree _ ?_ <;> simp only [Within, headerSize] <;> omega
    · obtain ⟨hw, hw'⟩ := hb'.header inv.geo
      exact ⟨hwhole.other inv.geo howned hb' heq hw, hwhole.other inv.geo howned hb' heq hw'⟩
  refine inv.frame inv.geo.tables (.refl heap) inv.owned inv.large (fun b' cap' h' => hstate b' _ (inv.owned b' cap' h'))
    (fun b' cls' hgrid habsent => ?_) (fun cls' hcls => ?_) inv.bytes
  · show mem' b' = _
    rw [(hstate b' _ (Grid.owned hgrid)).1]
    exact inv.dead b' cls' hgrid habsent
  · obtain ⟨l, hl⟩ := inv.free cls' hcls
    refine ⟨l, hl.kept rfl (fun b' => ?_) fun b' hgrid hdead => ?_⟩
    · refine and_congr_right fun hgrid => ?_
      show mem' b' = _ ↔ _
      rw [(hstate b' _ (Grid.owned hgrid)).1]
    · have hne : b' ≠ b := by
        rintro rfl
        exact inv.alive h hdead
      exact hwhole.other inv.geo howned hgrid.owned hne (hgrid.within_link inv.geo)

/-! ### State words -/

/-- a state word of the heap is rewritten: the block becomes marked, or it is not marked any more -/
theorem Inv.stamp (inv : Inv s heap M) (h : (b + headerSize, cap) ∈ heap) {M' : Set Nat} {state : Nat}
    (hstate : b + headerSize ∈ M' ∧ state = markState ∨ b + headerSize ∉ M' ∧ state = liveState)
    (hM : ∀ p, p ≠ b + headerSize → (p ∈ M' ↔ p ∈ M)) : Inv { s with mem := write s.mem b state } heap M' := by
  have howned := inv.owned b cap h
  obtain ⟨hfirst, -⟩ := within_header (Nat.le_add_right headerSize cap)
  have hagree : Agree (b, headerSize + cap) s.mem (write s.mem b state) := Agree.refl.write hfirst state
  have hother : ∀ b', b' ≠ b → write s.mem b state b' = s.mem b' := fun b' hne => Function.update_of_ne hne ..
  have hself : write s.mem b state b = state := Function.update_self ..
  have hne : ∀ {b'}, b' ≠ b → b' + headerSize ≠ b + headerSize := by omega
  exact
    { geo := inv.geo.tables
      owned := inv.owned
      above := inv.above
      large := inv.large
      nodup := inv.nodup
      marked := fun b' cap' h' hmark => by
        show write s.mem b state b' = _
        by_cases heq : b' = b
        · subst heq
          rcases hstate with ⟨-, rfl⟩ | ⟨hnot, -⟩
          · exact hself
          · exact absurd hmark hnot
        · rw [hother b' heq]
          exact inv.marked b' cap' h' ((hM _ (hne heq)).mp hmark)
      unmarked := fun b' cap' h' hmark => by
        show write s.mem b state b' = _
        by_cases heq : b' = b
        · subst heq
          rcases hstate with ⟨hin, -⟩ | ⟨-, rfl⟩
          · exact absurd hin hmark
          · exact hself
        · rw [hother b' heq]
          exact inv.unmarked b' cap' h' fun hin => hmark ((hM _ (hne heq)).mpr hin)
      dead := fun b' cls' hgrid habsent => by
        show write s.mem b state b' = _
        have heq : b' ≠ b := by
          rintro rfl
          exact habsent cap h
        rw [hother b' heq]
        exact inv.dead b' cls' hgrid habsent
      free := fun cls' hcls => by
        obtain ⟨l, hl⟩ := inv.free cls' hcls
        refine ⟨l, hl.kept rfl (fun b' => and_congr_right fun hgrid => ?_) fun b' hgrid hdead => ?_⟩
        · show write s.mem b state b' = _ ↔ _
          by_cases heq : b' = b
          · subst heq
            rw [hself]
            refine iff_of_false ?_ (inv.alive h)
            rcases hstate with ⟨-, rfl⟩ | ⟨-, rfl⟩
            · exact markState_ne_deadState
            · exact liveState_ne_deadState
          · rw [hother b' heq]
        · have heq : b' ≠ b := by
            rintro rfl
            exact inv.alive h hdead
          exact hagree.other inv.geo howned hgrid.owned heq (hgrid.within_link inv.geo)
      bytes := inv.bytes
      containers := fun b' cap' h' hclass => by
        refine inv.containers b' cap' h' ?_
        have hword : write s.mem b state (b' + 8) = s.mem (b' + 8) := by
          by_cases heq : b' = b
          · exact Function.update_of_ne (by omega) ..
          · exact hagree.other inv.geo howned (inv.owned b' cap' h') heq
              (within_header (Nat.le_add_right headerSize cap')).2
        rw [headerClassId, ← hword]
        exact hclass }

/-! ### Release -/

theorem Grid.agree_retire (geo : Geometry s) (h : Grid s b cls) :
    Agree (b, smallestBlock <<< cls) s.mem (s.retire b cls).mem :=
  (Agree.refl.write (h.owned.header geo).1 _).write (h.within_link geo) _

/-- a block of the heap joins the free list -/
theorem Inv.retire (inv : Inv s heap M) (hgrid : Grid s b cls) (h : (b + headerSize, cap) ∈ heap) :
    Inv (s.retire b cls) (heap.remove (b + headerSize)) M := by
  have howned := hgrid.owned
  have hmem : (s.retire b cls).mem = write (write s.mem b deadState) (b + headerSize) (s.freeHeads cls) := rfl
  have hself : (s.retire b cls).mem b = deadState := by
    rw [hmem, write, Function.update_of_ne (by unfold headerSize; omega), write, Function.update_self]
  have hother : ∀ {b' n}, Owned s (b', n) → b' ≠ b → ∀ {a}, Within a (b', n) → (s.retire b cls).mem a = s.mem a :=
    fun hb' hne _ ha => (hgrid.agree_retire inv.geo).other inv.geo howned hb' hne ha
  have hne : ∀ {b' cap'}, (b' + headerSize, cap') ∈ heap.remove (b + headerSize) → b' ≠ b := by
    rintro b' cap' h' rfl
    exact (Heap.mem_remove.mp h').2 rfl
  have hold : ∀ {b' cap'}, (b' + headerSize, cap') ∈ heap.remove (b + headerSize) → (b' + headerSize, cap') ∈ heap :=
    fun h' => (Heap.mem_remove.mp h').1
  have hcap := inv.block_cap hgrid h
  refine inv.frame inv.geo.tables filter_sublist (fun b' cap' h' => inv.owned b' cap' (hold h'))
    (fun entry hentry => ?_) (fun b' cap' h' => ?_) (fun b' cls' hgrid' habsent => ?_) (fun cls' hcls => ?_) ?_
  · refine Heap.mem_remove.mpr ⟨inv.large entry hentry, fun heq => ?_⟩
    have hkey := (inv.geo.largeOk entry hentry).key
    exact grid_or_large inv.geo hgrid hentry (by simp only at heq; omega)
  · have hb' := inv.owned b' cap' (hold h')
    exact ⟨hother hb' (hne h') (hb'.header inv.geo).1, hother hb' (hne h') (hb'.header inv.geo).2⟩
  · by_cases heq : b' = b
    · rw [heq, hself]
    · have hb' : Owned s (b', _) := Grid.owned hgrid'
      rw [hother hb' heq (hb'.header inv.geo).1]
      refine inv.dead b' cls' hgrid' fun cap' h' => habsent cap' (Heap.mem_remove.mpr ⟨h', ?_⟩)
      omega
  · obtain ⟨l, hl⟩ := inv.free cls' hcls
    have hkept : ∀ b', Grid s b' cls' → s.mem b' = deadState →
        b' ≠ b ∧ (s.retire b cls).mem b' = deadState ∧
          (s.retire b cls).mem (b' + headerSize) = s.mem (b' + headerSize) := by
      intro b' hgrid' hdead
      have heq : b' ≠ b := by
        rintro rfl
        exact inv.alive h hdead
      have hb' := hgrid'.owned
      rw [hother hb' heq (hb'.header inv.geo).1, hother hb' heq (hgrid'.within_link inv.geo)]
      exact ⟨heq, hdead, rfl⟩
    have hback : ∀ b', b' ≠ b → Grid s b' cls' → (s.retire b cls).mem b' = deadState → s.mem b' = deadState := by
      intro b' heq hgrid' hdead
      have hb' := hgrid'.owned
      rwa [hother hb' heq (hb'.header inv.geo).1] at hdead
    by_cases hsame : cls' = cls
    · subst hsame
      -- the block is the new head
      have hnew : b + headerSize ∉ l := fun hin => by
        obtain ⟨b', heq, -, hdead⟩ := (hl.exact _).mp hin
        obtain rfl : b = b' := by omega
        exact inv.alive h hdead
      refine ⟨(b + headerSize) :: l, ?_, nodup_cons.mpr ⟨hnew, hl.nodup⟩, fun p => ?_⟩
      · have hhead : (s.retire b cls').freeHeads cls' = b + headerSize := Function.update_self ..
        rw [hhead]
        have hpush : Linked (Function.update s.mem (b + headerSize) (s.freeHeads cls')) (b + headerSize)
            ((b + headerSize) :: l) := hl.linked.push (by unfold headerSize; omega) hnew
        refine hpush.congr fun p hp => ?_
        rcases mem_cons.mp hp with rfl | hp
        · rw [hmem, write, Function.update_self, Function.update_self]
        · obtain ⟨b', rfl, hgrid', hdead⟩ := (hl.exact p).mp hp
          rw [(hkept b' hgrid' hdead).2.2, Function.update_of_ne]
          have := (hkept b' hgrid' hdead).1
          omega
      · rw [mem_cons, hl.exact]
        constructor
        · rintro (rfl | ⟨b', rfl, hgrid', hdead⟩)
          · exact ⟨b, rfl, hgrid, hself⟩
          · exact ⟨b', rfl, hgrid', (hkept b' hgrid' hdead).2.1⟩
        · rintro ⟨b', rfl, hgrid', hdead⟩
          by_cases heq : b' = b
          · exact .inl (by rw [heq])
          · exact .inr ⟨b', rfl, hgrid', hback b' heq hgrid' hdead⟩
    · refine ⟨l, hl.kept (Function.update_of_ne hsame ..) (fun b' => ?_) fun b' hgrid' hdead =>
        (hkept b' hgrid' hdead).2.2⟩
      refine and_congr_right fun hgrid' => ⟨fun hdead => ?_, fun hdead => (hkept b' hgrid' hdead).2.1⟩
      refine hback b' ?_ hgrid' hdead
      rintro rfl
      exact hsame (grid_cls_unique inv.geo hgrid' hgrid)
  · have := Heap.bytes_remove inv.nodup h
    have hbytes := inv.bytes
    show s.liveBytesCounter - (smallestBlock <<< cls - headerSize) = _
    omega

end Subscript.Runtime
