import Subscript.Runtime.ArenaSweep

/-! Whole runs of the arena, beside the heap that the program sees. The arena keeps to the heap as long as every block
of a container class is large enough for the header that its release resets. -/

namespace Subscript.Runtime

open Memory

variable {s : Arena} {heap : Heap}

/-- what an operation does to the heap -/
noncomputable def ArenaOp.onHeap (s : Arena) (heap : Heap) : ArenaOp → Heap
  | .alloc size classId posId system =>
    let p := (s.alloc size classId posId system).1
    if p = 0 then heap else (p, payloadCapacity size) :: heap
  | .release p => heap.release s p
  | .collect roots => heap.collect s roots
  | .store _ _ => heap

/-- class ids have 32 bits, the system hands out memory that is free, and the program stores into its own blocks -/
def ArenaOp.Proper (s : Arena) (heap : Heap) : ArenaOp → Prop
  | .alloc size classId _ system => classId < 2 ^ 32 ∧ ∀ base, system = some base → Fresh s base (systemSize size)
  | .release _ => True
  | .collect _ => True
  | .store address _ => ∃ e ∈ heap, Within address e

/-- a block of a container class has room for the header, and the storage words of a container that is released name no
container -/
def ArenaOp.Roomy (s : Arena) (heap : Heap) : ArenaOp → Prop
  | .alloc size classId _ _ => isContainer classId = true → 49 ≤ size
  | .release p => s.isLive p = true → ∀ q ∈ storageOf s p, ¬ Container s heap q
  | .collect _ => True
  | .store _ _ => True

/-- the arenas that are reached by operations that satisfy `Ok`, with the heap of the program -/
inductive History (Ok : Arena → Heap → ArenaOp → Prop) : Arena → Heap → Prop
  | new : History Ok .new []
  | step {s : Arena} {heap : Heap} (op : ArenaOp) : History Ok s heap → op.Proper s heap → Ok s heap op →
      History Ok (op.step s) (op.onHeap s heap)

theorem inv_new : Inv .new [] ∅ where
  geo :=
    { chunkOk := fun _ h => nomatch h
      largeOk := fun _ h => nomatch h
      apart := List.Pairwise.nil
      sorted := List.Pairwise.nil
      mapped := fun _ _ => ⟨nofun, fun ⟨_, h, _⟩ => nomatch h⟩
      opened := fun _ _ h => nomatch h }
  owned := fun _ _ h => nomatch h
  above := fun _ h => nomatch h
  large := fun _ h => nomatch h
  nodup := List.nodup_nil
  marked := fun _ _ h => nomatch h
  unmarked := fun _ _ h => nomatch h
  dead := fun _ _ ⟨_, h, _⟩ => nomatch h
  free := fun _ _ => ⟨[], rfl, List.nodup_nil, fun _ => ⟨nofun, fun ⟨_, _, ⟨_, h, _⟩, _⟩ => nomatch h⟩⟩
  bytes := rfl
  containers := fun _ _ h => nomatch h

/-- every operation keeps the invariant -/
theorem Inv.step (inv : Inv s heap ∅) {op : ArenaOp} (hproper : op.Proper s heap) (hroomy : op.Roomy s heap) :
    Inv (op.step s) (op.onHeap s heap) ∅ := by
  cases op with
  | alloc size classId posId system =>
    rw [ArenaOp.step, ArenaOp.onHeap]
    rcases inv.alloc hproper.1 posId hproper.2 hroomy with hnull | ⟨b, hb, inv', -⟩
    · simp only [hnull, if_true]
      exact inv
    · have hne : b + headerSize ≠ 0 := by
        unfold headerSize
        omega
      simp only [hb, hne, if_false]
      exact inv'
  | release p => exact inv.release p hroomy
  | collect roots => exact inv.collect roots
  | store address value =>
    obtain ⟨⟨p, cap⟩, hmem, hwithin⟩ := hproper
    obtain ⟨b, rfl⟩ := inv.base_of_mem hmem
    exact inv.payload hmem (Agree.refl.write hwithin value)

theorem History.inv (h : History ArenaOp.Roomy s heap) : Inv s heap ∅ := by
  induction h with
  | new => exact inv_new
  | step op _ hproper hroomy ih => exact ih.step hproper hroomy

/-- blocks of the heap are apart -/
theorem Inv.apart (inv : Inv s heap ∅) {p p' cap cap' : Nat} (h : (p, cap) ∈ heap) (h' : (p', cap') ∈ heap) (hne : p ≠ p') :
    Apart (p - headerSize, headerSize + cap) (p' - headerSize, headerSize + cap') := by
  obtain ⟨b, rfl⟩ := inv.base_of_mem h
  obtain ⟨b', rfl⟩ := inv.base_of_mem h'
  exact (inv.owned b cap h).apart inv.geo (inv.owned b' cap' h') (by omega)

/-- In every run in which the containers have room: the free list of each class is linked without a cycle or a repetition
and holds just the dead blocks of the class; `is_live` says what is in the heap; the counter is the sum of the
capacities; and an allocation is not in the heap and overlaps nothing in it. -/
theorem arena_history (h : History ArenaOp.Roomy s heap) :
    (∀ cls < numClasses, ∃ l, FreeList s cls l) ∧
      (∀ p, s.isLive p = true ↔ ∃ cap, (p, cap) ∈ heap) ∧
      s.liveBytesCounter = heap.bytes ∧
      ∀ size classId posId system, (ArenaOp.alloc size classId posId system).Proper s heap →
        (ArenaOp.alloc size classId posId system).Roomy s heap → (s.alloc size classId posId system).1 ≠ 0 →
        (∀ cap, ((s.alloc size classId posId system).1, cap) ∉ heap) ∧
        ∀ e ∈ heap, Apart ((s.alloc size classId posId system).1 - headerSize, headerSize + payloadCapacity size)
          (e.1 - headerSize, headerSize + e.2) := by
  have inv := h.inv
  refine ⟨inv.free, inv.isLive_iff, inv.bytes, fun size classId posId system hproper hroomy hne => ?_⟩
  rcases inv.alloc hproper.1 posId hproper.2 hroomy with hnull | ⟨b, hb, inv', habsent⟩
  · rw [hnull] at hne
    exact absurd rfl hne
  · rw [hb]
    refine ⟨habsent, fun e he => inv'.apart List.mem_cons_self (List.mem_cons_of_mem _ he) ?_⟩
    intro heq
    exact habsent e.2 (heq ▸ he)

/-! ### Two runs -/

theorem fresh_new {base size : Nat} (hpos : 0 < base) (hspace : base + size ≤ 2 ^ 64) : Fresh .new base size :=
  ⟨hpos, hspace, fun _ h => nomatch h⟩

theorem History.roomy_release (h : History ArenaOp.Roomy s heap) {p : Nat} (hdead : ∀ q ∈ storageOf s p, s.isLive q = false) :
    (ArenaOp.release p).Roomy s heap := by
  rintro - q hq ⟨_, cap, -, hmem, -⟩
  have hlive := (h.inv.isLive_iff q).mpr ⟨cap, hmem⟩
  exact absurd (hlive.symm.trans (hdead q hq)) nofun

/-- a map and another block of its size class; the map is released, its block is used again, and a collection that is given
the other block takes it -/
def mapRun : List ArenaOp :=
  [.alloc 100 classMap 0 (some 4096), .alloc 100 1 0 none, .release 4112, .alloc 100 2 0 none, .collect [4240]]

def mapState (n : Nat) : Arena := (mapRun.take n).foldl (fun s op => op.step s) .new

theorem history_mapRun : ∃ heap, History ArenaOp.Roomy (mapState 5) heap := by
  have made : History ArenaOp.Roomy (mapState 1) _ := .step (.alloc 100 classMap 0 (some 4096)) .new
    ⟨by decide, fun _ h => Option.some.inj h ▸ fresh_new (by decide) (by decide)⟩ (fun _ => by decide)
  have two : History ArenaOp.Roomy (mapState 2) _ :=
    .step (.alloc 100 1 0 none) made ⟨by decide, nofun⟩ (fun h => absurd h (by decide))
  -- the map is empty, so its storage words are null
  have released : History ArenaOp.Roomy (mapState 3) _ := .step (.release 4112) two trivial (two.roomy_release (by decide))
  have reused : History ArenaOp.Roomy (mapState 4) _ :=
    .step (.alloc 100 2 0 none) released ⟨by decide, nofun⟩ (fun h => absurd h (by decide))
  exact ⟨_, .step (.collect [4240]) reused trivial trivial⟩

theorem arena_history_reuse : ∃ heap, History ArenaOp.Roomy (mapState 5) heap ∧ (mapState 3).isLive 4112 = false ∧
    ((mapState 3).alloc 100 2 0 none).1 = 4112 ∧ (mapState 5).isLive 4112 = false ∧ (∃ cap, (4240, cap) ∈ heap) ∧
    (mapState 5).liveBytesCounter = heap.bytes := by
  obtain ⟨heap, history⟩ := history_mapRun
  obtain ⟨-, live, bytes, -⟩ := arena_history history
  exact ⟨heap, history, by decide, by decide, by decide, (live 4240).mp (by decide), bytes⟩

/-- A block of one byte with the class of a map is released: the header that is reset ends in the next block, which is
live and is not any more. -/
theorem small_container_ends_neighbour : ∃ s heap, History (fun _ _ _ => True) s heap ∧
    (4144, 16) ∈ heap ∧ s.isLive 4144 = false := by
  refine ⟨_, _, .step (.release 4112) (.step (.alloc 1 0 0 none) (.step (.alloc 1 classMap 0 (some 4096)) .new ?_ trivial)
    ?_ trivial) trivial trivial, ?_, ?_⟩
  · exact ⟨by decide, fun _ h => Option.some.inj h ▸ fresh_new (by decide) (by decide)⟩
  · exact ⟨by decide, fun _ h => nomatch h⟩
  · decide
  · decide

end Subscript.Runtime
