import Subscript.Runtime.ArenaRelease

/-! The mark phase of a collection: with the bound it is given it pops every word, and it stamps just the blocks that
are reached from the roots. -/

namespace Subscript.Runtime

open List Memory
open scoped Classical

variable {s t : Arena} {heap : Heap} {M : Set Nat} {b cap : Nat} {roots : List Nat}

/-- `q` is a word that is scanned in the block at `b` -/
def Scanned (s : Arena) (b cap q : Nat) : Prop :=
  classHoldsNoHandle (headerClassId s.mem b) = false ∧ ∃ i < cap / 8, s.mem (b + headerSize + i * 8) = q

/-- the blocks of the heap that are reached from the words of the roots -/
inductive Reached (s : Arena) (heap : Heap) (roots : List Nat) : Nat → Prop
  | root {p cap : Nat} : p ∈ roots → (p, cap) ∈ heap → Reached s heap roots p
  | scan {b cap q cap' : Nat} : Reached s heap roots (b + headerSize) → (b + headerSize, cap) ∈ heap →
      Scanned s b cap q → (q, cap') ∈ heap → Reached s heap roots q

/-- the marking changes the state words of the heap only -/
structure Stamped (s t : Arena) (heap : Heap) : Prop where
  tables : t = { s with mem := t.mem }
  words : ∀ b cap, (b + headerSize, cap) ∈ heap → ∀ a, Within a (b + 8, 8 + cap) → t.mem a = s.mem a

theorem Stamped.scanned (h : Stamped s t heap) (hmem : (b + headerSize, cap) ∈ heap) {q : Nat} :
    q ∈ t.scanPayload (b + headerSize) cap (headerClassId t.mem b) ↔ Scanned s b cap q := by
  have hclass : headerClassId t.mem b = headerClassId s.mem b := by
    rw [headerClassId, headerClassId, h.words b cap hmem]
    simp only [Within]
    omega
  have hword : ∀ i < cap / 8, t.mem (b + headerSize + i * 8) = s.mem (b + headerSize + i * 8) := fun i hi =>
    h.words b cap hmem _ (by simp only [Within, headerSize]; omega)
  unfold Arena.scanPayload Scanned
  rw [hclass]
  cases classHoldsNoHandle (headerClassId s.mem b) with
  | true => simp
  | false =>
    simp only [Bool.false_eq_true, if_false, true_and, mem_reverse, mem_map, mem_range]
    exact exists_congr fun i => and_congr_right fun hi => by rw [hword i hi]

theorem scanPayload_length (t : Arena) (p cap classId : Nat) : (t.scanPayload p cap classId).length ≤ cap / 8 := by
  unfold Arena.scanPayload
  split_ifs
  · exact Nat.zero_le _
  · rw [length_reverse, length_map, length_range]

/-- a word is taken if it is a block of the heap that is not marked -/
theorem Inv.markTarget (inv : Inv t heap M) (addr : Nat) :
    (∃ b cap, addr = b + headerSize ∧ (addr, cap) ∈ heap ∧ addr ∉ M ∧ t.markTarget addr = some (b, cap)) ∨
      (∀ cap, (addr, cap) ∈ heap → addr ∈ M) ∧ t.markTarget addr = none := by
  by_cases hin : ∃ cap, (addr, cap) ∈ heap
  · obtain ⟨cap, h⟩ := hin
    obtain ⟨b, rfl⟩ := inv.base_of_mem h
    have hstate : t.mem b = liveState ↔ b + headerSize ∉ M := by
      constructor
      · intro hlive hM
        exact markState_ne_liveState ((inv.marked b cap h hM).symm.trans hlive)
      · exact inv.unmarked b cap h
    have htarget : t.markTarget (b + headerSize) = if t.mem b = liveState then some (b, cap) else none := by
      unfold Arena.markTarget
      cases inv.found h with
      | block _ hlookup hsize => simp only [hlookup, hsize]
      | large _ hbase hsize hnone hlookup => simp only [hnone, hlookup, hbase, hsize]
    rw [htarget]
    by_cases hM : b + headerSize ∈ M
    · exact .inr ⟨fun _ _ => hM, if_neg fun hlive => hstate.mp hlive hM⟩
    · exact .inl ⟨b, cap, rfl, h, hM, if_pos (hstate.mpr hM)⟩
  · refine .inr ⟨fun cap h => absurd ⟨cap, h⟩ hin, ?_⟩
    unfold Arena.markTarget
    cases hlookup : t.lookupBlock addr with
    | some found =>
      obtain ⟨hgrid, rfl⟩ := grid_of_lookupBlock inv.geo hlookup
      have hdead := inv.dead _ _ hgrid fun cap h => hin ⟨cap, h⟩
      simp only [hdead]
      exact if_neg fun h => liveState_ne_deadState h.symm
    | none =>
      cases hlarge : t.large.lookup addr with
      | none => rfl
      | some a => exact absurd ⟨_, inv.large _ (lookup_eq_some hlarge)⟩ hin

/-! ### The loop -/

/-- the blocks of the heap that are not in the set -/
noncomputable def Heap.without (heap : Heap) (M : Set Nat) : Heap := heap.filter fun e => e.1 ∉ M

theorem Heap.mem_without {e : Nat × Nat} : e ∈ heap.without M ↔ e ∈ heap ∧ e.1 ∉ M := by
  rw [Heap.without, mem_filter, decide_eq_true_eq]

theorem Heap.without_insert (heap : Heap) (M : Set Nat) (p : Nat) : heap.without (insert p M) = (heap.without M).remove p := by
  rw [Heap.remove, Heap.without, Heap.without, filter_filter]
  refine filter_congr fun e _ => ?_
  simp [not_or]

theorem Heap.without_eq_self (h : ∀ e ∈ heap, e.1 ∉ M) : heap.without M = heap :=
  filter_eq_self.mpr fun e he => decide_eq_true (h e he)

theorem Heap.without_without (heap : Heap) (S S' : Set Nat) : (heap.without S).without S' = heap.without (S ∪ S') := by
  rw [Heap.without, Heap.without, Heap.without, filter_filter]
  refine filter_congr fun e _ => ?_
  rw [Bool.eq_iff_iff]
  simp only [Bool.and_eq_true, decide_eq_true_eq, Set.mem_union, not_or]
  exact and_comm

theorem Heap.without_congr {S S' : Set Nat} (h : ∀ e ∈ heap, (e.1 ∈ S ↔ e.1 ∈ S')) : heap.without S = heap.without S' := by
  refine filter_congr fun e he => ?_
  rw [Bool.eq_iff_iff, decide_eq_true_eq, decide_eq_true_eq, not_iff_not]
  exact h e he

/-- the words that the unmarked blocks may still push -/
noncomputable def pendingWords (heap : Heap) (M : Set Nat) : Nat :=
  Heap.bytes ((heap.without M).map fun e => (e.1, e.2 / 8))

theorem pendingWords_insert {p : Nat} (hnodup : (heap.map Prod.fst).Nodup) (h : (p, cap) ∈ heap) (hp : p ∉ M) :
    pendingWords heap M = cap / 8 + pendingWords heap (insert p M) := by
  have hrest : (heap.without (insert p M)).map (fun e => (e.1, e.2 / 8)) =
      Heap.remove ((heap.without M).map fun e => (e.1, e.2 / 8)) p := by
    rw [Heap.without_insert, Heap.remove, Heap.remove, filter_map]
    rfl
  rw [pendingWords, pendingWords, hrest]
  refine Heap.bytes_remove ?_ ?_
  · rw [map_map]
    exact hnodup.sublist (filter_sublist.map _)
  · exact mem_map.mpr ⟨(p, cap), Heap.mem_without.mpr ⟨h, hp⟩, rfl⟩

theorem pendingWords_le (heap : Heap) : pendingWords heap ∅ ≤ heap.bytes := by
  have hall : heap.without ∅ = heap := Heap.without_eq_self fun e _ => Set.notMem_empty e.1
  rw [pendingWords, hall, Heap.bytes, Heap.bytes, map_map]
  exact sum_le_sum fun e _ => Nat.div_le_self ..

/-- between two rounds: what is marked is reached, and what a marked block names is marked or still to be popped -/
structure Marking (s t : Arena) (heap : Heap) (roots work : List Nat) (M : Set Nat) : Prop where
  inv : Inv t heap M
  stamped : Stamped s t heap
  sound : ∀ p ∈ M, Reached s heap roots p
  pending : ∀ p ∈ work, ∀ cap, (p, cap) ∈ heap → Reached s heap roots p
  roots : ∀ p ∈ roots, ∀ cap, (p, cap) ∈ heap → p ∈ M ∨ p ∈ work
  closed : ∀ b cap q cap', b + headerSize ∈ M → (b + headerSize, cap) ∈ heap → Scanned s b cap q → (q, cap') ∈ heap →
    q ∈ M ∨ q ∈ work

/-- a word that is marked already, or that names no block -/
theorem Marking.skip {addr : Nat} {work : List Nat} (h : Marking s t heap roots (addr :: work) M)
    (haddr : ∀ cap, (addr, cap) ∈ heap → addr ∈ M) : Marking s t heap roots work M where
  inv := h.inv
  stamped := h.stamped
  sound := h.sound
  pending := fun p hp => h.pending p (mem_cons_of_mem _ hp)
  roots := fun p hp cap hcap => by
    rcases h.roots p hp cap hcap with hM | hwork
    · exact .inl hM
    · rcases mem_cons.mp hwork with rfl | hwork
      · exact .inl (haddr cap hcap)
      · exact .inr hwork
  closed := fun b cap q cap' hM hcap hscan hq => by
    rcases h.closed b cap q cap' hM hcap hscan hq with hM | hwork
    · exact .inl hM
    · rcases mem_cons.mp hwork with rfl | hwork
      · exact .inl (haddr cap' hq)
      · exact .inr hwork

/-- a block is marked and its words are pushed -/
theorem Marking.mark {work : List Nat} (h : Marking s t heap roots ((b + headerSize) :: work) M)
    (hmem : (b + headerSize, cap) ∈ heap) :
    Marking s { t with mem := write t.mem b markState } heap roots
      (t.scanPayload (b + headerSize) cap (headerClassId t.mem b) ++ work) (insert (b + headerSize) M) := by
  have hreached : Reached s heap roots (b + headerSize) := h.pending _ mem_cons_self cap hmem
  have hscanned := fun q => h.stamped.scanned (q := q) hmem
  have hstay : ∀ {q}, q ∈ M ∨ q ∈ (b + headerSize) :: work → q ∈ insert (b + headerSize) M ∨
      q ∈ t.scanPayload (b + headerSize) cap (headerClassId t.mem b) ++ work := by
    rintro q (hM | hwork)
    · exact .inl (Set.mem_insert_of_mem _ hM)
    · rcases mem_cons.mp hwork with rfl | hwork
      · exact .inl (Set.mem_insert ..)
      · exact .inr (mem_append_right _ hwork)
  refine ⟨?_, ⟨?_, ?_⟩, ?_, ?_, ?_, ?_⟩
  · refine h.inv.stamp hmem (.inl ⟨Set.mem_insert .., rfl⟩) fun p hp => ?_
    exact or_iff_right hp
  · have := h.stamped.tables
    rw [this]
  · intro b' cap' h' a ha
    have hne : a ≠ b := by
      rintro rfl
      by_cases heq : b' = a
      · simp only [Within] at ha
        omega
      · have hw := (within_header (b := a) (Nat.le_add_right headerSize cap)).1
        refine ((h.inv.owned a cap hmem).apart h.inv.geo (h.inv.owned b' cap' h') (Ne.symm heq)).not_within hw ?_
        simp only [Within, headerSize] at *
        omega
    show write t.mem b markState a = _
    rw [write, Function.update_of_ne hne]
    exact h.stamped.words b' cap' h' a ha
  · rintro p (rfl | hp)
    · exact hreached
    · exact h.sound p hp
  · intro p hp cap' hcap'
    rcases mem_append.mp hp with hp | hp
    · exact .scan hreached hmem ((hscanned p).mp hp) hcap'
    · exact h.pending p (mem_cons_of_mem _ hp) cap' hcap'
  · intro p hp cap' hcap'
    exact hstay (h.roots p hp cap' hcap')
  · rintro b' cap' q cap'' hM hcap' hscan hq
    rcases hM with heq | hM
    · obtain rfl : b' = b := by omega
      obtain rfl := Heap.cap_unique h.inv.nodup hmem hcap'
      exact .inr (mem_append_left _ ((hscanned q).mpr hscan))
    · exact hstay (h.closed b' cap' q cap'' hM hcap' hscan hq)

/-- with nothing left to pop, the marked blocks are those that are reached -/
theorem Marking.done (h : Marking s t heap roots [] M) : M = {p | Reached s heap roots p} := by
  refine Set.Subset.antisymm h.sound fun p hp => ?_
  induction hp with
  | root hroot hmem => exact (h.roots _ hroot _ hmem).resolve_right (by simp)
  | scan _ hmem hscan hq ih => exact (h.closed _ _ _ _ ih hmem hscan hq).resolve_right (by simp)

theorem arenaMark_marks (rounds : Nat) (work : List Nat) (t : Arena) (M : Set Nat) (h : Marking s t heap roots work M)
    (hrounds : work.length + pendingWords heap M ≤ rounds) :
    Marking s (Arena.arenaMark rounds work t) heap roots [] {p | Reached s heap roots p} := by
  induction rounds generalizing work t M with
  | zero =>
    obtain rfl : work = [] := eq_nil_of_length_eq_zero (by omega)
    rw [← h.done]
    exact h
  | succ rounds ih =>
    cases work with
    | nil =>
      rw [← h.done]
      exact h
    | cons addr work =>
      rw [length_cons] at hrounds
      rw [Arena.arenaMark]
      rcases h.inv.markTarget addr with ⟨b, cap, rfl, hmem, hM, htarget⟩ | ⟨hskip, htarget⟩
      · simp only [htarget]
        refine ih _ _ _ (h.mark hmem) ?_
        have hsum := pendingWords_insert h.inv.nodup hmem hM
        have hscan := scanPayload_length t (b + headerSize) cap (headerClassId t.mem b)
        rw [length_append]
        omega
      · simp only [htarget]
        exact ih _ _ _ (h.skip hskip) (by omega)

/-- the mark phase of a collection -/
theorem Inv.marked_reached (inv : Inv s heap ∅) (roots : List Nat) :
    Marking s (Arena.arenaMark (roots.length + s.liveBytesCounter) roots.reverse s) heap roots []
      {p | Reached s heap roots p} := by
  refine arenaMark_marks _ _ s ∅ ?_ ?_
  · refine ⟨inv, ⟨rfl, fun _ _ _ _ _ => rfl⟩, fun _ hp => hp.elim, fun p hp cap h => ?_, fun p hp cap h => ?_, ?_⟩
    · exact .root (mem_reverse.mp hp) h
    · exact .inr (mem_reverse.mpr hp)
    · exact fun _ _ _ _ hM => hM.elim
  · rw [length_reverse, inv.bytes]
    exact Nat.add_le_add_left (pendingWords_le heap) _

end Subscript.Runtime
