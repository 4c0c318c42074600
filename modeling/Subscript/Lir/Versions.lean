import Subscript.Flow.Fixpoint
import Subscript.Lir.Syntax
import Mathlib.Data.Finset.Lattice.Fold
import Mathlib.Order.Lattice.Nat

/-! The versions of one value across suspensions (`thread_suspension_live_ins`, the loop for one origin).
Each suspend successor brings a version of its own; below that, a block takes the version that reaches it,
and a block that two versions reach gets a parameter to merge them. -/

namespace Subscript.Lir

open Option List

/-- the numbers of a set in the order in which an ordered set is iterated -/
def ascending (s : Finset Nat) : List Nat := (List.range (s.sup id + 1)).filter (· ∈ s)

theorem mem_ascending {s : Finset Nat} {n : Nat} : n ∈ ascending s ↔ n ∈ s := by
  simp only [ascending, mem_filter, mem_range, decide_eq_true_eq, and_iff_right_iff_imp]
  exact fun h => Nat.lt_succ_of_le (Finset.le_sup (f := id) h)

theorem pairwise_ascending (s : Finset Nat) : (ascending s).Pairwise (· < ·) :=
  pairwise_lt_range.filter _

theorem ascending_eq_nil {s : Finset Nat} : ascending s = [] ↔ s = ∅ := by
  simp only [eq_nil_iff_forall_not_mem, mem_ascending, Finset.eq_empty_iff_forall_notMem]

theorem le_of_ascending {s : Finset Nat} {n m : Nat} {rest : List Nat} (h : ascending s = n :: rest) (hm : m ∈ s) :
    n ≤ m := by
  have hp := pairwise_ascending s
  rw [h] at hp
  rw [← mem_ascending, h] at hm
  rcases mem_cons.mp hm with rfl | hm
  · exact le_rfl
  · exact ((pairwise_cons.mp hp).1 m hm).le

/-- a version for each block -/
abbrev VersionTable := List (Option ValueId)

def VersionTable.of (table : VersionTable) (b : BlockId) : Option ValueId := table.getD b none

structure Versions where
  merges : VersionTable
  incoming : VersionTable
  outgoing : VersionTable
  /-- the number of values so far, which is the next parameter -/
  fresh : ValueId
  deriving DecidableEq

/-- the block graph as the loop reads it -/
structure VersionGraph where
  count : Nat
  predecessors : BlockId → List BlockId
  reachable : BlockId → Bool

/-- what the loop reads of the function about one origin -/
structure OriginFacts where
  origin : ValueId
  /-- the parameter that a suspend successor carries the origin in -/
  special : BlockId → Option ValueId
  /-- the block has the origin as a parameter, or is the entry of a function that has -/
  entryDefinition : BlockId → Bool
  instructionDefinition : BlockId → Bool
  live : BlockId → Bool

variable (G : VersionGraph) (O : OriginFacts)

/-- the versions that leave the reachable predecessors of a block -/
def reaching (s : Versions) (b : BlockId) : Finset ValueId :=
  (((G.predecessors b).filter G.reachable).filterMap s.outgoing.of).toFinset

/-- the version that enters a block, out of those that reach it; none where they must be merged -/
def chooseVersion (live : Bool) : List ValueId → Option (Option ValueId)
  | [] => some none
  | [version] => some (some version)
  | first :: _ :: _ => if live then none else some (some first)

/-- the version that enters block `b`; none where a parameter must be added to merge several -/
def nextIncoming (s : Versions) (b : BlockId) : Option (Option ValueId) :=
  match O.special b with
  | some parameter => some (some parameter)
  | none =>
    if O.entryDefinition b then some (some O.origin)
    else
      match s.merges.of b with
      | some parameter => some (some parameter)
      | none => chooseVersion (O.live b) (ascending (reaching G s b))

def OriginFacts.defines (b : BlockId) : Bool := O.entryDefinition b || O.instructionDefinition b

/-- the version that leaves a block which `next` enters -/
def OriginFacts.leaving (b : BlockId) (next : Option ValueId) : Option ValueId :=
  if O.defines b then some O.origin else next

def Versions.record (s : Versions) (b : BlockId) (next : Option ValueId) (changed : Bool) : Versions × Bool :=
  ({ s with incoming := s.incoming.set b next, outgoing := s.outgoing.set b (O.leaving b next) },
    changed || s.incoming.of b ≠ next || s.outgoing.of b ≠ O.leaving b next)

/-- The source pushes the new parameter to the function at once; here it is only numbered. -/
def Versions.merge (s : Versions) (b : BlockId) : Versions :=
  { s with merges := s.merges.set b (some s.fresh), fresh := s.fresh + 1 }

def versionVisit (state : Versions × Bool) (b : BlockId) : Versions × Bool :=
  if G.reachable b then
    match nextIncoming G O state.1 b with
    | some next => state.1.record O b next state.2
    | none => (state.1.merge b).record O b (some state.1.fresh) true
  else state

/-- one pass of the loop over all blocks, with whether anything changed -/
def versionRound (s : Versions) : Versions × Bool := (List.range G.count).foldl (versionVisit G O) (s, false)

def versionStart (fresh : ValueId) : Versions :=
  ⟨List.replicate G.count none, List.replicate G.count none, List.replicate G.count none, fresh⟩

def versions (fuel : Nat) (fresh : ValueId) : Option Versions :=
  Flow.loop (versionRound G O) fuel (versionStart G fresh)

variable {G O} {s : Versions} {b c : BlockId} {changed : Bool}

theorem VersionTable.of_set (table : VersionTable) (b c : BlockId) (v : Option ValueId) :
    VersionTable.of (table.set b v) c = if b = c ∧ c < table.length then v else table.of c := by
  simp only [VersionTable.of, getD_eq_getElem?_getD, getElem?_set]
  by_cases hbc : b = c
  · subst hbc
    by_cases hb : b < table.length <;> simp [hb]
  · simp [hbc]

theorem VersionTable.of_set_ne {table : VersionTable} (h : c ≠ b) (v : Option ValueId) :
    VersionTable.of (table.set b v) c = table.of c := by
  rw [of_set, if_neg fun hc => h hc.1.symm]

theorem VersionTable.of_set_self {table : VersionTable} (h : b < table.length) (v : Option ValueId) :
    VersionTable.of (table.set b v) b = v := by
  rw [of_set, if_pos ⟨rfl, h⟩]

theorem mem_reaching {v : ValueId} : v ∈ reaching G s b ↔
    ∃ p ∈ G.predecessors b, G.reachable p = true ∧ s.outgoing.of p = some v := by
  simp only [reaching, List.mem_toFinset, mem_filterMap, mem_filter]
  exact ⟨fun ⟨p, ⟨h₁, h₂⟩, h₃⟩ => ⟨p, h₁, h₂, h₃⟩, fun ⟨p, h₁, h₂, h₃⟩ => ⟨p, ⟨h₁, h₂⟩, h₃⟩⟩

/-- a visit leaves the entries of the other blocks -/
theorem versionVisit_of_ne (state : Versions × Bool) (h : c ≠ b) :
    (versionVisit G O state b).1.merges.of c = state.1.merges.of c ∧
    (versionVisit G O state b).1.incoming.of c = state.1.incoming.of c ∧
    (versionVisit G O state b).1.outgoing.of c = state.1.outgoing.of c := by
  unfold versionVisit
  split
  · split
    · exact ⟨rfl, VersionTable.of_set_ne h _, VersionTable.of_set_ne h _⟩
    · exact ⟨VersionTable.of_set_ne h _, VersionTable.of_set_ne h _, VersionTable.of_set_ne h _⟩
  · exact ⟨rfl, rfl, rfl⟩

/-- What every state of the loop satisfies. A block gets at most one merge parameter, each from a number of
its own, and only where the origin is live and nothing else supplies a version. -/
structure VersionsInv (G : VersionGraph) (O : OriginFacts) (start : ValueId) (s : Versions) : Prop where
  lengthMerges : s.merges.length = G.count
  lengthIncoming : s.incoming.length = G.count
  lengthOutgoing : s.outgoing.length = G.count
  le_fresh : start ≤ s.fresh
  merge : ∀ {b w}, s.merges.of b = some w → start ≤ w ∧ w < s.fresh ∧ G.reachable b = true ∧
    O.live b = true ∧ O.special b = none ∧ O.entryDefinition b = false
  merge_inj : ∀ {b c w}, s.merges.of b = some w → s.merges.of c = some w → b = c
  merge_surj : ∀ {w}, start ≤ w → w < s.fresh → ∃ b, s.merges.of b = some w
  known : ∀ {b w}, s.incoming.of b = some w ∨ s.outgoing.of b = some w →
    w = O.origin ∨ (∃ c, O.special c = some w) ∨ ∃ c, s.merges.of c = some w

section Inv

variable {start : ValueId}

theorem nextIncoming_cases (G : VersionGraph) (O : OriginFacts) (s : Versions) (b : BlockId) :
    (∃ p, O.special b = some p ∧ nextIncoming G O s b = some (some p)) ∨ O.special b = none ∧
      (O.entryDefinition b = true ∧ nextIncoming G O s b = some (some O.origin) ∨ O.entryDefinition b = false ∧
        ((∃ p, s.merges.of b = some p ∧ nextIncoming G O s b = some (some p)) ∨ s.merges.of b = none ∧
          nextIncoming G O s b = chooseVersion (O.live b) (ascending (reaching G s b)))) := by
  cases hs : O.special b with
  | some p => exact .inl ⟨p, rfl, by simp [nextIncoming, hs]⟩
  | none =>
    refine .inr ⟨rfl, ?_⟩
    cases he : O.entryDefinition b with
    | true => exact .inl ⟨rfl, by simp [nextIncoming, hs, he]⟩
    | false =>
      refine .inr ⟨rfl, ?_⟩
      cases hm : s.merges.of b with
      | some p => exact .inl ⟨p, rfl, by simp [nextIncoming, hs, he, hm]⟩
      | none => exact .inr ⟨rfl, by simp [nextIncoming, hs, he, hm]⟩

theorem chooseVersion_head {live : Bool} {versions : List ValueId} {next : Option ValueId}
    (h : chooseVersion live versions = some next) : next = versions.head? := by
  match versions, h with
  | [], h => exact (some.inj h).symm
  | [v], h => exact (some.inj h).symm
  | v :: _ :: _, h =>
    simp only [chooseVersion] at h
    split at h
    · exact absurd h (by simp)
    · exact (some.inj h).symm

theorem nextIncoming_none (h : nextIncoming G O s b = none) :
    O.special b = none ∧ O.entryDefinition b = false ∧ s.merges.of b = none ∧ O.live b = true := by
  rcases nextIncoming_cases G O s b with ⟨p, -, hp⟩ | ⟨hs, ⟨-, he⟩ | ⟨he, ⟨p, -, hp⟩ | ⟨hm, hc⟩⟩⟩
  · exact absurd (h.symm.trans hp) (by simp)
  · exact absurd (h.symm.trans he) (by simp)
  · exact absurd (h.symm.trans hp) (by simp)
  · refine ⟨hs, he, hm, ?_⟩
    rw [h] at hc
    cases hl : O.live b with
    | true => rfl
    | false =>
      rw [hl] at hc
      match ascending (reaching G s b), hc with
      | [], hc => exact absurd hc (by simp [chooseVersion])
      | [v], hc => exact absurd hc (by simp [chooseVersion])
      | v :: _ :: _, hc => exact absurd hc (by simp [chooseVersion])

/-- versions are merged only where two different ones arrive -/
theorem reaching_of_nextIncoming_none (h : nextIncoming G O s b = none) :
    ∃ v ∈ reaching G s b, ∃ w ∈ reaching G s b, v ≠ w := by
  obtain ⟨hs, he, hm, -⟩ := nextIncoming_none h
  simp only [nextIncoming, hs, he, hm, Bool.false_eq_true, if_false] at h
  match hlist : ascending (reaching G s b), h with
  | [], h => exact absurd h (by simp [chooseVersion])
  | [v], h => exact absurd h (by simp [chooseVersion])
  | v :: w :: rest, _ =>
    have hpair := pairwise_ascending (reaching G s b)
    rw [hlist] at hpair
    have hmem : ∀ x ∈ v :: w :: rest, x ∈ reaching G s b := fun x hx => mem_ascending.mp (hlist ▸ hx)
    exact ⟨v, hmem v mem_cons_self, w, hmem w (mem_cons_of_mem _ mem_cons_self),
      Nat.ne_of_lt ((pairwise_cons.mp hpair).1 w mem_cons_self)⟩

theorem nextIncoming_known (hinv : VersionsInv G O start s) {w : ValueId} (h : nextIncoming G O s b = some (some w)) :
    w = O.origin ∨ (∃ c, O.special c = some w) ∨ ∃ c, s.merges.of c = some w := by
  rcases nextIncoming_cases G O s b with ⟨p, hp, hn⟩ | ⟨-, ⟨-, hn⟩ | ⟨-, ⟨p, hp, hn⟩ | ⟨-, hn⟩⟩⟩
  · exact .inr (.inl ⟨b, hp.trans (mem_unique hn h)⟩)
  · exact .inl (some.inj (mem_unique h hn))
  · exact .inr (.inr ⟨b, hp.trans (mem_unique hn h)⟩)
  · have hmem := mem_of_mem_head? (chooseVersion_head (hn.symm.trans h)).symm
    obtain ⟨p, -, -, hp⟩ := mem_reaching.mp (mem_ascending.mp hmem)
    exact hinv.known (.inr hp)

theorem record_inv (changed : Bool) (hinv : VersionsInv G O start s) {next : Option ValueId}
    (hnext : ∀ w, next = some w → w = O.origin ∨ (∃ c, O.special c = some w) ∨ ∃ c, s.merges.of c = some w) :
    VersionsInv G O start (s.record O b next changed).1 := by
  have hleaving : ∀ w, O.leaving b next = some w →
      w = O.origin ∨ (∃ c, O.special c = some w) ∨ ∃ c, s.merges.of c = some w := by
    intro w hw
    unfold OriginFacts.leaving at hw
    split_ifs at hw
    · exact .inl (some.inj hw).symm
    · exact hnext w hw
  refine ⟨hinv.lengthMerges, by simpa [Versions.record] using hinv.lengthIncoming,
    by simpa [Versions.record] using hinv.lengthOutgoing, hinv.le_fresh, hinv.merge,
    hinv.merge_inj, hinv.merge_surj, ?_⟩
  rintro c w (h | h)
  · simp only [Versions.record, VersionTable.of_set] at h
    split_ifs at h
    · exact hnext w h
    · exact hinv.known (.inl h)
  · simp only [Versions.record, VersionTable.of_set] at h
    split_ifs at h
    · exact hleaving w h
    · exact hinv.known (.inr h)

theorem merge_inv (hinv : VersionsInv G O start s) (hb : b < G.count) (hr : G.reachable b = true)
    (hnone : nextIncoming G O s b = none) : VersionsInv G O start (s.merge b) := by
  obtain ⟨hspecial, hentry, hmerge, hlive⟩ := nextIncoming_none hnone
  have hof : ∀ c, (s.merge b).merges.of c = if c = b then some s.fresh else s.merges.of c := by
    intro c
    simp only [Versions.merge, VersionTable.of_set, hinv.lengthMerges]
    refine if_congr ⟨fun h => h.1.symm, fun h => ⟨h.symm, h ▸ hb⟩⟩ rfl rfl
  have hlt : ∀ {c w}, s.merges.of c = some w → w < s.fresh := fun h => (hinv.merge h).2.1
  refine ⟨by simpa [Versions.merge] using hinv.lengthMerges, hinv.lengthIncoming, hinv.lengthOutgoing,
    Nat.le_succ_of_le hinv.le_fresh, ?_, ?_, ?_, ?_⟩
  · intro c w h
    rw [hof] at h
    split_ifs at h with hc
    · obtain rfl := some.inj h
      subst hc
      exact ⟨hinv.le_fresh, Nat.lt_succ_self _, hr, hlive, hspecial, hentry⟩
    · obtain ⟨h₁, h₂, h₃⟩ := hinv.merge h
      exact ⟨h₁, Nat.lt_succ_of_lt h₂, h₃⟩
  · intro c d w hc hd
    rw [hof] at hc hd
    split_ifs at hc with hcb
    · split_ifs at hd with hdb
      · rw [hcb, hdb]
      · exact absurd (some.inj hc ▸ hlt hd) (lt_irrefl _)
    · split_ifs at hd with hdb
      · exact absurd (some.inj hd ▸ hlt hc) (lt_irrefl _)
      · exact hinv.merge_inj hc hd
  · intro w hle hw
    rcases Nat.lt_succ_iff_lt_or_eq.mp hw with hw | rfl
    · obtain ⟨c, hc⟩ := hinv.merge_surj hle hw
      refine ⟨c, ?_⟩
      rw [hof, if_neg, hc]
      rintro rfl
      exact absurd (hmerge.symm.trans hc) (by simp)
    · exact ⟨b, by rw [hof, if_pos rfl]⟩
  · intro c w h
    rcases hinv.known h with h | h | ⟨d, hd⟩
    · exact .inl h
    · exact .inr (.inl h)
    · refine .inr (.inr ⟨d, ?_⟩)
      rw [hof, if_neg, hd]
      rintro rfl
      exact absurd (hmerge.symm.trans hd) (by simp)

theorem versionVisit_inv (changed : Bool) (hinv : VersionsInv G O start s) (hb : b < G.count) :
    VersionsInv G O start (versionVisit G O (s, changed) b).1 := by
  unfold versionVisit
  split
  · rename_i hr
    split
    · rename_i next hnext
      refine record_inv _ hinv fun w hw => nextIncoming_known (b := b) hinv ?_
      rw [hnext, hw]
    · rename_i hnone
      refine record_inv _ (merge_inv hinv hb hr hnone) fun w hw => .inr (.inr ⟨b, ?_⟩)
      rw [← hw]
      exact VersionTable.of_set_self (hinv.lengthMerges ▸ hb) _
  · exact hinv

theorem versionFold_inv (changed : Bool) (n : Nat) (hn : n ≤ G.count) (hinv : VersionsInv G O start s) :
    VersionsInv G O start ((List.range n).foldl (versionVisit G O) (s, changed)).1 := by
  induction n with
  | zero => exact hinv
  | succ n ih =>
    rw [range_succ, foldl_append, foldl_cons, foldl_nil]
    exact versionVisit_inv _ (ih (Nat.le_of_succ_le hn)) hn

theorem versionRound_inv (s : Versions) (hinv : VersionsInv G O start s) :
    VersionsInv G O start (versionRound G O s).1 := versionFold_inv false G.count le_rfl hinv

theorem versionStart_of (n : Nat) (c : BlockId) : VersionTable.of (List.replicate n none) c = none := by
  simp only [VersionTable.of, getD_eq_getElem?_getD, getElem?_replicate]
  split_ifs <;> rfl

theorem versionStart_inv : VersionsInv G O start (versionStart G start) := by
  refine ⟨by simp [versionStart], by simp [versionStart], by simp [versionStart], le_rfl, ?_, ?_, ?_, ?_⟩
  · intro b w h
    simp [versionStart, versionStart_of] at h
  · intro b c w h
    simp [versionStart, versionStart_of] at h
  · intro w h h'
    exact absurd h' (Nat.not_lt.mpr h)
  · intro b w h
    simp [versionStart, versionStart_of] at h

end Inv

/-- a table that a further round leaves as it is -/
def Versions.Stable (G : VersionGraph) (O : OriginFacts) (s : Versions) : Prop :=
  ∀ b < G.count, G.reachable b = true →
    nextIncoming G O s b = some (s.incoming.of b) ∧ s.outgoing.of b = O.leaving b (s.incoming.of b)

/-- a visit that reports no change makes none -/
theorem versionVisit_unchanged {start : ValueId} (hinv : VersionsInv G O start s) (hb : b < G.count)
    (h : (versionVisit G O (s, changed) b).2 = false) :
    changed = false ∧ (versionVisit G O (s, changed) b).1 = s ∧ (G.reachable b = true →
      nextIncoming G O s b = some (s.incoming.of b) ∧ s.outgoing.of b = O.leaving b (s.incoming.of b)) := by
  unfold versionVisit at h ⊢
  split_ifs at h ⊢ with hr
  · split at h
    · rename_i next hnext
      simp only [Versions.record, Bool.or_eq_false_iff, decide_eq_false_iff_not, not_not] at h
      obtain ⟨⟨hc, hin⟩, hout⟩ := h
      have hself : ∀ {table : VersionTable}, b < table.length → table.set b (table.of b) = table := by
        intro table hl
        simp [VersionTable.of, hl]
      refine ⟨hc, ?_, fun _ => ⟨by rw [hnext, hin], by rw [hout, hin]⟩⟩
      simp only [Versions.record]
      rw [← hout, ← hin, hself (hinv.lengthIncoming ▸ hb), hself (hinv.lengthOutgoing ▸ hb)]
    · simp [Versions.record] at h
  · exact ⟨h, rfl, fun h => absurd h (by simpa using hr)⟩

theorem versionFold_unchanged {start : ValueId} (hinv : VersionsInv G O start s) (n : Nat) (hn : n ≤ G.count)
    (h : ((List.range n).foldl (versionVisit G O) (s, changed)).2 = false) :
    changed = false ∧ ((List.range n).foldl (versionVisit G O) (s, changed)).1 = s ∧
      ∀ b < n, G.reachable b = true →
        nextIncoming G O s b = some (s.incoming.of b) ∧ s.outgoing.of b = O.leaving b (s.incoming.of b) := by
  induction n with
  | zero => exact ⟨h, rfl, fun b hb => absurd hb (Nat.not_lt_zero b)⟩
  | succ n ih =>
    rw [range_succ, foldl_append, foldl_cons, foldl_nil] at h ⊢
    have hinv' := versionFold_inv changed n (Nat.le_of_succ_le hn) hinv
    obtain ⟨hc, hs, hvisit⟩ := versionVisit_unchanged hinv' hn h
    obtain ⟨hc', hs', hall⟩ := ih (Nat.le_of_succ_le hn) hc
    rw [hs'] at hvisit
    refine ⟨hc', hs.trans hs', fun b hb => ?_⟩
    rcases Nat.lt_succ_iff_lt_or_eq.mp hb with hb | rfl
    · exact hall b hb
    · exact hvisit

/-- What the loop returns is stable. -/
theorem versions_stable {fuel start : Nat} (h : versions G O fuel start = some s) :
    VersionsInv G O start s ∧ s.Stable G O := by
  obtain ⟨k, -, -, hstable, rfl⟩ := Flow.loop_eq_some_iff.mp h
  have hinv : VersionsInv G O start (Flow.rounds (versionRound G O) k (versionStart G start)) :=
    Flow.rounds_inv versionRound_inv versionStart_inv k
  obtain ⟨-, hs, hall⟩ := versionFold_unchanged hinv G.count le_rfl hstable
  rw [versionRound, hs]
  exact ⟨hinv, hall⟩

end Subscript.Lir
