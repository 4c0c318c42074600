import Subscript.Lir.Versions
import Subscript.Flow.Sweep
import Mathlib.Algebra.Order.Monoid.Unbundled.WithTop
import Mathlib.Order.Interval.Finset.Nat

/-! When the loop over the versions of a value ends. Where the value is live, differing versions are merged
and the merge stays; where it is dead a block takes the smallest version that reaches it, and versions that
were overtaken can go round a loop for ever. They do not where a single version arrives, nor where one round takes a
version round the loop. -/

namespace Subscript.Lir

open List Flow

/-- the graph of the loop is the part of `E` that `entry` reaches -/
structure VersionGraph.Describes (G : VersionGraph) (E : BlockId → BlockId → Prop) (entry : BlockId) : Prop where
  lt : ∀ {b}, G.reachable b = true → b < G.count
  source_lt : ∀ {p b}, E p b → p < G.count
  target_lt : ∀ {p b}, E p b → b < G.count
  predecessors : ∀ {p b}, b < G.count → (p ∈ G.predecessors b ↔ E p b)
  reachable : ∀ {b}, b < G.count → (G.reachable b = true ↔ Reachable E entry b)

/-- liveness goes back along the edges, up to a definition -/
structure OriginFacts.Flows (O : OriginFacts) (E : BlockId → BlockId → Prop) (entry : BlockId) : Prop where
  entry : O.live entry = true → O.entryDefinition entry = true
  edge : ∀ {b c}, E b c → O.live c = true → O.defines b = true ∨ O.live b = true

/-- the blocks that have a version of their own, because the origin is defined in them or carried to them -/
def OriginFacts.Source (O : OriginFacts) (b : BlockId) : Prop := O.defines b = true ∨ O.special b ≠ none

/-- the version that leaves such a block -/
def OriginFacts.supplied (O : OriginFacts) (b : BlockId) : Option ValueId := O.leaving b (O.special b)

/-- the origin is dead at the block, and several versions of it arrive -/
structure OriginFacts.Stale (O : OriginFacts) (E : BlockId → BlockId → Prop) (entry b : BlockId) : Prop where
  dead : O.live b = false
  notSource : ¬ O.Source b
  contested : Contested E entry O.Source b

/-- the edge into the least block of a cycle of such blocks starts where edges to larger numbers lead from that block -/
def OriginFacts.Climbs (O : OriginFacts) (E : BlockId → BlockId → Prop) (entry : BlockId) : Prop :=
  ∀ u v l, O.Stale E entry v → E u v → v ≤ u → Path (fun p q => E p q ∧ O.Stale E entry q ∧ v ≤ q) v l u →
    ∃ l', Path (Rises E {b | O.Stale E entry b}) v l' u

variable {G : VersionGraph} {O : OriginFacts} {s : Versions} {b p : BlockId} {k : ValueId}

section Round

/-- the state in the middle of a round, before block `n` is visited -/
def midRound (G : VersionGraph) (O : OriginFacts) (s : Versions) (n : Nat) : Versions :=
  ((List.range n).foldl (versionVisit G O) (s, false)).1

theorem midRound_succ (n : Nat) :
    ∃ changed, midRound G O s (n + 1) = (versionVisit G O (midRound G O s n, changed) n).1 := by
  refine ⟨((List.range n).foldl (versionVisit G O) (s, false)).2, ?_⟩
  rw [midRound, range_succ, foldl_append, foldl_cons, foldl_nil]
  rfl

theorem versionVisit_fresh (state : Versions × Bool) (b : BlockId) :
    state.1.fresh ≤ (versionVisit G O state b).1.fresh := by
  unfold versionVisit
  split
  · split
    · exact le_rfl
    · exact Nat.le_succ _
  · exact le_rfl

theorem midRound_fresh_mono {n m : Nat} (h : n ≤ m) : (midRound G O s n).fresh ≤ (midRound G O s m).fresh := by
  induction m, h using Nat.le_induction with
  | base => exact le_rfl
  | succ m _ ih =>
    obtain ⟨changed, hm⟩ := midRound_succ m
    rw [hm]
    exact ih.trans (versionVisit_fresh (midRound G O s m, changed) m)

/-- the entries of a block -/
def Versions.row (s : Versions) (c : BlockId) : Option ValueId × Option ValueId × Option ValueId :=
  (s.merges.of c, s.incoming.of c, s.outgoing.of c)

theorem midRound_row {n m : Nat} {c : BlockId} (h : n ≤ m) :
    c < n ∨ m ≤ c → (midRound G O s m).row c = (midRound G O s n).row c := by
  induction m, h using Nat.le_induction with
  | base => exact fun _ => rfl
  | succ m hm ih =>
    intro hc
    obtain ⟨changed, hsucc⟩ := midRound_succ m
    have hne : c ≠ m := hc.elim (fun hc => Nat.ne_of_lt (lt_of_lt_of_le hc hm)) Nat.ne_of_gt
    obtain ⟨h₁, h₂, h₃⟩ := versionVisit_of_ne (midRound G O s m, changed) hne
    rw [← ih (hc.imp_right Nat.le_of_succ_le), hsucc, Versions.row, h₁, h₂, h₃]
    rfl

/-- entries of blocks not yet visited are the old ones, those of visited blocks the final ones -/
theorem midRound_of {n : Nat} (hn : n ≤ G.count) (c : BlockId) :
    (midRound G O s n).merges.of c = (if c < n then (versionRound G O s).1.merges.of c else s.merges.of c) ∧
    (midRound G O s n).incoming.of c = (if c < n then (versionRound G O s).1.incoming.of c else s.incoming.of c) ∧
    (midRound G O s n).outgoing.of c = (if c < n then (versionRound G O s).1.outgoing.of c else s.outgoing.of c) := by
  split_ifs with hc
  · have hrow : (midRound G O s n).row c = (versionRound G O s).1.row c := (midRound_row hn (.inl hc)).symm
    simpa [Versions.row] using hrow
  · have hrow : (midRound G O s n).row c = s.row c := midRound_row (Nat.zero_le n) (.inr (Nat.le_of_not_lt hc))
    simpa [Versions.row] using hrow

theorem nextIncoming_congr {s' : Versions} (hm : s.merges.of b = s'.merges.of b)
    (ho : ∀ p ∈ G.predecessors b, s.outgoing.of p = s'.outgoing.of p) : nextIncoming G O s b = nextIncoming G O s' b := by
  have hreach : reaching G s b = reaching G s' b := by
    ext v
    simp only [mem_reaching]
    exact exists_congr fun p => and_congr_right fun hp => by rw [ho p hp]
  rw [nextIncoming, nextIncoming, hm, hreach]

/-- What a round without a new merge gives a reachable block: the version chosen out of those that its
predecessors have at the visit. -/
theorem versionRound_of (hinv : VersionsInv G O k s) (hfresh : (versionRound G O s).1.fresh = s.fresh)
    (hb : b < G.count) (hr : G.reachable b = true) :
    nextIncoming G O (midRound G O s b) b = some ((versionRound G O s).1.incoming.of b) ∧
    (versionRound G O s).1.outgoing.of b = O.leaving b ((versionRound G O s).1.incoming.of b) ∧
    (versionRound G O s).1.merges.of b = s.merges.of b := by
  have hmid : (midRound G O s (b + 1)).fresh = (midRound G O s b).fresh := by
    have h₁ := midRound_fresh_mono (G := G) (O := O) (s := s) (Nat.zero_le b)
    have h₂ := midRound_fresh_mono (G := G) (O := O) (s := s) (Nat.le_succ b)
    have h₃ := midRound_fresh_mono (G := G) (O := O) (s := s) (show b + 1 ≤ G.count from hb)
    have h₄ : (midRound G O s G.count).fresh = (midRound G O s 0).fresh := hfresh
    exact le_antisymm (h₃.trans (h₄.le.trans h₁)) h₂
  have hinv' := versionFold_inv false b hb.le hinv
  obtain ⟨changed, hsucc⟩ := midRound_succ b
  obtain ⟨hm, hi, ho⟩ := midRound_of (Nat.succ_le_of_lt hb) b
  rw [if_pos (Nat.lt_succ_self b)] at hm hi ho
  obtain ⟨hm₀, -, -⟩ := midRound_of hb.le b
  rw [if_neg (lt_irrefl b)] at hm₀
  rw [hsucc, versionVisit, if_pos hr] at hm hi ho hmid
  cases hnext : nextIncoming G O (midRound G O s b) b with
  | none =>
    simp only [hnext, Versions.record, Versions.merge] at hmid
    exact absurd hmid (Nat.succ_ne_self _)
  | some next =>
    simp only [hnext, Versions.record] at hm hi ho
    rw [VersionTable.of_set_self (hinv'.lengthIncoming ▸ hb)] at hi
    rw [VersionTable.of_set_self (hinv'.lengthOutgoing ▸ hb)] at ho
    rw [← hi, ← ho, ← hm, hm₀]
    exact ⟨rfl, rfl, rfl⟩

/-- a round that ends with the tables it began with reports no change -/
theorem versionRound_unchanged (hinv : VersionsInv G O k s) (hfresh : (versionRound G O s).1.fresh = s.fresh)
    (hin : ∀ b < G.count, (versionRound G O s).1.incoming.of b = s.incoming.of b)
    (hout : ∀ b < G.count, (versionRound G O s).1.outgoing.of b = s.outgoing.of b) : (versionRound G O s).2 = false := by
  have hall : ∀ n ≤ G.count, ((List.range n).foldl (versionVisit G O) (s, false)).2 = false := by
    intro n hn
    induction n with
    | zero => rfl
    | succ n ih =>
      rw [range_succ, foldl_append, foldl_cons, foldl_nil]
      have hc := ih (Nat.le_of_succ_le hn)
      obtain ⟨-, hi₀, ho₀⟩ := midRound_of (Nat.le_of_succ_le hn) n
      rw [if_neg (lt_irrefl n)] at hi₀ ho₀
      have hnext := fun hr => versionRound_of hinv hfresh hn hr
      simp only [midRound] at hi₀ ho₀ hnext
      generalize (List.range n).foldl (versionVisit G O) (s, false) = state at hc hi₀ ho₀ hnext ⊢
      unfold versionVisit
      split
      · rename_i hr
        obtain ⟨hnext, hleave, -⟩ := hnext hr
        rw [hnext]
        simp only [Versions.record, Bool.or_eq_false_iff, decide_eq_false_iff_not, not_not]
        refine ⟨⟨hc, ?_⟩, ?_⟩
        · exact hi₀.trans (hin n hn).symm
        · rw [← hleave]
          exact ho₀.trans (hout n hn).symm
      · exact hc
  exact hall G.count le_rfl

end Round

/-! ### Where the versions come from -/

section Brought

variable {E : BlockId → BlockId → Prop} {entry : BlockId} {w : ValueId}

/-- `w` is the version of a source that arrives at `b`, or several sources arrive there -/
def OriginFacts.Arrives (O : OriginFacts) (E : BlockId → BlockId → Prop) (entry b : BlockId) (w : ValueId) : Prop :=
  Contested E entry O.Source b ∨
    ∃ c, Reachable E entry c ∧ Delivers E O.Source c b ∧ O.supplied c = some w

theorem OriginFacts.Arrives.contested {v : ValueId} (hv : O.Arrives E entry b v) (hw : O.Arrives E entry b w)
    (hne : v ≠ w) : Contested E entry O.Source b := by
  rcases hv with h | ⟨c, hc, hcb, hv⟩
  · exact h
  rcases hw with h | ⟨d, hd, hdb, hw⟩
  · exact h
  refine ⟨c, d, ?_, hc, hd, hcb, hdb⟩
  rintro rfl
  exact hne (Option.mem_unique hv hw)

/-- What the tables hold at any time. -/
structure VersionsBrought (G : VersionGraph) (O : OriginFacts) (E : BlockId → BlockId → Prop) (entry : BlockId)
    (s : Versions) : Prop where
  source : ∀ {b w}, O.Source b → s.outgoing.of b = some w → O.supplied b = some w
  arrives : ∀ {b w}, ¬ O.Source b → s.outgoing.of b = some w → O.Arrives E entry b w
  merged : ∀ {b w}, s.merges.of b = some w → Contested E entry O.Source b ∧
    ∃ p q, p ≠ q ∧ E p b ∧ E q b ∧ Reachable E entry p ∧ Reachable E entry q
  held : ∀ {b}, ¬ O.Source b → s.outgoing.of b ≠ none →
    s.merges.of b ≠ none ∨ ∃ p ∈ G.predecessors b, G.reachable p = true ∧ s.outgoing.of p ≠ none

theorem VersionsBrought.edge (h : VersionsBrought G O E entry s) (hE : E p b) (hr : Reachable E entry p)
    (hw : s.outgoing.of p = some w) : O.Arrives E entry b w := by
  by_cases hp : O.Source p
  · exact .inr ⟨p, hr, .edge hp hE, h.source hp hw⟩
  · rcases h.arrives hp hw with hc | ⟨c, hc, hcp, hv⟩
    · exact .inl (hc.snoc hp hE)
    · exact .inr ⟨c, hc, hcp.snoc hp hE, hv⟩

/-- a block without a version of its own takes the merge, or chooses -/
theorem nextIncoming_of_not_source (hs : ¬ O.Source b) : nextIncoming G O s b =
    (s.merges.of b).elim (chooseVersion (O.live b) (ascending (reaching G s b))) (some ∘ some) := by
  rcases nextIncoming_cases G O s b with ⟨m, hsp, -⟩ | ⟨-, ⟨he, -⟩ | ⟨-, ⟨m, hm, hn⟩ | ⟨hm, hn⟩⟩⟩
  · exact absurd (.inr (by rw [hsp]; simp)) hs
  · exact absurd (.inl (by simp [OriginFacts.defines, he])) hs
  · rw [hn, hm, Option.elim_some, Function.comp_apply]
  · rw [hn, hm, Option.elim_none]

theorem OriginFacts.leaving_of_not_source (hb : ¬ O.Source b) (next : Option ValueId) : O.leaving b next = next := by
  rw [leaving, if_neg fun hd => hb (.inl hd)]

/-- what a visit does to its own block -/
theorem versionVisit_self (hinv : VersionsInv G O k s) (hb : b < G.count) (hr : G.reachable b = true) (changed : Bool) :
    (∃ next, nextIncoming G O s b = some next ∧
      (versionVisit G O (s, changed) b).1.merges.of b = s.merges.of b ∧
      (versionVisit G O (s, changed) b).1.outgoing.of b = O.leaving b next) ∨
    nextIncoming G O s b = none ∧ (versionVisit G O (s, changed) b).1.merges.of b = some s.fresh ∧
      (versionVisit G O (s, changed) b).1.outgoing.of b = O.leaving b (some s.fresh) := by
  have hlen : b < s.outgoing.length := hinv.lengthOutgoing ▸ hb
  cases hnext : nextIncoming G O s b with
  | some next =>
    refine .inl ⟨next, rfl, ?_, ?_⟩ <;> simp only [versionVisit, if_pos hr, hnext, Versions.record]
    exact VersionTable.of_set_self hlen _
  | none =>
    refine .inr ⟨rfl, ?_, ?_⟩ <;> simp only [versionVisit, if_pos hr, hnext, Versions.record, Versions.merge]
    · exact VersionTable.of_set_self (hinv.lengthMerges ▸ hb) _
    · exact VersionTable.of_set_self hlen _

/-- a source has its version after a visit -/
theorem nextIncoming_source (hb : O.Source b) : nextIncoming G O s b = none ∧ O.leaving b (some s.fresh) = O.supplied b ∨
    ∃ next, nextIncoming G O s b = some next ∧ O.leaving b next = O.supplied b := by
  by_cases hd : O.defines b = true
  · have hall : ∀ next, O.leaving b next = O.supplied b := fun next => by
      rw [OriginFacts.supplied, OriginFacts.leaving, OriginFacts.leaving, if_pos hd, if_pos hd]
    cases hnext : nextIncoming G O s b with
    | none => exact .inl ⟨rfl, hall _⟩
    | some next => exact .inr ⟨next, rfl, hall next⟩
  · obtain ⟨m, hm⟩ := Option.ne_none_iff_exists'.mp (hb.resolve_left hd)
    exact .inr ⟨some m, by rw [nextIncoming, hm], by rw [OriginFacts.supplied, hm]⟩

theorem OriginFacts.supplied_ne_none (hb : O.Source b) : O.supplied b ≠ none := by
  unfold supplied leaving
  split_ifs with hd
  · simp
  · exact hb.resolve_left hd

theorem VersionsBrought.of_reaching (hG : G.Describes E entry) (h : VersionsBrought G O E entry s) (hb : b < G.count)
    (hw : w ∈ reaching G s b) : O.Arrives E entry b w := by
  obtain ⟨p, hp, hr, hout⟩ := mem_reaching.mp hw
  exact h.edge ((hG.predecessors hb).mp hp) ((hG.reachable (hG.lt hr)).mp hr) hout

section Visit

variable (hinv : VersionsInv G O k s) (h : VersionsBrought G O E entry s) (hb : b < G.count)

include hinv h hb

/-- a version that leaves a block once is followed by others -/
theorem versionVisit_mono (changed : Bool) (c : BlockId) (hc : s.outgoing.of c ≠ none) :
    (versionVisit G O (s, changed) b).1.outgoing.of c ≠ none := by
  by_cases hcb : c = b
  swap
  · rwa [(versionVisit_of_ne (s, changed) hcb).2.2]
  subst hcb
  by_cases hr : G.reachable c = true
  swap
  · rwa [versionVisit, if_neg hr]
  rcases versionVisit_self hinv hb hr changed with ⟨next, hnext, -, hout⟩ | ⟨-, -, hout⟩
  · rw [hout]
    by_cases hs : O.Source c
    · rcases nextIncoming_source (G := G) (s := s) hs with ⟨hnone, -⟩ | ⟨next', hnext', heq⟩
      · exact absurd (hnext.symm.trans hnone) (by simp)
      · rw [Option.mem_unique hnext hnext', heq]
        exact O.supplied_ne_none hs
    · rw [O.leaving_of_not_source hs]
      rintro rfl
      rw [nextIncoming_of_not_source hs] at hnext
      cases hm : s.merges.of c with
      | some m => simp [hm] at hnext
      | none =>
        rw [hm, Option.elim_none] at hnext
        obtain ⟨p, hp, hrp, hout⟩ := (h.held hs hc).resolve_left (not_not.mpr hm)
        obtain ⟨v, hv⟩ := Option.ne_none_iff_exists'.mp hout
        have hmem := mem_ascending.mpr (mem_reaching.mpr ⟨p, hp, hrp, hv⟩)
        rw [List.head?_eq_none_iff.mp (chooseVersion_head hnext).symm] at hmem
        exact absurd hmem not_mem_nil
  · rw [hout]
    unfold OriginFacts.leaving
    split_ifs <;> simp

theorem versionVisit_brought (hG : G.Describes E entry) (changed : Bool) :
    VersionsBrought G O E entry (versionVisit G O (s, changed) b).1 := by
  by_cases hr : G.reachable b = true
  swap
  · rwa [versionVisit, if_neg hr]
  have hother : ∀ {c}, c ≠ b → (versionVisit G O (s, changed) b).1.merges.of c = s.merges.of c ∧
      (versionVisit G O (s, changed) b).1.outgoing.of c = s.outgoing.of c := fun hc =>
    ⟨(versionVisit_of_ne (s, changed) hc).1, (versionVisit_of_ne (s, changed) hc).2.2⟩
  have hmono := versionVisit_mono hinv h hb changed
  have hself := versionVisit_self hinv hb hr changed
  -- where versions are merged, two of them arrive
  have hcontested : nextIncoming G O s b = none → Contested E entry O.Source b ∧
      ∃ p q, p ≠ q ∧ E p b ∧ E q b ∧ Reachable E entry p ∧ Reachable E entry q := by
    intro hnone
    obtain ⟨v, hv, w, hw, hne⟩ := reaching_of_nextIncoming_none hnone
    refine ⟨(h.of_reaching hG hb hv).contested (h.of_reaching hG hb hw) hne, ?_⟩
    obtain ⟨p, hp, hrp, hv⟩ := mem_reaching.mp hv
    obtain ⟨q, hq, hrq, hw⟩ := mem_reaching.mp hw
    refine ⟨p, q, ?_, (hG.predecessors hb).mp hp, (hG.predecessors hb).mp hq, (hG.reachable (hG.lt hrp)).mp hrp,
      (hG.reachable (hG.lt hrq)).mp hrq⟩
    rintro rfl
    exact hne (Option.mem_unique hv hw)
  -- the version that enters a block without one of its own
  have hchosen : ¬ O.Source b → s.merges.of b = none → ∀ {v}, nextIncoming G O s b = some (some v) → v ∈ reaching G s b := by
    intro hs hm v hnext
    rw [nextIncoming_of_not_source hs, hm, Option.elim_none] at hnext
    exact mem_ascending.mp (mem_of_mem_head? (chooseVersion_head hnext).symm)
  refine ⟨fun {c w} hs hw => ?_, fun {c w} hs hw => ?_, fun {c w} hm => ?_, fun {c} hs hne => ?_⟩
  · by_cases hcb : c = b
    · subst hcb
      rcases hself with ⟨next, hnext, -, hout⟩ | ⟨hnone, -, hout⟩ <;> rw [hout] at hw <;>
        rcases nextIncoming_source (G := G) (s := s) hs with ⟨hnone', heq⟩ | ⟨next', hnext', heq⟩
      · exact absurd (hnext.symm.trans hnone') (by simp)
      · rw [← heq, ← hw, Option.mem_unique hnext hnext']
      · rw [← heq, hw]
      · exact absurd (hnext'.symm.trans hnone) (by simp)
    · exact h.source hs ((hother hcb).2 ▸ hw)
  · by_cases hcb : c = b
    · subst hcb
      rcases hself with ⟨next, hnext, -, hout⟩ | ⟨hnone, -, -⟩
      · rw [hout, O.leaving_of_not_source hs] at hw
        subst hw
        cases hm : s.merges.of c with
        | some m => exact .inl (h.merged hm).1
        | none => exact h.of_reaching hG hb (hchosen hs hm hnext)
      · exact .inl (hcontested hnone).1
    · exact h.arrives hs ((hother hcb).2 ▸ hw)
  · by_cases hcb : c = b
    · subst hcb
      rcases hself with ⟨-, -, hkept, -⟩ | ⟨hnone, -, -⟩
      · exact h.merged (hkept ▸ hm)
      · exact hcontested hnone
    · exact h.merged ((hother hcb).1 ▸ hm)
  · by_cases hcb : c = b
    · subst hcb
      rcases hself with ⟨next, hnext, hkept, hout⟩ | ⟨-, hm, -⟩
      · rw [hkept]
        cases hm : s.merges.of c with
        | some m => exact .inl (by simp)
        | none =>
          obtain ⟨v, hv⟩ := Option.ne_none_iff_exists'.mp hne
          rw [hout, O.leaving_of_not_source hs] at hv
          subst hv
          obtain ⟨p, hp, hrp, hv⟩ := mem_reaching.mp (hchosen hs hm hnext)
          exact .inr ⟨p, hp, hrp, hmono p (by rw [hv]; simp)⟩
      · exact .inl (by rw [hm]; simp)
    · rw [(hother hcb).1]
      rw [(hother hcb).2] at hne
      rcases h.held hs hne with hm | ⟨p, hp, hrp, hout⟩
      · exact .inl hm
      · exact .inr ⟨p, hp, hrp, hmono p hout⟩

end Visit

theorem versionFold_brought (hG : G.Describes E entry) (hinv : VersionsInv G O k s) (h : VersionsBrought G O E entry s)
    (n : Nat) (hn : n ≤ G.count) :
    VersionsBrought G O E entry (midRound G O s n) ∧
      ∀ c, s.outgoing.of c ≠ none → (midRound G O s n).outgoing.of c ≠ none := by
  induction n with
  | zero => exact ⟨h, fun _ => id⟩
  | succ n ih =>
    obtain ⟨h', hmono⟩ := ih (Nat.le_of_succ_le hn)
    obtain ⟨changed, hsucc⟩ := midRound_succ (G := G) (O := O) (s := s) n
    have hinv' : VersionsInv G O k (midRound G O s n) := versionFold_inv false n (Nat.le_of_succ_le hn) hinv
    rw [hsucc]
    exact ⟨versionVisit_brought hinv' h' hn hG changed,
      fun c hc => versionVisit_mono hinv' h' hn changed c (hmono c hc)⟩

theorem versionStart_brought : VersionsBrought G O E entry (versionStart G k) := by
  refine ⟨fun _ h => ?_, fun _ h => ?_, fun h => ?_, fun _ h => ?_⟩ <;> simp [versionStart, versionStart_of] at h

end Brought

theorem VersionsInv.fresh_le (hinv : VersionsInv G O k s) : s.fresh ≤ k + G.count := by
  have hcard : (Finset.Ico k s.fresh).card ≤ (Finset.range G.count).card := by
    have hex : ∀ w ∈ Finset.Ico k s.fresh, ∃ b, s.merges.of b = some w := fun w hw =>
      hinv.merge_surj (Finset.mem_Ico.mp hw).1 (Finset.mem_Ico.mp hw).2
    choose! block hblock using hex
    refine Finset.card_le_card_of_injOn block (fun w hw => ?_) fun w hw w' hw' heq => ?_
    · have hb := hblock w hw
      rw [Finset.mem_coe, Finset.mem_range, ← hinv.lengthMerges]
      by_contra hge
      simp [VersionTable.of, getElem?_eq_none (Nat.le_of_not_lt hge)] at hb
    · have h₁ := hblock w hw
      have h₂ := hblock w' hw'
      rw [heq] at h₁
      exact Option.mem_unique h₁ h₂
  rw [Nat.card_Ico, Finset.card_range] at hcard
  exact Nat.sub_le_iff_le_add'.mp hcard

/-- versions in the order of their numbers, no version above all -/
def rank : Option ValueId → WithTop ℕ
  | some v => WithTop.some v
  | none => ⊤

theorem rank_injective : Function.Injective rank := by
  intro v w h
  cases v <;> cases w <;> simp_all [rank]

/-- the reachable predecessors of a block -/
def reachablePredecessors (G : VersionGraph) (b : BlockId) : Finset BlockId :=
  ((G.predecessors b).filter G.reachable).toFinset

theorem mem_reachablePredecessors : p ∈ reachablePredecessors G b ↔ p ∈ G.predecessors b ∧ G.reachable p = true := by
  rw [reachablePredecessors, mem_toFinset, mem_filter]

theorem rank_head_reaching (s : Versions) (b : BlockId) :
    rank (ascending (reaching G s b)).head? = (reachablePredecessors G b).inf fun p => rank (s.outgoing.of p) := by
  apply le_antisymm
  · refine Finset.le_inf fun p hp => ?_
    rw [mem_reachablePredecessors] at hp
    cases hv : s.outgoing.of p with
    | none => exact le_top
    | some v =>
      have hmem : v ∈ reaching G s b := mem_reaching.mpr ⟨p, hp.1, hp.2, hv⟩
      cases ha : ascending (reaching G s b) with
      | nil => exact absurd (ascending_eq_nil.mp ha ▸ hmem) (Finset.notMem_empty v)
      | cons w rest => exact WithTop.coe_le_coe.mpr (le_of_ascending ha hmem)
  · cases ha : ascending (reaching G s b) with
    | nil => exact le_top
    | cons w rest =>
      have hmem : w ∈ reaching G s b := mem_ascending.mp (by rw [ha]; exact mem_cons_self)
      obtain ⟨p, hp, hr, hv⟩ := mem_reaching.mp hmem
      exact (Finset.inf_le (mem_reachablePredecessors.mpr ⟨hp, hr⟩)).trans (by rw [hv]; exact le_rfl)

section Settle

variable (G O k) in
/-- the state after `t` rounds -/
def versionsAt (t : Nat) : Versions := rounds (versionRound G O) t (versionStart G k)

theorem versionsAt_succ (t : Nat) : versionsAt G O k (t + 1) = (versionRound G O (versionsAt G O k t)).1 :=
  rounds_succ _ t _

theorem versionsAt_inv (t : Nat) : VersionsInv G O k (versionsAt G O k t) :=
  rounds_inv versionRound_inv versionStart_inv t

/-- from some round on no merge is added -/
theorem exists_last_merge : ∃ T, ∀ t ≥ T, (versionsAt G O k (t + 1)).fresh = (versionsAt G O k t).fresh := by
  have hmono : ∀ t, (versionsAt G O k t).fresh ≤ (versionsAt G O k (t + 1)).fresh := fun t => by
    rw [versionsAt_succ]
    exact midRound_fresh_mono (Nat.zero_le G.count)
  obtain ⟨T, c, hc⟩ : Settles fun t => k + G.count - (versionsAt G O k t).fresh :=
    settles_of_antitone (T := 0) fun t _ => Nat.sub_le_sub_left (hmono t) _
  refine ⟨T, fun t ht => ?_⟩
  have hfresh : ∀ t ≥ T, (versionsAt G O k t).fresh = k + G.count - c := fun t ht => by
    rw [← hc t ht, Nat.sub_sub_self (versionsAt_inv t).fresh_le]
  rw [hfresh t ht, hfresh (t + 1) (Nat.le_succ_of_le ht)]

variable {E : BlockId → BlockId → Prop} {entry : BlockId} {T : Nat}

theorem midRound_outgoing {t : Nat} (hb : b < G.count) (p : BlockId) :
    (midRound G O (versionsAt G O k t) b).outgoing.of p =
      if p < b then (versionsAt G O k (t + 1)).outgoing.of p else (versionsAt G O k t).outgoing.of p := by
  rw [versionsAt_succ]
  exact (midRound_of hb.le p).2.2

section

variable (hT : ∀ t ≥ T, (versionsAt G O k (t + 1)).fresh = (versionsAt G O k t).fresh)
include hT

/-- a round after the last merge, at a reachable block -/
theorem versionsAt_round {t : Nat} (ht : T ≤ t) (hb : b < G.count) (hr : G.reachable b = true) :
    nextIncoming G O (midRound G O (versionsAt G O k t) b) b = some ((versionsAt G O k (t + 1)).incoming.of b) ∧
    (versionsAt G O k (t + 1)).outgoing.of b = O.leaving b ((versionsAt G O k (t + 1)).incoming.of b) ∧
    (versionsAt G O k (t + 1)).merges.of b = (versionsAt G O k t).merges.of b := by
  have hfresh := hT t ht
  rw [versionsAt_succ] at hfresh ⊢
  exact versionRound_of (versionsAt_inv t) hfresh hb hr

theorem merges_constant {t : Nat} (ht : T ≤ t) (hb : b < G.count) (hr : G.reachable b = true) :
    (versionsAt G O k t).merges.of b = (versionsAt G O k T).merges.of b := by
  induction t, ht using Nat.le_induction with
  | base => rfl
  | succ t ht ih => rw [(versionsAt_round hT ht hb hr).2.2, ih]

/-- a block that defines the origin, carries it or merges it has its version from then on -/
theorem settled_of_source (hb : b < G.count) (hr : G.reachable b = true)
    (h : O.Source b ∨ (versionsAt G O k T).merges.of b ≠ none) :
    ∃ w, ∀ t > T, (versionsAt G O k t).outgoing.of b = some w := by
  suffices hround : ∃ w, ∀ u ≥ T, O.leaving b ((versionsAt G O k (u + 1)).incoming.of b) = some w by
    obtain ⟨w, hw⟩ := hround
    refine ⟨w, fun t ht => ?_⟩
    obtain ⟨u, rfl⟩ : ∃ u, t = u + 1 := ⟨t - 1, by omega⟩
    have hu : T ≤ u := Nat.le_of_lt_succ ht
    rw [(versionsAt_round hT hu hb hr).2.1, hw u hu]
  by_cases hs : O.Source b
  · obtain ⟨w, hw⟩ := Option.ne_none_iff_exists'.mp (O.supplied_ne_none hs)
    refine ⟨w, fun u hu => ?_⟩
    have hnext := (versionsAt_round hT hu hb hr).1
    rcases nextIncoming_source hs with ⟨hnone, -⟩ | ⟨next, hnext', heq⟩
    · exact absurd (hnext.symm.trans hnone) (by simp)
    · rw [Option.mem_unique hnext hnext', heq, hw]
  · obtain ⟨w, hw⟩ := Option.ne_none_iff_exists'.mp (h.resolve_left hs)
    refine ⟨w, fun u hu => ?_⟩
    have hnext := (versionsAt_round hT hu hb hr).1
    rw [nextIncoming_of_not_source hs, (midRound_of hb.le b).1, if_neg (lt_irrefl b), merges_constant hT hu hb hr, hw] at hnext
    rw [O.leaving_of_not_source hs]
    exact (Option.some.inj hnext).symm

/-- otherwise the least version of its predecessors leaves it -/
theorem outgoing_eq_head {t : Nat} (ht : T ≤ t) (hb : b < G.count) (hr : G.reachable b = true)
    (h : ¬ (O.Source b ∨ (versionsAt G O k T).merges.of b ≠ none)) :
    chooseVersion (O.live b) (ascending (reaching G (midRound G O (versionsAt G O k t) b) b)) =
      some ((versionsAt G O k (t + 1)).outgoing.of b) := by
  rw [not_or, not_not] at h
  obtain ⟨hnext, hleave, -⟩ := versionsAt_round hT ht hb hr
  rw [nextIncoming_of_not_source h.1, (midRound_of hb.le b).1, if_neg (lt_irrefl b), merges_constant hT ht hb hr, h.2] at hnext
  rw [hleave, O.leaving_of_not_source h.1]
  exact hnext

/-- Where the origin is live its version settles: the first block on a path that had no settled version would
have a settled one before it, and then no other version can reach it without a merge. -/
theorem settled_of_live (hG : G.Describes E entry) (hO : O.Flows E entry) {l : List BlockId}
    (hp : Path E entry l b) (hb : b < G.count) (hlive : O.live b = true ∨ O.defines b = true) :
    ∃ T' w, ∀ t ≥ T', (versionsAt G O k t).outgoing.of b = some w := by
  have hsource : ∀ {c}, c < G.count → G.reachable c = true →
      O.Source c ∨ (versionsAt G O k T).merges.of c ≠ none →
      ∃ T' w, ∀ t ≥ T', (versionsAt G O k t).outgoing.of c = some w := by
    intro c hc hr h
    obtain ⟨w, hw⟩ := settled_of_source hT hc hr h
    exact ⟨T + 1, w, hw⟩
  induction hp with
  | refl =>
    have hr := (hG.reachable hb).mpr ⟨[], .refl⟩
    refine hsource hb hr (.inl (.inl ?_))
    rcases hlive with hlive | hd
    · simp [OriginFacts.defines, hO.entry hlive]
    · exact hd
  | @snoc l b c hp hE ih =>
    have hr := (hG.reachable hb).mpr ⟨_, hp.snoc hE⟩
    have hlt := hG.source_lt hE
    by_cases hsrc : O.Source c ∨ (versionsAt G O k T).merges.of c ≠ none
    · exact hsource hb hr hsrc
    · have hlive : O.live c = true := hlive.resolve_right fun h => hsrc (.inl (.inl h))
      obtain ⟨T', w, hw⟩ := ih hlt (hO.edge hE hlive).symm
      refine ⟨max T T' + 1, w, fun t ht => ?_⟩
      obtain ⟨u, rfl⟩ : ∃ u, t = u + 1 := ⟨t - 1, by omega⟩
      have hu : max T T' ≤ u := Nat.le_of_succ_le_succ ht
      have hchoose := outgoing_eq_head hT (le_of_max_le_left hu) hb hr hsrc
      -- the settled version of the predecessor is the only one
      have hmem : w ∈ reaching G (midRound G O (versionsAt G O k u) c) c := by
        refine mem_reaching.mpr ⟨b, (hG.predecessors hb).mpr hE, (hG.reachable hlt).mpr ⟨l, hp⟩, ?_⟩
        rw [midRound_outgoing hb]
        split_ifs
        · exact hw _ (Nat.le_succ_of_le (le_of_max_le_right hu))
        · exact hw _ (le_of_max_le_right hu)
      rw [hlive] at hchoose
      rw [← mem_ascending] at hmem
      match ascending (reaching G (midRound G O (versionsAt G O k u) c) c), hmem, hchoose with
      | [v], hmem, hchoose =>
        rw [mem_singleton.mp hmem]
        exact (Option.some.inj hchoose).symm
      | _ :: _ :: _, _, hchoose => exact absurd hchoose (by simp [chooseVersion])

end

theorem versionsAt_unreachable (t : Nat) (hr : ¬ G.reachable b = true) :
    (versionsAt G O k t).incoming.of b = none ∧ (versionsAt G O k t).outgoing.of b = none := by
  induction t with
  | zero => exact ⟨versionStart_of G.count b, versionStart_of G.count b⟩
  | succ t ih =>
    have hall : ∀ n, (midRound G O (versionsAt G O k t) n).incoming.of b = none ∧
        (midRound G O (versionsAt G O k t) n).outgoing.of b = none := by
      intro n
      induction n with
      | zero => exact ih
      | succ n ihn =>
        obtain ⟨changed, hn⟩ := midRound_succ n
        rw [hn]
        by_cases hbn : b = n
        · subst hbn
          rw [versionVisit, if_neg hr]
          exact ihn
        · obtain ⟨-, hi, ho⟩ := versionVisit_of_ne (midRound G O (versionsAt G O k t) n, changed) hbn
          rw [hi, ho]
          exact ihn
    rw [versionsAt_succ]
    exact hall G.count

theorem versionsAt_brought (hG : G.Describes E entry) (t : Nat) : VersionsBrought G O E entry (versionsAt G O k t) := by
  induction t with
  | zero => exact versionStart_brought
  | succ t ih =>
    rw [versionsAt_succ]
    exact (versionFold_brought hG (versionsAt_inv t) ih G.count le_rfl).1

theorem versionsAt_mono (hG : G.Describes E entry) {t u : Nat} (h : t ≤ u) (hne : (versionsAt G O k t).outgoing.of b ≠ none) :
    (versionsAt G O k u).outgoing.of b ≠ none := by
  induction u, h using Nat.le_induction with
  | base => exact hne
  | succ u _ ih =>
    rw [versionsAt_succ]
    exact (versionFold_brought hG (versionsAt_inv u) (versionsAt_brought hG u) G.count le_rfl).2 b ih

/-- Where one version arrives, it stays from then on. -/
theorem settles_of_not_contested (hG : G.Describes E entry) (hs : ¬ O.Source b)
    (hc : ¬ Contested E entry O.Source b) : Settles fun t => rank ((versionsAt G O k t).outgoing.of b) := by
  by_cases harrived : ∃ t, (versionsAt G O k t).outgoing.of b ≠ none
  · obtain ⟨t₀, hne⟩ := harrived
    obtain ⟨w, hw⟩ := Option.ne_none_iff_exists'.mp hne
    refine ⟨t₀, rank (some w), fun t ht => congrArg rank ?_⟩
    obtain ⟨v, hv⟩ := Option.ne_none_iff_exists'.mp (versionsAt_mono hG ht hne)
    have hv' := (versionsAt_brought hG t).arrives hs hv
    have hw' := (versionsAt_brought hG t₀).arrives hs hw
    rw [hv, by_contra fun hvw : v ≠ w => hc (hv'.contested hw' hvw)]
  · exact ⟨0, rank none, fun t _ => congrArg rank (not_not.mp fun hne => harrived ⟨t, hne⟩)⟩

/-- Every version settles. -/
theorem outgoing_settles (hG : G.Describes E entry) (hO : O.Flows E entry) (hK : O.Climbs E entry)
    (b : BlockId) : Settles fun t => rank ((versionsAt G O k t).outgoing.of b) := by
  obtain ⟨T, hT⟩ := exists_last_merge
  have hreachable : ∀ {b}, O.Stale E entry b → b < G.count ∧ G.reachable b = true := by
    intro b hb
    have hlt : b < G.count := by
      obtain ⟨c, -, -, -, -, hcb, -⟩ := hb.contested
      cases hcb with
      | edge _ hE => exact hG.target_lt hE
      | snoc _ _ hE => exact hG.target_lt hE
    exact ⟨hlt, (hG.reachable hlt).mpr hb.contested.reachable⟩
  -- an unsettled block is stale
  have hunsettled : ∀ b, ¬ Settles (fun t => rank ((versionsAt G O k t).outgoing.of b)) → O.Stale E entry b := by
    intro b hb
    have hr : G.reachable b = true := by
      by_contra hr
      exact hb ⟨0, rank none, fun t _ => congrArg rank (versionsAt_unreachable t hr).2⟩
    have hlt := hG.lt hr
    have hsettled : ¬ ∃ T' w, ∀ t ≥ T', (versionsAt G O k t).outgoing.of b = some w := by
      rintro ⟨T', w, hw⟩
      exact hb ⟨T', rank (some w), fun t ht => congrArg rank (hw t ht)⟩
    obtain ⟨l, hl⟩ := (hG.reachable hlt).mp hr
    have hs : ¬ O.Source b := by
      intro hs
      obtain ⟨w, hw⟩ := settled_of_source hT hlt hr (.inl hs)
      exact hsettled ⟨T + 1, w, hw⟩
    refine ⟨?_, hs, by_contra fun hc => hb (settles_of_not_contested hG hs hc)⟩
    cases hlive : O.live b with
    | false => rfl
    | true => exact absurd (settled_of_live hT hG hO hl hlt (.inl hlive)) hsettled
  -- among the stale blocks the edges are those of the sweep
  have hmem : ∀ {p q}, O.Stale E entry q → (p ∈ reachablePredecessors G q ↔ E p q ∧ G.reachable p = true) := fun hq => by
    rw [mem_reachablePredecessors, hG.predecessors (hreachable hq).1]
  refine sweep_settles (x := fun t b => rank ((versionsAt G O k t).outgoing.of b)) (n := G.count) (T := T)
    (P := reachablePredecessors G) (U := {b | O.Stale E entry b}) (fun b hb => (hreachable hb).1) hunsettled ?_ ?_ b
  · intro b hb t ht
    obtain ⟨hlt, hr⟩ := hreachable hb
    have hsrc : ¬ (O.Source b ∨ (versionsAt G O k T).merges.of b ≠ none) := by
      rintro (hs | hm)
      · exact hb.notSource hs
      · obtain ⟨m, hm⟩ := Option.ne_none_iff_exists'.mp hm
        exact absurd ((versionsAt_inv T).merge hm).2.2.2.1 (by simp [hb.dead])
    have hhead := chooseVersion_head (outgoing_eq_head hT ht hlt hr hsrc)
    rw [hhead, rank_head_reaching, leastBefore]
    refine Finset.inf_congr rfl fun p _ => ?_
    rw [midRound_outgoing hlt]
    split_ifs <;> rfl
  · intro u v l hv hu hle hpath
    obtain ⟨l', hl'⟩ := hK u v l hv ((hmem hv).mp hu).1 hle (hpath.mono fun h => ⟨((hmem h.2.1).mp h.1).1, h.2⟩)
    -- such a path stays among the stale blocks, which are reachable
    refine ⟨l', ?_⟩
    clear hpath hu hle
    have hstale : ∀ {l q}, Path (Rises E {b | O.Stale E entry b}) v l q →
        O.Stale E entry q ∧ Path (Rises (fun p q => p ∈ reachablePredecessors G q) {b | O.Stale E entry b}) v l q := by
      intro l q h
      induction h with
      | refl => exact ⟨hv, .refl⟩
      | snoc _ hE ih => exact ⟨hE.2.2, ih.2.snoc ⟨(hmem hE.2.2).mpr ⟨hE.1, (hreachable ih.1).2⟩, hE.2⟩⟩
    exact (hstale hl').2

/-- The loop for one origin ends, where one round takes a version round each cycle of stale blocks. -/
theorem versions_terminates (hG : G.Describes E entry) (hO : O.Flows E entry) (hK : O.Climbs E entry) :
    ∃ n s, ∀ fuel > n, versions G O fuel k = some s := by
  obtain ⟨T, hT⟩ := exists_last_merge
  obtain ⟨T', hT'⟩ : ∃ T', ∀ t ≥ T', ∀ b < G.count,
      (versionsAt G O k t).outgoing.of b = (versionsAt G O k T').outgoing.of b := by
    obtain ⟨T', c, hc⟩ := settles_of_finset (Finset.range G.count)
      (fun g b => if b ∈ Finset.range G.count then g b else ⊤)
      (fun g g' h => funext fun b => by
        split_ifs with hb
        · exact h b hb
        · rfl)
      fun b _ => outgoing_settles hG hO hK b
    refine ⟨T', fun t ht b hb => rank_injective ?_⟩
    have h₁ := congrFun (hc t ht) b
    have h₂ := congrFun (hc T' le_rfl) b
    beta_reduce at h₁ h₂
    rw [if_pos (Finset.mem_range.mpr hb)] at h₁ h₂
    exact h₁.trans h₂.symm
  -- two rounds after both, nothing changes any more
  have hsettled : ∀ t ≥ max T T', ∀ b < G.count,
      (versionsAt G O k (t + 2)).incoming.of b = (versionsAt G O k (t + 1)).incoming.of b := by
    intro t ht b hb
    by_cases hr : G.reachable b = true
    · obtain ⟨h₁, -, hm⟩ := versionsAt_round hT (le_of_max_le_left ht) hb hr
      obtain ⟨h₂, -, -⟩ := versionsAt_round hT (Nat.le_succ_of_le (le_of_max_le_left ht)) hb hr
      have hcongr : nextIncoming G O (midRound G O (versionsAt G O k (t + 1)) b) b =
          nextIncoming G O (midRound G O (versionsAt G O k t) b) b := by
        have hof : ∀ u ≥ T', ∀ p < G.count, (midRound G O (versionsAt G O k u) b).outgoing.of p =
            (versionsAt G O k T').outgoing.of p := by
          intro u hu p hp
          rw [midRound_outgoing hb]
          split_ifs
          · exact hT' _ (Nat.le_succ_of_le hu) p hp
          · exact hT' _ hu p hp
        refine nextIncoming_congr ?_ fun p hp => ?_
        · rw [(midRound_of hb.le b).1, (midRound_of hb.le b).1, if_neg (lt_irrefl b), if_neg (lt_irrefl b), hm]
        · have hlt := hG.source_lt ((hG.predecessors hb).mp hp)
          rw [hof _ (Nat.le_succ_of_le (le_of_max_le_right ht)) p hlt, hof _ (le_of_max_le_right ht) p hlt]
      exact Option.mem_unique h₂ (hcongr.trans h₁)
    · rw [(versionsAt_unreachable _ hr).1, (versionsAt_unreachable _ hr).1]
  have hstable : (versionRound G O (versionsAt G O k (max T T' + 1))).2 = false := by
    refine versionRound_unchanged (versionsAt_inv _) ?_ (fun b hb => ?_) fun b hb => ?_
    · rw [← versionsAt_succ]
      exact hT _ (Nat.le_succ_of_le (le_max_left T T'))
    · rw [← versionsAt_succ]
      exact hsettled _ le_rfl b hb
    · rw [← versionsAt_succ, hT' _ (by omega) b hb, hT' (max T T' + 1) (by omega) b hb]
  obtain ⟨s, hs⟩ := loop_of_stable hstable
  exact ⟨_, s, fun fuel hfuel => hs fuel hfuel⟩

/-- what the loop returns, by where its versions come from -/
theorem versions_brought {fuel : Nat} (hG : G.Describes E entry) (h : versions G O fuel k = some s) :
    VersionsBrought G O E entry s := by
  obtain ⟨t, -, -, -, rfl⟩ := loop_eq_some_iff.mp h
  rw [← rounds_succ]
  exact versionsAt_brought hG (t + 1)

end Settle

end Subscript.Lir
