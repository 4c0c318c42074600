import Subscript.Runtime.Assoc

/-! What the loops over the bucket index do. The capacities are powers of two, so the masks of the source are
remainders and the loops walk the paths of linear probing. -/

namespace Subscript.Runtime

open List Table

variable {kind : KeyKind} {V : Type} {h : AssocHeader kind V} {buckets : List Slot} {cap : Nat} {hash : UInt64}

def PowerOfTwo (cap : Nat) : Prop := ∃ k, cap = 2 ^ k

section

variable (hcap : PowerOfTwo cap)

include hcap

theorem PowerOfTwo.pos : 0 < cap := by
  obtain ⟨k, rfl⟩ := hcap
  exact Nat.two_pow_pos k

theorem PowerOfTwo.double : PowerOfTwo (cap * 2) := by
  obtain ⟨k, rfl⟩ := hcap
  exact ⟨k + 1, rfl⟩

theorem PowerOfTwo.and_mask (n : Nat) : n &&& cap - 1 = n % cap := by
  obtain ⟨k, rfl⟩ := hcap
  exact Nat.and_two_pow_sub_one_eq_mod n k

theorem PowerOfTwo.homeBucket_lt (hash : UInt64) : homeBucket cap hash < cap := by
  rw [homeBucket, hcap.and_mask]
  exact Nat.mod_lt _ hcap.pos

end

theorem PowerOfTwo.nextBucket (hcap : PowerOfTwo cap) (home offset : Nat) :
    nextBucket cap (pathAt cap home offset) = pathAt cap home (offset + 1) := by
  rw [Runtime.nextBucket, hcap.and_mask, pathAt_succ]

theorem getD_eq {bucket : Nat} (hlt : bucket < buckets.length) : buckets[bucket]? = some (buckets.getD bucket .empty) := by
  rw [getD_eq_getElem?_getD, getElem?_eq_getElem hlt]
  rfl

/-! ### `bucket_insert` -/

/-- the first empty bucket on the path is taken -/
theorem bucketInsertFrom_eq (entry : Nat) {home target : Nat} (hcap : PowerOfTwo buckets.length)
    (htarget : target < buckets.length) (hempty : buckets[pathAt buckets.length home target]? = some .empty) :
    ∀ rounds offset, offset + rounds = buckets.length → offset ≤ target →
      (∀ i < offset, buckets[pathAt buckets.length home i]? ≠ some .empty) →
      ∃ bucket, bucketInsertFrom buckets buckets.length entry rounds (pathAt buckets.length home offset) =
          some (buckets.set bucket (.entry entry)) ∧
        buckets[bucket]? = some .empty ∧ Reaches buckets home bucket := by
  intro rounds
  induction rounds with
  | zero =>
    intro offset hsum hle _
    omega
  | succ rounds ih =>
    intro offset hsum hle hbefore
    have hslot := getD_eq (pathAt_lt hcap.pos home offset)
    rw [bucketInsertFrom]
    split_ifs with hfree
    · rw [hfree] at hslot
      exact ⟨_, rfl, hslot, offset, by omega, rfl, hbefore⟩
    · have hne : buckets[pathAt buckets.length home offset]? ≠ some .empty := by
        rw [hslot]
        exact fun h => hfree (Option.some.inj h)
      rw [hcap.nextBucket]
      refine ih (offset + 1) (by omega) ?_ fun i hi => ?_
      · have hneq : offset ≠ target := fun heq => hne (heq ▸ hempty)
        omega
      · rcases Nat.lt_succ_iff_lt_or_eq.mp hi with hlt | rfl
        · exact hbefore i hlt
        · exact hne

theorem bucketInsert_eq (hcap : PowerOfTwo buckets.length) (hash : UInt64) (entry : Nat)
    (hroom : buckets.count .tombstone + buckets.countP Slot.isEntry < buckets.length) :
    ∃ bucket, bucketInsert buckets buckets.length hash entry = some (buckets.set bucket (.entry entry)) ∧
      buckets[bucket]? = some .empty ∧ Reaches buckets (homeBucket buckets.length hash) bucket := by
  obtain ⟨target, htarget, hempty⟩ := exists_empty (homeBucket buckets.length hash) hroom
  have := bucketInsertFrom_eq entry hcap htarget hempty buckets.length 0 (by omega) (by omega) (by omega)
  rwa [pathAt_zero (hcap.homeBucket_lt hash)] at this

/-! ### `rehash` and `compact_entries` -/

/-- the home bucket of an active entry -/
def homes (cap : Nat) (entries : List (Option (Entry kind V))) (entry : Nat) : Option Nat :=
  entries[entry]?.join.map fun x => homeBucket cap x.hash

theorem homes_push_none (entries : List (Option (Entry kind V))) : homes cap (entries ++ [none]) = homes cap entries := by
  funext entry
  rw [homes, homes, getElem?_append]
  split_ifs with hlt
  · rfl
  · have hnone : entries[entry]? = none := getElem?_eq_none (by omega)
    rw [hnone, getElem?_singleton]
    split_ifs <;> rfl

theorem homes_push_some (entries : List (Option (Entry kind V))) (x : Entry kind V) :
    homes cap (entries ++ [some x]) =
      Function.update (homes cap entries) entries.length (some (homeBucket cap x.hash)) := by
  funext entry
  rw [Function.update_apply, homes, homes, getElem?_append]
  split_ifs with hlt heq heq
  · omega
  · rfl
  · rw [heq, Nat.sub_self]
    rfl
  · rw [getElem?_singleton, if_neg (by omega), getElem?_eq_none (by omega)]

/-- an index over the entries without tombstones -/
structure Built (cap : Nat) (entries : List (Option (Entry kind V))) (buckets : List Slot) : Prop where
  length : buckets.length = cap
  indexed : Indexed buckets (homes cap entries)
  buried : buckets.count .tombstone = 0
  named : buckets.countP Slot.isEntry = entries.reduceOption.length

theorem built_fresh (cap : Nat) : Built cap ([] : List (Option (Entry kind V))) (List.replicate cap .empty) where
  length := length_replicate
  indexed := indexed_fresh cap
  buried := count_eq_zero.mpr fun h => nomatch eq_of_mem_replicate h
  named := by
    rw [countP_replicate]
    rfl

theorem Built.push {entries : List (Option (Entry kind V))} (hbuilt : Built cap entries buckets)
    (hcap : PowerOfTwo cap) (hroom : entries.reduceOption.length < cap) (x : Entry kind V) :
    ∃ buckets', bucketInsert buckets cap x.hash entries.length = some buckets' ∧
      Built cap (entries ++ [some x]) buckets' := by
  obtain ⟨rfl, hindexed, hburied, hnamed⟩ := hbuilt
  obtain ⟨bucket, heq, hempty, hreach⟩ := bucketInsert_eq hcap x.hash entries.length (by omega)
  have hlt : bucket < buckets.length := (List.getElem?_eq_some_iff.mp hempty).1
  have hnew : homes buckets.length entries entries.length = none := by
    rw [homes, getElem?_eq_none (Nat.le_refl _)]
    rfl
  obtain ⟨hcount, hcountP⟩ := counts_set (t := .entry entries.length) hempty
  refine ⟨_, heq, by rw [length_set], ?_, ?_, ?_⟩
  · rw [homes_push_some]
    exact hindexed.place hlt (fun e' h => nomatch hempty.symm.trans h) hreach hnew
  · simpa [hburied] using hcount
  · rw [reduceOption_append, length_append, ← hnamed]
    simpa [Slot.isEntry] using hcountP

theorem indexEntries_built (hcap : PowerOfTwo cap) (rest : List (Option (Entry kind V))) :
    ∀ before buckets, Built cap before buckets → (before ++ rest).reduceOption.length < cap →
      ∃ buckets', indexEntries cap rest before.length buckets = some buckets' ∧
        Built cap (before ++ rest) buckets' := by
  induction rest with
  | nil =>
    intro before buckets hbuilt _
    exact ⟨buckets, rfl, by rwa [append_nil]⟩
  | cons x rest ih =>
    intro before buckets hbuilt hroom
    rw [append_cons] at hroom ⊢
    cases x with
    | none =>
      have hpush : Built cap (before ++ [none]) buckets := by
        refine ⟨hbuilt.length, ?_, hbuilt.buried, ?_⟩
        · rw [homes_push_none]
          exact hbuilt.indexed
        · rw [reduceOption_append, hbuilt.named]
          simp
      obtain ⟨buckets', heq, hbuilt'⟩ := ih (before ++ [none]) buckets hpush hroom
      rw [length_append, length_singleton] at heq
      exact ⟨buckets', heq, hbuilt'⟩
    | some x =>
      have hless : before.reduceOption.length < cap := by
        simp only [reduceOption_append, length_append] at hroom
        omega
      obtain ⟨buckets₁, heq₁, hbuilt₁⟩ := hbuilt.push hcap hless x
      obtain ⟨buckets', heq, hbuilt'⟩ := ih (before ++ [some x]) buckets₁ hbuilt₁ hroom
      rw [length_append, length_singleton] at heq
      refine ⟨buckets', ?_, hbuilt'⟩
      rw [indexEntries, heq₁]
      exact heq

/-- packing is indexing the active entries -/
theorem packEntries_eq (entries : List (Option (Entry kind V))) (write : Nat) (buckets : List Slot) :
    packEntries cap entries write buckets =
      (indexEntries cap (entries.reduceOption.map some) write buckets).map fun buckets =>
        (entries.reduceOption.map some, buckets) := by
  induction entries generalizing write buckets with
  | nil => rfl
  | cons x entries ih =>
    cases x with
    | none => exact ih write buckets
    | some x =>
      rw [packEntries, reduceOption_cons_of_some, map_cons, indexEntries]
      cases bucketInsert buckets cap x.hash write with
      | none => rfl
      | some buckets =>
        simp only [Option.bind_eq_bind, Option.bind_some, ih]
        cases indexEntries cap (entries.reduceOption.map some) (write + 1) buckets <;> rfl

/-! ### `lookup` -/

namespace AssocHeader

/-- what `lookup` returns: the bucket of an entry that matches; or a free bucket that the probing reaches, with no
match before the first empty one -/
inductive Looked (h : AssocHeader kind V) (key : KeySlot kind) (hash : UInt64) (home : Nat) : Lookup → Prop
  | found {bucket entry : Nat} : h.buckets[bucket]? = some (.entry entry) → h.holds entry key hash = true →
      Looked h key hash home ⟨bucket, some entry⟩
  | absent {bucket offset : Nat} : (∀ e, h.buckets[bucket]? ≠ some (.entry e)) → Reaches h.buckets home bucket →
      h.buckets[pathAt h.buckets.length home offset]? = some .empty →
      (∀ i < offset, ∀ e, h.buckets[pathAt h.buckets.length home i]? = some (.entry e) → h.holds e key hash = false) →
      Looked h key hash home ⟨bucket, none⟩

theorem lookupFrom_looked (key : KeySlot kind) (hash : UInt64) {home target : Nat} (hcap : PowerOfTwo h.buckets.length)
    (hlen : h.buckets.length = h.bucketCap) (htarget : target < h.buckets.length)
    (hempty : h.buckets[pathAt h.buckets.length home target]? = some .empty) :
    ∀ rounds offset firstTombstone, offset + rounds = h.buckets.length → offset ≤ target →
      (∀ i < offset, h.buckets[pathAt h.buckets.length home i]? ≠ some .empty) →
      (∀ i < offset, ∀ e, h.buckets[pathAt h.buckets.length home i]? = some (.entry e) → h.holds e key hash = false) →
      (∀ t, firstTombstone = some t → h.buckets[t]? = some .tombstone ∧ Reaches h.buckets home t) →
      h.Looked key hash home
        (h.lookupFrom key hash rounds (pathAt h.buckets.length home offset) firstTombstone) := by
  intro rounds
  induction rounds with
  | zero =>
    intro offset firstTombstone hsum hle
    omega
  | succ rounds ih =>
    intro offset firstTombstone hsum hle hbefore hmissed hfirst
    have hslot := getD_eq (pathAt_lt hcap.pos home offset)
    -- the bucket is neither empty nor a match: one more round
    have hnext : ∀ firstTombstone', h.buckets[pathAt h.buckets.length home offset]? ≠ some .empty →
        (∀ e, h.buckets[pathAt h.buckets.length home offset]? = some (.entry e) → h.holds e key hash = false) →
        (∀ t, firstTombstone' = some t → h.buckets[t]? = some .tombstone ∧ Reaches h.buckets home t) →
        h.Looked key hash home
          (h.lookupFrom key hash rounds (Runtime.nextBucket h.bucketCap (pathAt h.buckets.length home offset))
            firstTombstone') := by
      intro firstTombstone' hne hmiss hfirst'
      rw [← hlen, hcap.nextBucket]
      refine ih (offset + 1) firstTombstone' (by omega) ?_ (fun i hi => ?_) (fun i hi => ?_) hfirst'
      · have hneq : offset ≠ target := fun heq => hne (heq ▸ hempty)
        omega
      · rcases Nat.lt_succ_iff_lt_or_eq.mp hi with hlt | rfl
        · exact hbefore i hlt
        · exact hne
      · rcases Nat.lt_succ_iff_lt_or_eq.mp hi with hlt | rfl
        · exact hmissed i hlt
        · exact hmiss
    rw [lookupFrom]
    split
    · next heq =>
      rw [heq] at hslot
      cases hf : firstTombstone with
      | none =>
        exact .absent (fun e he => nomatch hslot.symm.trans he) ⟨offset, by omega, rfl, hbefore⟩ hslot hmissed
      | some t =>
        obtain ⟨ht, hreach⟩ := hfirst t hf
        exact .absent (fun e he => nomatch ht.symm.trans he) hreach hslot hmissed
    · next heq =>
      rw [heq] at hslot
      refine hnext _ (fun he => nomatch hslot.symm.trans he) (fun e he => nomatch hslot.symm.trans he) fun t ht => ?_
      cases hf : firstTombstone with
      | none =>
        rw [hf] at ht
        cases ht
        exact ⟨hslot, offset, by omega, rfl, hbefore⟩
      | some t' =>
        rw [hf] at ht
        cases ht
        exact hfirst _ hf
    · next entry heq =>
      rw [heq] at hslot
      split_ifs with hholds
      · exact .found hslot hholds
      · refine hnext _ (fun he => nomatch hslot.symm.trans he) (fun e he => ?_) hfirst
        cases hslot.symm.trans he
        exact Bool.eq_false_of_not_eq_true hholds

theorem lookup_looked (key : KeySlot kind) (hash : UInt64) (hcap : PowerOfTwo h.bucketCap)
    (hlen : h.buckets.length = h.bucketCap)
    (hroom : h.buckets.count .tombstone + h.buckets.countP Slot.isEntry < h.buckets.length) :
    h.Looked key hash (homeBucket h.bucketCap hash) (h.lookup key hash) := by
  obtain ⟨target, htarget, hempty⟩ := exists_empty (homeBucket h.bucketCap hash) hroom
  have := lookupFrom_looked key hash (hlen ▸ hcap) hlen htarget hempty h.bucketCap 0 none (by omega)
    (by omega) (by omega) (by omega) (fun t ht => nomatch ht)
  rw [hlen, pathAt_zero (hcap.homeBucket_lt hash)] at this
  rwa [lookup, if_neg (Nat.pos_iff_ne_zero.mp hcap.pos)]

end AssocHeader

end Subscript.Runtime
