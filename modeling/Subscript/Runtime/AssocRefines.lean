import Subscript.Runtime.AssocIndex

/-! The container refines the ordered map: every operation returns, keeps the invariant of the index, and does to the
walk what the ordered map's operation does. Only `size` can differ, because it is cast to 32 bits. -/

namespace Subscript.Runtime

open List Table

variable {kind : KeyKind} {V : Type} {h : AssocHeader kind V} {key : KeySlot kind} {value : V}

namespace AssocHeader

/-- what holds of a container between two operations -/
structure Inv (h : AssocHeader kind V) : Prop where
  length : h.buckets.length = h.bucketCap
  power : h.bucketCap = 0 ∨ PowerOfTwo h.bucketCap ∧ 8 ≤ h.bucketCap
  unused : h.bucketCap = 0 → h.entries = []
  order : h.entries.length ≤ h.orderCap
  len : h.len = h.entries.reduceOption.length
  buried : h.buckets.count .tombstone = h.tombstones
  named : h.buckets.countP Slot.isEntry = h.len
  load : 0 < h.bucketCap → 4 * (h.len + h.tombstones) < 3 * h.bucketCap
  indexed : Indexed h.buckets (homes h.bucketCap h.entries)
  stored : ∀ x ∈ h.entries.reduceOption, x.hash = hashKey kind x.key ∧ storedKey kind x.key = x.key
  distinct : (h.entries.reduceOption.map Entry.key).Nodup

theorem inv_new : Inv (new : AssocHeader kind V) where
  length := rfl
  power := .inl rfl
  unused := fun _ => rfl
  order := Nat.le_refl 0
  len := rfl
  buried := rfl
  named := rfl
  load := fun h => absurd h (Nat.lt_irrefl 0)
  indexed := indexed_fresh 0
  stored := fun _ hx => nomatch hx
  distinct := nodup_nil

theorem Inv.powerOfTwo (inv : h.Inv) (hcap : 0 < h.bucketCap) : PowerOfTwo h.bucketCap := by
  rcases inv.power with hzero | ⟨hpower, -⟩
  · omega
  · exact hpower

/-- some bucket is empty -/
theorem Inv.room (inv : h.Inv) (hcap : 0 < h.bucketCap) :
    h.buckets.count .tombstone + h.buckets.countP Slot.isEntry < h.buckets.length := by
  have := inv.load hcap
  rw [inv.buried, inv.named, inv.length]
  omega

variable {x : Entry kind V} {entries : List (Option (Entry kind V))}

theorem mem_active :
    x ∈ entries.reduceOption ↔ ∃ e : Nat, entries[e]? = some (some x) :=
  reduceOption_mem_iff.trans mem_iff_getElem?

/-! ### Lookup -/

variable {e : Nat}

/-- an entry that is found has the key -/
theorem Inv.key_of_holds (inv : h.Inv) (hholds : h.holds e key (hashKey kind key) = true) :
    ∃ x, h.entries[e]? = some (some x) ∧ x.key = storedKey kind key := by
  unfold holds at hholds
  split at hholds
  · next x hx =>
    obtain ⟨-, hcanonical⟩ := inv.stored x (mem_active.mpr ⟨e, hx⟩)
    have hkeys := (Bool.and_eq_true_iff.mp hholds).2
    exact ⟨x, hx, by rw [← (storedKey_eq_iff kind x.key key).mpr hkeys, hcanonical]⟩
  · cases hholds

theorem Inv.holds_of_key (inv : h.Inv) (hx : h.entries[e]? = some (some x))
    (hkey : x.key = storedKey kind key) : h.holds e key (hashKey kind key) = true := by
  obtain ⟨hhash, hcanonical⟩ := inv.stored x (mem_active.mpr ⟨e, hx⟩)
  have hequal : keysEqual kind x.key key = true := (storedKey_eq_iff kind x.key key).mp (hcanonical.trans hkey)
  have hsame : x.hash = hashKey kind key := hhash.trans (hashKey_of_keysEqual hequal)
  rw [holds, hx]
  exact Bool.and_eq_true_iff.mpr ⟨decide_eq_true hsame, hequal⟩

theorem Inv.looked (inv : h.Inv) (hcap : 0 < h.bucketCap) (key : KeySlot kind) :
    h.Looked key (hashKey kind key) (homeBucket h.bucketCap (hashKey kind key)) (h.lookup key (hashKey kind key)) :=
  lookup_looked key _ (inv.powerOfTwo hcap) inv.length (inv.room hcap)

theorem lookup_unused (hcap : h.bucketCap = 0) (key : KeySlot kind) (hash : UInt64) : h.lookup key hash = ⟨0, none⟩ := by
  rw [lookup, if_pos hcap]

theorem Inv.lookup_some (inv : h.Inv) (hentry : (h.lookup key (hashKey kind key)).entry = some e) :
    0 < h.bucketCap ∧ h.buckets[(h.lookup key (hashKey kind key)).bucket]? = some (.entry e) ∧
      ∃ x, h.entries[e]? = some (some x) ∧ x.key = storedKey kind key := by
  have hcap : 0 < h.bucketCap := by
    by_contra hzero
    rw [lookup_unused (by omega)] at hentry
    cases hentry
  refine ⟨hcap, ?_⟩
  have hlooked := inv.looked hcap key
  generalize h.lookup key (hashKey kind key) = found at hentry hlooked
  cases hlooked with
  | found hbucket hholds =>
    cases hentry
    exact ⟨hbucket, inv.key_of_holds hholds⟩
  | absent => cases hentry

/-- an entry with the key would stand before the empty bucket that ended the search -/
theorem Inv.lookup_none (inv : h.Inv) (hentry : (h.lookup key (hashKey kind key)).entry = none) :
    ∀ x ∈ h.entries.reduceOption, x.key ≠ storedKey kind key := by
  intro x hx hkey
  obtain ⟨e, he⟩ := mem_active.mp hx
  have hcap : 0 < h.bucketCap := by
    by_contra hzero
    rw [inv.unused (by omega)] at he
    cases he
  have hlooked := inv.looked hcap key
  have hhash : x.hash = hashKey kind key := by
    rw [(inv.stored x hx).1, hkey, hashKey_storedKey]
  have hhome : homes h.bucketCap h.entries e = some (homeBucket h.bucketCap (hashKey kind key)) := by
    rw [homes, he, ← hhash]
    rfl
  generalize h.lookup key (hashKey kind key) = found at hentry hlooked
  cases hlooked with
  | found => cases hentry
  | absent _ _ hempty hmissed =>
    obtain ⟨i, hi, hslot⟩ := inv.indexed.before_empty hhome hempty
    exact absurd (inv.holds_of_key he hkey) (by rw [hmissed i hi e hslot]; exact Bool.false_ne_true)

theorem Inv.lookup_free (inv : h.Inv) (hcap : 0 < h.bucketCap)
    (habsent : ∀ x ∈ h.entries.reduceOption, x.key ≠ storedKey kind key) :
    (∀ e, h.buckets[(h.lookup key (hashKey kind key)).bucket]? ≠ some (.entry e)) ∧
      Reaches h.buckets (homeBucket h.bucketCap (hashKey kind key)) (h.lookup key (hashKey kind key)).bucket := by
  have hlooked := inv.looked hcap key
  generalize h.lookup key (hashKey kind key) = found at hlooked
  cases hlooked with
  | found _ hholds =>
    obtain ⟨x, hx, hkey⟩ := inv.key_of_holds hholds
    exact absurd hkey (habsent x (mem_active.mpr ⟨_, hx⟩))
  | absent hfree hreach => exact ⟨hfree, hreach⟩

/-! ### `ensure_capacity` -/

/-- what a rebuild keeps -/
structure Rebuilt (h h' : AssocHeader kind V) : Prop where
  inv : h'.Inv
  active : h'.entries.reduceOption = h.entries.reduceOption

theorem Rebuilt.trans {h₁ h₂ h₃ : AssocHeader kind V} (h : Rebuilt h₁ h₂) (h' : Rebuilt h₂ h₃) : Rebuilt h₁ h₃ :=
  ⟨h'.inv, h'.active.trans h.active⟩

variable {cap : Nat}

/-- a new index over entries with the same active ones -/
theorem Inv.rebuild (inv : h.Inv) {buckets : List Slot}
    (hpower : PowerOfTwo cap) (hcap : 8 ≤ cap) (hload : 4 * h.len < 3 * cap) (horder : entries.length ≤ h.orderCap)
    (hactive : entries.reduceOption = h.entries.reduceOption) (hbuilt : Built cap entries buckets) :
    Rebuilt h { h with entries, buckets, bucketCap := cap, tombstones := 0 } where
  active := hactive
  inv :=
    { length := hbuilt.length
      power := .inr ⟨hpower, hcap⟩
      unused := fun hzero => absurd (show cap = 0 from hzero) (by omega)
      order := horder
      len := by rw [inv.len, hactive]
      buried := hbuilt.buried
      named := by rw [hbuilt.named, inv.len, hactive]
      load := fun _ => hload
      indexed := hbuilt.indexed
      stored := by
        rw [hactive]
        exact inv.stored
      distinct := by
        rw [hactive]
        exact inv.distinct }

theorem reduceOption_map_some {α : Type} (l : List α) : (l.map some).reduceOption = l := by
  induction l with
  | nil => rfl
  | cons x l ih => rw [map_cons, reduceOption_cons_of_some, ih]

theorem Inv.rehash (inv : h.Inv) (hpower : PowerOfTwo cap) (hcap : 8 ≤ cap) (hload : 4 * h.len < 3 * cap) :
    ∃ h', h.rehash cap = some h' ∧ Rebuilt h h' ∧ h'.bucketCap = cap ∧ h'.tombstones = 0 ∧ h'.len = h.len ∧
      h'.orderCap = h.orderCap ∧ h'.entries = h.entries := by
  have hroom : ([] ++ h.entries).reduceOption.length < cap := by
    rw [nil_append, ← inv.len]
    omega
  obtain ⟨buckets, heq, hbuilt⟩ := indexEntries_built hpower h.entries [] _ (built_fresh cap) hroom
  refine ⟨{ h with buckets, bucketCap := cap, tombstones := 0 }, ?_, ?_, rfl, rfl, rfl, rfl, rfl⟩
  · rw [length_nil] at heq
    rw [AssocHeader.rehash, heq]
    rfl
  · exact inv.rebuild hpower hcap hload inv.order rfl hbuilt

/-- compaction frees room in the vector whenever an entry was deleted -/
theorem Inv.compactEntries (inv : h.Inv) (hless : h.len < h.entries.length) :
    ∃ h', h.compactEntries = some h' ∧ Rebuilt h h' ∧ h'.entries.length < h.entries.length ∧ h'.orderCap = h.orderCap := by
  have hcap : 0 < h.bucketCap := by
    by_contra hzero
    rw [inv.unused (by omega)] at hless
    exact absurd hless (Nat.not_lt_zero _)
  have hload := inv.load hcap
  have hpower := inv.powerOfTwo hcap
  have hactive := reduceOption_map_some h.entries.reduceOption
  have hlength : (h.entries.reduceOption.map some).length = h.len := by rw [length_map, inv.len]
  have hroom : ([] ++ h.entries.reduceOption.map some).reduceOption.length < h.bucketCap := by
    rw [nil_append, hactive, ← inv.len]
    omega
  obtain ⟨buckets, heq, hbuilt⟩ := indexEntries_built hpower (h.entries.reduceOption.map some) [] _ (built_fresh h.bucketCap) hroom
  refine ⟨{ h with entries := h.entries.reduceOption.map some, buckets, tombstones := 0 }, ?_, ?_, ?_, rfl⟩
  · rw [length_nil] at heq
    rw [AssocHeader.compactEntries, if_neg (by omega), packEntries_eq, heq]
    rfl
  · refine inv.rebuild hpower ?_ (by omega) ?_ hactive hbuilt
    · rcases inv.power with hzero | ⟨-, hle⟩ <;> omega
    · rw [hlength]
      exact Nat.le_trans (Nat.le_of_lt hless) inv.order
  · exact hlength ▸ hless

theorem Inv.compactWhenFull (inv : h.Inv) :
    ∃ h', h.compactWhenFull = some h' ∧ Rebuilt h h' := by
  unfold AssocHeader.compactWhenFull
  split_ifs with hfull
  · obtain ⟨h', heq, hrebuilt, -⟩ := inv.compactEntries hfull.2
    exact ⟨h', heq, hrebuilt⟩
  · exact ⟨h, rfl, inv, rfl⟩

theorem Inv.growWhenFull (inv : h.Inv) :
    Rebuilt h h.growWhenFull ∧ h.growWhenFull.entries.length < h.growWhenFull.orderCap := by
  have horder := inv.order
  have hgrow : ∀ cap, h.entries.length ≤ cap → Rebuilt h (h.growEntries cap) := fun cap hle =>
    ⟨{ inv with order := hle }, rfl⟩
  unfold AssocHeader.growWhenFull
  split_ifs with hfull hzero
  · exact ⟨hgrow 4 (by omega), show h.entries.length < 4 by omega⟩
  · exact ⟨hgrow _ (by omega), show h.entries.length < h.orderCap * 2 by omega⟩
  · exact ⟨⟨inv, rfl⟩, by omega⟩

/-- there is room for one more entry -/
structure Ready (h : AssocHeader kind V) : Prop where
  order : h.entries.length < h.orderCap
  cap : 0 < h.bucketCap
  load : 4 * (h.len + h.tombstones + 1) < 3 * h.bucketCap

theorem Inv.rehashWhenLoaded (inv : h.Inv) (horder : h.entries.length < h.orderCap) :
    ∃ h', h.rehashWhenLoaded = some h' ∧ Rebuilt h h' ∧ h'.Ready := by
  have hrehash : ∀ cap, PowerOfTwo cap → 8 ≤ cap → 4 * (h.len + 1) < 3 * cap →
      ∃ h', h.rehash cap = some h' ∧ Rebuilt h h' ∧ h'.Ready := by
    intro cap hpower hcap hload
    obtain ⟨h', heq, hrebuilt, hcap', htombs, hlen, hcap'', hentries⟩ := inv.rehash hpower hcap (by omega)
    exact ⟨h', heq, hrebuilt, by rwa [hcap'', hentries], by omega, by omega⟩
  unfold AssocHeader.rehashWhenLoaded
  split_ifs with hloaded hzero hgrow
  · have hlen : h.len = 0 := by
      rw [inv.len, inv.unused hzero]
      rfl
    exact hrehash 8 ⟨3, rfl⟩ (Nat.le_refl 8) (by omega)
  · rcases inv.power with hcap | ⟨hpower, hcap⟩
    · exact absurd hcap hzero
    · have := inv.load (by omega)
      exact hrehash _ hpower.double (by omega) (by omega)
  · rcases inv.power with hcap | ⟨hpower, hcap⟩
    · exact absurd hcap hzero
    · exact hrehash _ hpower hcap (by omega)
  · exact ⟨h, rfl, ⟨inv, rfl⟩, horder, by omega, by omega⟩

theorem Inv.ensureCapacity (inv : h.Inv) : ∃ h', h.ensureCapacity = some h' ∧ Rebuilt h h' ∧ h'.Ready := by
  obtain ⟨h₁, heq₁, hrebuilt₁⟩ := inv.compactWhenFull
  obtain ⟨hrebuilt₂, horder⟩ := hrebuilt₁.inv.growWhenFull
  obtain ⟨h₃, heq₃, hrebuilt₃, hready⟩ := hrebuilt₂.inv.rehashWhenLoaded horder
  refine ⟨h₃, ?_, (hrebuilt₁.trans hrebuilt₂).trans hrebuilt₃, hready⟩
  rw [AssocHeader.ensureCapacity, heq₁]
  exact heq₃

/-! ### The walk -/

theorem exists_split {α : Type} {l : List α} {i : Nat} {x : α} (h : l[i]? = some x) :
    ∃ before after, l = before ++ x :: after ∧ before.length = i := by
  obtain ⟨hlt, rfl⟩ := List.getElem?_eq_some_iff.mp h
  refine ⟨l.take i, l.drop (i + 1), ?_, ?_⟩
  · rw [getElem_cons_drop, take_append_drop]
  · rw [length_take]
    omega

/-- the keys of the walk, against a key that is looked for -/
theorem Inv.same_iff (inv : h.Inv) (hx : x ∈ h.entries.reduceOption) :
    sameValueZero kind x.key key = true ↔ x.key = storedKey kind key := by
  rw [← keysEqual_eq_sameValueZero, ← storedKey_eq_iff, (inv.stored x hx).2]

theorem Inv.absent_walk (inv : h.Inv) (habsent : ∀ x ∈ h.entries.reduceOption, x.key ≠ storedKey kind key) :
    ∀ p ∈ h.walk, sameValueZero kind p.1 key = false := by
  intro p hp
  obtain ⟨x, hx, rfl⟩ := mem_map.mp hp
  exact Bool.eq_false_of_not_eq_true fun hsame => habsent x hx ((inv.same_iff hx).mp hsame)

/-- the walk is split at the entry that has the key, and no other has it -/
structure Located (h : AssocHeader kind V) (key : KeySlot kind) (e : Nat) (x : Entry kind V)
    (before after : List (Option (Entry kind V))) : Prop where
  entries : h.entries = before ++ some x :: after
  index : before.length = e
  same : sameValueZero kind x.key key = true
  before_other : ∀ p ∈ before.reduceOption.map (fun x => (x.key, x.value)), sameValueZero kind p.1 key = false
  after_other : ∀ p ∈ after.reduceOption.map (fun x => (x.key, x.value)), sameValueZero kind p.1 key = false

variable {before after : List (Option (Entry kind V))}

theorem Located.walk (hlocated : h.Located key e x before after) :
    h.walk = before.reduceOption.map (fun x => (x.key, x.value)) ++
      (x.key, x.value) :: after.reduceOption.map (fun x => (x.key, x.value)) := by
  rw [AssocHeader.walk, hlocated.entries, reduceOption_append, reduceOption_cons_of_some, map_append,
    map_cons]

theorem Inv.located (inv : h.Inv) (hx : h.entries[e]? = some (some x))
    (hkey : x.key = storedKey kind key) : ∃ before after, h.Located key e x before after := by
  obtain ⟨before, after, hsplit, hindex⟩ := exists_split hx
  have hactive : h.entries.reduceOption = before.reduceOption ++ x :: after.reduceOption := by
    rw [hsplit, reduceOption_append, reduceOption_cons_of_some]
  have hdistinct := inv.distinct
  rw [hactive, map_append, map_cons, nodup_append] at hdistinct
  obtain ⟨-, hafter, hbefore⟩ := hdistinct
  have hother : ∀ y ∈ h.entries.reduceOption, y.key ≠ x.key → sameValueZero kind y.key key = false := fun y hy hne =>
    Bool.eq_false_of_not_eq_true fun hsame => hne (((inv.same_iff hy).mp hsame).trans hkey.symm)
  refine ⟨before, after, hsplit, hindex, ?_, ?_, ?_⟩
  · exact (inv.same_iff (mem_active.mpr ⟨e, hx⟩)).mpr hkey
  · intro p hp
    obtain ⟨y, hy, rfl⟩ := mem_map.mp hp
    refine hother y (by rw [hactive]; exact mem_append_left _ hy) ?_
    exact hbefore _ (mem_map_of_mem hy) _ mem_cons_self
  · intro p hp
    obtain ⟨y, hy, rfl⟩ := mem_map.mp hp
    refine hother y (by rw [hactive]; exact mem_append_right _ (mem_cons_of_mem _ hy)) fun heq => ?_
    exact (nodup_cons.mp hafter).1 (heq ▸ mem_map_of_mem hy)

/-! ### Reading -/

theorem findEntry_eq (key : KeySlot kind) : h.findEntry key = (h.lookup key (hashKey kind key)).entry := by
  rw [findEntry]
  split_ifs with hcap
  · rw [lookup_unused hcap]
  · rfl

theorem Inv.get_eq (inv : h.Inv) (key : KeySlot kind) : h.get key = h.walk.find (sameValueZero kind) key := by
  rw [AssocHeader.get, findEntry_eq]
  cases hentry : (h.lookup key (hashKey kind key)).entry with
  | none => exact (OrderedMap.find_absent (inv.absent_walk (inv.lookup_none hentry))).symm
  | some e =>
    obtain ⟨-, -, x, hx, hkey⟩ := inv.lookup_some hentry
    obtain ⟨before, after, hlocated⟩ := inv.located hx hkey
    rw [hlocated.walk, OrderedMap.find_split hlocated.before_other hlocated.same]
    simp [hx]

theorem Inv.has_eq (inv : h.Inv) (key : KeySlot kind) :
    h.has key = (h.walk.find (sameValueZero kind) key).isSome := by
  rw [← inv.get_eq, AssocHeader.has, AssocHeader.get, findEntry_eq]
  cases hentry : (h.lookup key (hashKey kind key)).entry with
  | none => rfl
  | some e =>
    obtain ⟨-, -, x, hx, -⟩ := inv.lookup_some hentry
    simp [hx]

/-! ### Writing -/

/-- only the hashes of the active entries matter to the index -/
theorem homes_congr {entries' : List (Option (Entry kind V))}
    (hhashes : entries.map (Option.map Entry.hash) = entries'.map (Option.map Entry.hash)) :
    homes cap entries = homes cap entries' := by
  have hmap : ∀ (entries : List (Option (Entry kind V))) (e : Nat),
      homes cap entries e = ((entries.map (Option.map Entry.hash))[e]?.join).map (homeBucket cap) := by
    intro entries e
    rw [homes, getElem?_map]
    rcases entries[e]? with - | - | x <;> rfl
  funext e
  rw [hmap, hmap, hhashes]

theorem homes_set_none (entries : List (Option (Entry kind V))) (e : Nat) :
    homes cap (entries.set e none) = Function.update (homes cap entries) e none := by
  funext e'
  rw [Function.update_apply, homes, homes, getElem?_set]
  split_ifs <;> first | rfl | omega

theorem Located.overwrite (hlocated : h.Located key e x before after) (value : V) :
    (h.overwrite e value).entries = before ++ some { x with value } :: after := by
  obtain ⟨hentries, rfl, -⟩ := hlocated
  rw [AssocHeader.overwrite, hentries, modify_eq_take_cons_drop (by simp)]
  simp

theorem Inv.overwrite (inv : h.Inv) (hlocated : h.Located key e x before after) (value : V) : (h.overwrite e value).Inv := by
  have hentries := hlocated.overwrite value
  have hold := hlocated.entries
  have hkeys : ((h.overwrite e value).entries.reduceOption.map fun x => (x.hash, x.key)) =
      h.entries.reduceOption.map fun x => (x.hash, x.key) := by
    rw [hentries, hold]
    simp [reduceOption_append]
  have hhomes : homes h.bucketCap (h.overwrite e value).entries = homes h.bucketCap h.entries := by
    apply homes_congr
    rw [hentries, hold]
    simp
  have hlength : (h.overwrite e value).entries.length = h.entries.length := by
    rw [hentries, hold]
    simp
  exact
    { length := inv.length
      power := inv.power
      unused := fun hzero => by
        rw [inv.unused hzero] at hlength
        exact eq_nil_of_length_eq_zero hlength
      order := by
        rw [hlength]
        exact inv.order
      len := by
        have := congrArg List.length hkeys
        rw [length_map, length_map] at this
        rw [this]
        exact inv.len
      buried := inv.buried
      named := inv.named
      load := inv.load
      indexed := by
        have := inv.indexed
        rwa [← hhomes] at this
      stored := by
        intro y hy
        have hmem : (y.hash, y.key) ∈ h.entries.reduceOption.map fun x => (x.hash, x.key) :=
          hkeys ▸ mem_map_of_mem hy
        obtain ⟨x, hx, heq⟩ := mem_map.mp hmem
        obtain ⟨hhash, hkey⟩ := Prod.mk.inj heq
        rw [← hhash, ← hkey]
        exact inv.stored x hx
      distinct := by
        have := congrArg (List.map Prod.snd) hkeys
        rw [map_map, map_map] at this
        exact Eq.mpr (congrArg List.Nodup this) inv.distinct }

variable {bucket : Nat}

/-- the entry is zeroed and its bucket becomes a tombstone -/
theorem Inv.delete (inv : h.Inv)
    (hlocated : h.Located key e x before after) (hcap : 0 < h.bucketCap) (hbucket : h.buckets[bucket]? = some (.entry e)) :
    Inv { h with
      buckets := h.buckets.set bucket .tombstone
      entries := h.entries.set e none
      len := h.len - 1
      tombstones := h.tombstones + 1 } := by
  have hset : h.entries.set e none = before ++ none :: after := by
    rw [hlocated.entries, ← hlocated.index]
    simp
  have hactive : h.entries.reduceOption = before.reduceOption ++ x :: after.reduceOption := by
    rw [hlocated.entries, reduceOption_append, reduceOption_cons_of_some]
  have hactive' : (h.entries.set e none).reduceOption = before.reduceOption ++ after.reduceOption := by
    rw [hset, reduceOption_append, reduceOption_cons_of_none]
  have hsub : ((h.entries.set e none).reduceOption).Sublist h.entries.reduceOption := by
    rw [hactive, hactive']
    exact List.Sublist.append_left (sublist_cons_self _ _) _
  have hlen : h.len = before.reduceOption.length + after.reduceOption.length + 1 := by
    rw [inv.len, hactive, length_append, length_cons]
    rfl
  obtain ⟨hcount, hcountP⟩ := counts_set (t := .tombstone) hbucket
  exact
    { length := by
        rw [length_set]
        exact inv.length
      power := inv.power
      unused := fun hzero => absurd (show h.bucketCap = 0 from hzero) (by omega)
      order := by
        rw [length_set]
        exact inv.order
      len := by
        rw [hactive', length_append]
        exact Nat.sub_eq_of_eq_add hlen
      buried := by
        rw [← inv.buried]
        simpa using hcount
      named := by
        have hnamed := inv.named
        show (h.buckets.set bucket .tombstone).countP Slot.isEntry = h.len - 1
        simp [Slot.isEntry] at hcountP
        omega
      load := fun _ => by
        have := inv.load hcap
        show 4 * (h.len - 1 + (h.tombstones + 1)) < 3 * h.bucketCap
        omega
      indexed := by
        rw [homes_set_none]
        exact inv.indexed.bury hbucket
      stored := fun y hy => inv.stored y (hsub.subset hy)
      distinct := inv.distinct.sublist (hsub.map _) }

theorem Inv.append (inv : h.Inv) (hready : h.Ready) (hfree : ∀ e, h.buckets[bucket]? ≠ some (.entry e))
    (hreach : Reaches h.buckets (homeBucket h.bucketCap (hashKey kind key)) bucket)
    (habsent : ∀ x ∈ h.entries.reduceOption, x.key ≠ storedKey kind key) :
    (h.append bucket (hashKey kind key) key value).Inv := by
  have hactive : (h.entries ++ [some (Entry.mk (hashKey kind key) (storedKey kind key) value)]).reduceOption =
      h.entries.reduceOption ++ [Entry.mk (hashKey kind key) (storedKey kind key) value] := by
    rw [reduceOption_append, reduceOption_cons_of_some, reduceOption_nil]
  have hnew : homes h.bucketCap h.entries h.entries.length = none := by
    rw [homes, getElem?_eq_none (Nat.le_refl _)]
    rfl
  have hlt : bucket < h.buckets.length := by
    obtain ⟨offset, hoffset, rfl, -⟩ := hreach
    exact pathAt_lt (by omega) _ _
  have hslot := getD_eq hlt
  obtain ⟨hcount, hcountP⟩ := counts_set (t := .entry h.entries.length) hslot
  have hload := hready.load
  have hburied := inv.buried
  have hnamed := inv.named
  have hnotEntry : (h.buckets.getD bucket .empty).isEntry = false := by
    cases hs : h.buckets.getD bucket .empty with
    | entry e => exact absurd (hs ▸ hslot) (hfree e)
    | empty => rfl
    | tombstone => rfl
  have htombs : (h.append bucket (hashKey kind key) key value).tombstones ≤ h.tombstones := by
    show (if h.buckets.getD bucket .empty = .tombstone then h.tombstones - 1 else h.tombstones) ≤ h.tombstones
    split_ifs <;> omega
  exact
    { length := by
        show (h.buckets.set _ _).length = _
        rw [length_set]
        exact inv.length
      power := inv.power
      unused := fun hzero => absurd (show h.bucketCap = 0 from hzero) (Nat.pos_iff_ne_zero.mp hready.cap)
      order := by
        show (h.entries ++ [_]).length ≤ h.orderCap
        rw [length_append]
        exact hready.order
      len := by
        show h.len + 1 = (h.entries ++ [_]).reduceOption.length
        rw [hactive, length_append, inv.len]
        rfl
      buried := by
        show (h.buckets.set _ _).count _ = if h.buckets.getD bucket .empty = .tombstone then h.tombstones - 1 else h.tombstones
        simp only [reduceCtorEq, if_false] at hcount
        split_ifs at hcount ⊢ <;> omega
      named := by
        show (h.buckets.set _ _).countP _ = h.len + 1
        rw [hnotEntry, if_neg Bool.false_ne_true, if_pos (Slot.isEntry_entry _)] at hcountP
        omega
      load := fun _ => by
        show 4 * (h.len + 1 + _) < 3 * h.bucketCap
        omega
      indexed := by
        show Indexed (h.buckets.set _ _) (homes h.bucketCap (h.entries ++ [_]))
        rw [homes_push_some]
        exact inv.indexed.place hlt hfree hreach hnew
      stored := by
        intro x hx
        rcases mem_append.mp (hactive ▸ hx) with hx | hx
        · exact inv.stored x hx
        · cases mem_singleton.mp hx
          exact ⟨(hashKey_storedKey kind key).symm, storedKey_storedKey kind key⟩
      distinct := by
        show ((h.entries ++ [_]).reduceOption.map Entry.key).Nodup
        rw [hactive, map_append]
        refine nodup_append.mpr ⟨inv.distinct, pairwise_singleton .., fun k hk k' hk' => ?_⟩
        obtain ⟨x, hx, rfl⟩ := mem_map.mp hk
        rw [mem_singleton.mp hk']
        exact habsent x hx }

theorem Inv.insert_eq (inv : h.Inv) (key : KeySlot kind) (value : V) :
    ∃ h', h.insert key value = some h' ∧ h'.Inv ∧
      h'.walk = h.walk.set (sameValueZero kind) (storedKey kind key) value := by
  rw [insert]
  cases hentry : (h.lookup key (hashKey kind key)).entry with
  | some e =>
    obtain ⟨-, -, x, hx, hkey⟩ := inv.lookup_some hentry
    obtain ⟨before, after, hlocated⟩ := inv.located hx (hkey.trans (storedKey_storedKey kind key).symm)
    refine ⟨_, rfl, inv.overwrite hlocated value, ?_⟩
    rw [hlocated.walk, OrderedMap.set_split hlocated.before_other hlocated.same hlocated.after_other, walk,
      hlocated.overwrite value, reduceOption_append, reduceOption_cons_of_some, map_append, map_cons]
  | none =>
    have habsent := inv.lookup_none hentry
    obtain ⟨h', heq, hrebuilt, hready⟩ := inv.ensureCapacity
    have habsent' : ∀ x ∈ h'.entries.reduceOption, x.key ≠ storedKey kind key := hrebuilt.active ▸ habsent
    obtain ⟨hfree, hreach⟩ := hrebuilt.inv.lookup_free hready.cap habsent'
    refine ⟨h'.append (h'.lookup key (hashKey kind key)).bucket (hashKey kind key) key value, ?_,
      hrebuilt.inv.append hready hfree hreach habsent', ?_⟩
    · rw [heq]
      rfl
    · have hcanonical := storedKey_storedKey kind key
      rw [OrderedMap.set_absent (inv.absent_walk (hcanonical.symm ▸ habsent)), walk, walk, ← hrebuilt.active]
      simp [AssocHeader.append, reduceOption_append]

theorem Inv.delete_eq (inv : h.Inv) (key : KeySlot kind) :
    (h.delete key).1 = (h.walk.find (sameValueZero kind) key).isSome ∧ (h.delete key).2.Inv ∧
      (h.delete key).2.walk = h.walk.erase (sameValueZero kind) key := by
  cases hentry : (h.lookup key (hashKey kind key)).entry with
  | none =>
    have hkept : h.delete key = (false, h) := by
      rw [AssocHeader.delete]
      split_ifs
      · rfl
      · simp only [hentry]
    have habsent := inv.absent_walk (inv.lookup_none hentry)
    rw [hkept, OrderedMap.find_absent habsent, OrderedMap.erase_absent habsent]
    exact ⟨rfl, inv, rfl⟩
  | some e =>
    obtain ⟨hcap, hbucket, x, hx, hkey⟩ := inv.lookup_some hentry
    obtain ⟨before, after, hlocated⟩ := inv.located hx hkey
    rw [AssocHeader.delete, if_neg (Nat.pos_iff_ne_zero.mp hcap)]
    simp only [hentry]
    refine ⟨?_, inv.delete hlocated hcap hbucket, ?_⟩
    · rw [hlocated.walk, OrderedMap.find_split hlocated.before_other hlocated.same]
      rfl
    · rw [hlocated.walk, OrderedMap.erase_split hlocated.before_other hlocated.same hlocated.after_other, walk,
        hlocated.entries, ← hlocated.index]
      simp [reduceOption_append]

end AssocHeader

/-! ### Runs -/

/-- the size of an ordered map, as the container reports it -/
def AssocResult.cast : AssocResult kind V → AssocResult kind V
  | .size n => .size (BitVec.ofInt 32 n).toInt
  | result => result

/-- one operation -/
theorem AssocOp.step_refines (op : AssocOp kind V) (inv : h.Inv) :
    ∃ h', op.step h = some ((op.spec h.walk).1.cast, h') ∧ h'.Inv ∧ h'.walk = (op.spec h.walk).2 := by
  cases op with
  | set key value =>
    obtain ⟨h', heq, inv', hwalk⟩ := inv.insert_eq key value
    refine ⟨h', ?_, inv', hwalk⟩
    rw [step, heq]
    rfl
  | delete key =>
    obtain ⟨hflag, inv', hwalk⟩ := inv.delete_eq key
    exact ⟨_, by rw [step, hflag]; rfl, inv', hwalk⟩
  | clear => exact ⟨_, rfl, AssocHeader.inv_new, rfl⟩
  | get key => exact ⟨h, by rw [step, inv.get_eq]; rfl, inv, rfl⟩
  | getOr key fallback => exact ⟨h, by rw [step, AssocHeader.getOr, inv.get_eq]; rfl, inv, rfl⟩
  | has key => exact ⟨h, by rw [step, inv.has_eq]; rfl, inv, rfl⟩
  | size =>
    refine ⟨h, ?_, inv, rfl⟩
    rw [step, spec, AssocResult.cast, AssocHeader.walk, length_map, ← inv.len, BitVec.ofInt_natCast]
    rfl
  | walk => exact ⟨h, rfl, inv, rfl⟩

theorem assocRun_refines (ops : List (AssocOp kind V)) (inv : h.Inv) :
    ∃ h', assocRun ops h = some ((specRun ops h.walk).1.map AssocResult.cast, h') ∧ h'.Inv ∧
      h'.walk = (specRun ops h.walk).2 := by
  induction ops generalizing h with
  | nil => exact ⟨h, rfl, inv, rfl⟩
  | cons op ops ih =>
    obtain ⟨h₁, heq₁, inv₁, hwalk₁⟩ := op.step_refines inv
    obtain ⟨h₂, heq₂, inv₂, hwalk₂⟩ := ih inv₁
    rw [hwalk₁] at heq₂ hwalk₂
    refine ⟨h₂, ?_, inv₂, hwalk₂⟩
    rw [assocRun, heq₁]
    simp only [Option.bind_eq_bind, Option.bind_some, heq₂]
    rfl

/-- the map is small enough for the operation to report on it -/
def AssocOp.Fits (m : OrderedMap (KeySlot kind) V) : AssocOp kind V → Prop
  | .size => m.length < 2 ^ 31
  | _ => True

/-- every size is asked of fewer than 2^31 keys -/
def SizesFit : List (AssocOp kind V) → OrderedMap (KeySlot kind) V → Prop
  | [], _ => True
  | op :: ops, m => op.Fits m ∧ SizesFit ops (op.spec m).2

theorem AssocOp.cast_eq_iff (op : AssocOp kind V) (m : OrderedMap (KeySlot kind) V) :
    (op.spec m).1.cast = (op.spec m).1 ↔ op.Fits m := by
  cases op with
  | size =>
    have hcast : (BitVec.ofInt 32 m.length).toInt = m.length ↔ m.length < 2 ^ 31 := by
      rw [BitVec.ofInt_natCast, BitVec.toInt_eq_toNat_cond, BitVec.toNat_ofNat]
      split_ifs <;> omega
    rw [spec, AssocResult.cast, Fits, ← hcast]
    exact ⟨fun h => AssocResult.size.inj h, fun h => congrArg _ h⟩
  | _ => exact iff_of_true rfl trivial

theorem map_cast_eq_iff (ops : List (AssocOp kind V)) (m : OrderedMap (KeySlot kind) V) :
    (specRun ops m).1.map AssocResult.cast = (specRun ops m).1 ↔ SizesFit ops m := by
  induction ops generalizing m with
  | nil => exact iff_of_true rfl trivial
  | cons op ops ih =>
    rw [specRun, map_cons, List.cons.injEq, op.cast_eq_iff, ih]
    rfl

/-- Every sequence of operations returns, whatever grows, is rehashed or packed on the way; the walk is that of the
ordered map, and so is every result, except that a size of 2^31 or more is cast to 32 bits. -/
theorem assocRun_eq_specRun_iff (kind : KeyKind) (V : Type) (ops : List (AssocOp kind V)) :
    ∃ results h, assocRun ops (AssocHeader.new : AssocHeader kind V) = some (results, h) ∧
      results = (specRun ops []).1.map AssocResult.cast ∧ h.walk = (specRun ops []).2 ∧
      (results = (specRun ops []).1 ↔ SizesFit ops []) := by
  have inv : AssocHeader.Inv (AssocHeader.new : AssocHeader kind V) := AssocHeader.inv_new
  obtain ⟨h, heq, -, hwalk⟩ := assocRun_refines ops inv
  exact ⟨_, h, heq, rfl, hwalk, map_cast_eq_iff ops []⟩

/-! ### Two to the thirty-first keys -/

/-- a set of 32-bit keys to which the first `n` numbers are added -/
def addKeys (n : Nat) : List (AssocOp (.bits .four) Unit) := (List.range n).map fun i => .set (BitVec.ofNat 32 i) ()

theorem specRun_cons (op : AssocOp kind V) (ops : List (AssocOp kind V)) (m : OrderedMap (KeySlot kind) V) :
    specRun (op :: ops) m = ((op.spec m).1 :: (specRun ops (op.spec m).2).1, (specRun ops (op.spec m).2).2) := rfl

theorem specRun_append (ops ops' : List (AssocOp kind V)) (m : OrderedMap (KeySlot kind) V) :
    specRun (ops ++ ops') m =
      ((specRun ops m).1 ++ (specRun ops' (specRun ops m).2).1, (specRun ops' (specRun ops m).2).2) := by
  induction ops generalizing m with
  | nil => rfl
  | cons op ops ih =>
    rw [cons_append, specRun_cons, ih, specRun_cons]
    rfl

theorem specRun_addKeys (n : Nat) (hn : n ≤ 2 ^ 32) :
    (specRun (addKeys n) []).2 = (List.range n).map fun i => (BitVec.ofNat 32 i, ()) := by
  induction n with
  | zero => rfl
  | succ n ih =>
    have habsent : ∀ p ∈ (List.range n).map fun i => (BitVec.ofNat 32 i, ()),
        sameValueZero (.bits .four) p.1 (BitVec.ofNat 32 n) = false := by
      intro p hp
      obtain ⟨i, hi, rfl⟩ := mem_map.mp hp
      have hi := mem_range.mp hi
      refine decide_eq_false fun heq => ?_
      have := congrArg BitVec.toNat heq
      simp only [BitVec.toNat_ofNat] at this
      omega
    rw [addKeys, range_succ, map_append, specRun_append]
    show ((specRun (addKeys n) []).2.set _ _ _ : OrderedMap _ _) = _
    rw [ih (by omega), storedKey, OrderedMap.set_absent habsent, map_append]
    rfl

theorem specRun_addKeys_size (n : Nat) (hn : n ≤ 2 ^ 32) :
    (specRun (addKeys n ++ [.size]) []).1 = (specRun (addKeys n) []).1 ++ [.size n] := by
  have hlength : (specRun (addKeys n) []).2.length = n := by
    rw [specRun_addKeys n hn, length_map, length_range]
  rw [specRun_append, specRun_cons]
  exact congrArg (fun n : Nat => (specRun (addKeys _) []).1 ++ [AssocResult.size n]) hlength

theorem assocRun_addKeys_size (n : Nat) (hn : n ≤ 2 ^ 32) :
    ∃ results h, assocRun (addKeys n ++ [.size]) AssocHeader.new = some (results, h) ∧
      results.getLast? = some (.size (BitVec.ofInt 32 n).toInt) ∧
      (specRun (addKeys n ++ [.size]) []).1.getLast? = some (.size n) := by
  obtain ⟨h, heq, -⟩ := assocRun_refines (addKeys n ++ [.size]) AssocHeader.inv_new
  have hlast := specRun_addKeys_size n hn
  refine ⟨_, h, heq, ?_, ?_⟩
  · show ((specRun (addKeys n ++ [.size]) []).1.map AssocResult.cast).getLast? = _
    rw [hlast, map_append, map_singleton, getLast?_concat]
    rfl
  · rw [hlast, getLast?_concat]

/-- a set with 2^31 keys says that its size is negative -/
theorem size_negative :
    ∃ results h, assocRun (addKeys (2 ^ 31) ++ [.size]) AssocHeader.new = some (results, h) ∧
      results.getLast? = some (.size (-2 ^ 31)) ∧
      (specRun (addKeys (2 ^ 31) ++ [.size]) []).1.getLast? = some (.size (2 ^ 31)) :=
  assocRun_addKeys_size (2 ^ 31) (by decide)

end Subscript.Runtime
