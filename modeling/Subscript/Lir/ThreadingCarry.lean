import Subscript.Lir.ThreadingRewrite

/-! The first part of `thread_suspension_live_ins`: each suspend successor gets a parameter for every value
that is live at its entry. No edge passes anything for them yet. -/

namespace Subscript.Lir

open List

/-- a loop that stops at the first error does not, if every step goes well -/
theorem foldlM_ok {α β ε : Type} {g : β → α → Except ε β} {P : List α → β → Prop} {l : List α} {b : β}
    (hstart : P [] b)
    (hstep : ∀ pre x b, x ∈ l → pre ++ [x] <+: l → P pre b → ∃ b', g b x = .ok b' ∧ P (pre ++ [x]) b') :
    ∃ b', l.foldlM g b = .ok b' ∧ P l b' := by
  have walk : ∀ (rest pre : List α) (b : β), pre ++ rest = l → P pre b →
      ∃ b', rest.foldlM g b = .ok b' ∧ P l b' := by
    intro rest
    induction rest with
    | nil =>
      intro pre b heq hP
      rw [append_nil] at heq
      exact ⟨b, rfl, heq ▸ hP⟩
    | cons x rest ih =>
      intro pre b heq hP
      have hmem : x ∈ l := heq ▸ mem_append_right _ mem_cons_self
      obtain ⟨b', hb', hP'⟩ := hstep pre x b hmem ⟨rest, by simpa using heq⟩ hP
      obtain ⟨b'', hb'', hP''⟩ := ih (pre ++ [x]) b' (by simpa using heq) hP'
      refine ⟨b'', ?_, hP''⟩
      rw [foldlM_cons, hb']
      exact hb''
  exact walk l [] b rfl hstart

theorem flatten_modify_append {α : Type*} {l : List (List α)} {d : Nat} (hd : d < l.length) (x : α) :
    (l.modify d (· ++ [x])).flatten.Perm (l.flatten ++ [x]) := by
  induction l generalizing d with
  | nil => exact absurd hd (Nat.not_lt_zero d)
  | cons xs l ih =>
    cases d with
    | zero =>
      simp only [modify_zero_cons, flatten_cons, append_assoc]
      exact (perm_append_comm).append_left xs
    | succ d =>
      simp only [modify_succ_cons, flatten_cons, append_assoc]
      exact (ih (Nat.lt_of_succ_lt_succ hd)).append_left xs

/-- What holds while the parameters are added. -/
structure CarryInv (f : Function) (liveIn : LiveSets) (c : Carrying) : Prop where
  frame : f.SameFrame c.function
  length : c.carried.length = f.blocks.length
  blocks : c.function.blocks = f.blocks.mapIdx fun b block =>
    { retainInvalidates liveIn block with parameters := block.parameters ++ (c.carried.getD b []).map Prod.snd }
  le : f.values.length ≤ c.function.values.length
  fresh : (c.carried.flatten.map Prod.snd).Perm
    (List.range' f.values.length (c.function.values.length - f.values.length))

variable {f : Function} {liveIn : LiveSets} {c : Carrying}

theorem carryValue_spec (hc : CarryInv f liveIn c) {destination : BlockId} (hd : destination < f.blocks.length)
    {original : ValueId} (ho : original < f.values.length) :
    ∃ c', carryValue destination c original = .ok c' ∧ CarryInv f liveIn c' ∧
      c'.carried = c.carried.modify destination (· ++ [(original, c.function.values.length)]) := by
  have hlt : original < c.function.values.length := Nat.lt_of_lt_of_le ho hc.le
  unfold carryValue
  rw [getElem?_eq_getElem hlt]
  refine ⟨_, rfl, ⟨⟨hc.frame.entry, hc.frame.parameters, hc.frame.locals⟩, ?_, ?_, ?_, ?_⟩, rfl⟩
  · simpa using hc.length
  · refine ext_getElem? fun b => ?_
    simp only [hc.blocks, getElem?_modify, getElem?_mapIdx, getD_eq_getElem?_getD]
    cases hb : f.blocks[b]? with
    | none => rfl
    | some block =>
      have hbc : b < c.carried.length := hc.length ▸ (List.getElem?_eq_some_iff.mp hb).1
      rw [getElem?_eq_getElem hbc]
      by_cases hbd : destination = b <;> simp [hbd]
  · exact Nat.le_trans hc.le (by simp)
  · have hperm := (flatten_modify_append (hc.length ▸ hd) (original, c.function.values.length)).map Prod.snd
    refine hperm.trans ?_
    rw [map_append]
    refine (hc.fresh.append_right _).trans ?_
    have hsub : (c.function.values ++ [{ c.function.values[original] with id := c.function.values.length }]).length -
        f.values.length = (c.function.values.length - f.values.length) + 1 := by
      rw [length_append, length_singleton, Nat.sub_add_comm hc.le]
    rw [hsub, range'_concat]
    simp only [Nat.one_mul, Nat.add_sub_cancel' hc.le, map_cons, map_nil]
    exact .refl _

/-- the originals that a block carries -/
def Carrying.originals (c : Carrying) (b : BlockId) : List ValueId := (c.carried.getD b []).map Prod.fst

theorem carrySuccessor_spec (hf : f.Indexed) (hc : CarryInv f liveIn c) {d : BlockId} (hd : d < f.blocks.length)
    (hlive : ∀ v ∈ liveIn.of d, v < f.values.length) :
    ∃ c', carrySuccessor liveIn c d = .ok c' ∧ CarryInv f liveIn c' ∧
      ∀ b, c'.originals b = c.originals b ++ if b = d then ascending (liveIn.of d) else [] := by
  have hget : ∃ destination, c.function.blocks[d]? = some destination ∧ destination.id = d := by
    rw [hc.blocks, getElem?_mapIdx, getElem?_eq_getElem hd]
    refine ⟨_, rfl, ?_⟩
    have hid := hf.block (getElem?_eq_getElem hd)
    simp only [retainInvalidates]
    split <;> exact hid
  obtain ⟨destination, hdest, hid⟩ := hget
  obtain ⟨c', hok, hc', horiginals⟩ := foldlM_ok
    (P := fun pre c' => CarryInv f liveIn c' ∧ ∀ b, c'.originals b = c.originals b ++ if b = d then pre else [])
    ⟨hc, fun b => by simp⟩ (by
      rintro pre v c₁ hv - ⟨hc₁, horiginals⟩
      obtain ⟨c₂, hok, hc₂, hcarried⟩ := carryValue_spec hc₁ hd (hlive v (mem_ascending.mp hv))
      refine ⟨c₂, hok, hc₂, fun b => ?_⟩
      have horig : c₂.originals b = c₁.originals b ++ if b = d then [v] else [] := by
        rw [Carrying.originals, Carrying.originals, hcarried, getD_eq_getElem?_getD, getD_eq_getElem?_getD,
          getElem?_modify]
        by_cases hb : b = d
        · subst hb
          rw [getElem?_eq_getElem (hc₁.length ▸ hd)]
          simp
        · simp [hb, Ne.symm hb]
      rw [horig, horiginals b]
      split_ifs <;> simp)
  refine ⟨c', ?_, hc', horiginals⟩
  unfold carrySuccessor
  simp only [hdest, hid]
  exact hok

theorem mem_suspendSuccessors {b : BlockId} : b ∈ suspendSuccessors f ↔ ResumeBlock f b := by
  simp only [suspendSuccessors, mem_ascending, mem_toFinset, mem_filterMap, ResumeBlock]
  constructor
  · rintro ⟨block, hmem, hr⟩
    obtain ⟨a, ha⟩ := mem_iff_getElem?.mp hmem
    exact ⟨a, block, ha, hr⟩
  · rintro ⟨a, block, ha, hr⟩
    exact ⟨block, mem_of_getElem? ha, hr⟩

theorem retainInvalidates_parameters (liveIn : LiveSets) (block : BasicBlock) :
    (retainInvalidates liveIn block).parameters = block.parameters := by
  unfold retainInvalidates
  split <;> rfl

/-- What the first part leaves: every suspend successor carries the values live at its entry, in ascending
order, each in a parameter of its own. -/
theorem carryLiveIns_spec (hf : f.Indexed) (hres : ∀ b, ResumeBlock f b → b < f.blocks.length)
    (hlive : ∀ b, ∀ v ∈ liveIn.of b, v < f.values.length) :
    ∃ c, carryLiveIns f liveIn = .ok c ∧ CarryInv f liveIn c ∧
      ∀ b, (ResumeBlock f b → c.originals b = ascending (liveIn.of b)) ∧ (¬ ResumeBlock f b → c.originals b = []) := by
  have hnodup : (suspendSuccessors f).Nodup := (pairwise_ascending _).imp fun h => Nat.ne_of_lt h
  obtain ⟨c, hok, hc, horiginals⟩ := foldlM_ok
    (b := { function := { f with blocks := f.blocks.map (retainInvalidates liveIn) }
            valueOrigins := List.range f.values.length
            carried := List.replicate f.blocks.length [] })
    (P := fun pre c => CarryInv f liveIn c ∧ ∀ b, c.originals b = if b ∈ pre then ascending (liveIn.of b) else [])
    (by
      have hnone : ∀ b, (List.replicate f.blocks.length ([] : List (ValueId × ValueId))).getD b [] = [] := by
        intro b
        rw [getD_eq_getElem?_getD, getElem?_replicate]
        split_ifs <;> rfl
      refine ⟨⟨⟨rfl, rfl, rfl⟩, by simp, ?_, le_rfl, ?_⟩, fun b => by rw [Carrying.originals, hnone]; simp⟩
      · refine ext_getElem? fun b => ?_
        simp only [getElem?_map, getElem?_mapIdx, hnone, map_nil, append_nil]
        refine congrArg₂ _ (funext fun block => ?_) rfl
        rw [← retainInvalidates_parameters liveIn block]
      · simp)
    (by
      rintro pre d c₁ hd hpre ⟨hc₁, horiginals⟩
      obtain ⟨c₂, hok, hc₂, horiginals₂⟩ :=
        carrySuccessor_spec hf hc₁ (hres d (mem_suspendSuccessors.mp hd)) (hlive d)
      refine ⟨c₂, hok, hc₂, fun b => ?_⟩
      have hnot : d ∉ pre := by
        have hsub := hpre.sublist.nodup hnodup
        exact fun h => (nodup_append.mp hsub).2.2 d h d mem_cons_self rfl
      rw [horiginals₂, horiginals]
      by_cases hb : b = d
      · subst hb
        simp [hnot]
      · simp [hb])
  refine ⟨c, hok, hc, fun b => ⟨fun hb => ?_, fun hb => ?_⟩⟩
  · rw [horiginals, if_pos (mem_suspendSuccessors.mpr hb)]
  · rw [horiginals, if_neg (mem_suspendSuccessors.not.mpr hb)]

end Subscript.Lir
