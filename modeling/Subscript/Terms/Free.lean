import Mathlib.Data.Finite.Prod
import Mathlib.Data.Set.Finite.Lattice

/-! Free terms: constructors applied to lists of arguments, over numbered variables. A variable of a term bounds the
depth of the term after a substitution from below, and some variable bounds it from above. -/

namespace Terms

open List

inductive FreeTerm (C : Type) where
  | var (i : Nat)
  | app (c : C) (args : List (FreeTerm C))

namespace FreeTerm

variable {C : Type}

@[induction_eliminator]
theorem ind {motive : FreeTerm C → Prop} (var : ∀ i, motive (.var i))
    (app : ∀ c args, (∀ a ∈ args, motive a) → motive (.app c args)) (t : FreeTerm C) : motive t :=
  @FreeTerm.rec C motive (fun args => ∀ a ∈ args, motive a) var app (fun _ h => absurd h not_mem_nil)
    (fun _ _ hhead htail _ h => (mem_cons.mp h).elim (fun h => h ▸ hhead) (htail _)) t

mutual

def decEq [DecidableEq C] : (t t' : FreeTerm C) → Decidable (t = t')
  | .var i, .var j => decidable_of_iff (i = j) (by simp)
  | .var _, .app _ _ => isFalse nofun
  | .app _ _, .var _ => isFalse nofun
  | .app c args, .app c' args' =>
    match decEqAll args args' with
    | isTrue h => decidable_of_iff (c = c') (by simp [h])
    | isFalse h => isFalse fun e => h (FreeTerm.app.inj e).2

def decEqAll [DecidableEq C] : (ts ts' : List (FreeTerm C)) → Decidable (ts = ts')
  | [], [] => isTrue rfl
  | [], _ :: _ => isFalse nofun
  | _ :: _, [] => isFalse nofun
  | t :: ts, t' :: ts' =>
    match decEq t t', decEqAll ts ts' with
    | isTrue h, isTrue hs => isTrue (by rw [h, hs])
    | isFalse h, _ => isFalse fun e => h (List.cons.inj e).1
    | _, isFalse hs => isFalse fun e => hs (List.cons.inj e).2

end

instance [DecidableEq C] : DecidableEq (FreeTerm C) := decEq

mutual

def subst (σ : Nat → FreeTerm C) : FreeTerm C → FreeTerm C
  | .var i => σ i
  | .app c args => .app c (substAll σ args)

def substAll (σ : Nat → FreeTerm C) : List (FreeTerm C) → List (FreeTerm C)
  | [] => []
  | t :: ts => t.subst σ :: substAll σ ts

end

mutual

def depth : FreeTerm C → Nat
  | .var _ => 0
  | .app _ args => depthAll args + 1

def depthAll : List (FreeTerm C) → Nat
  | [] => 0
  | t :: ts => max t.depth (depthAll ts)

end

mutual

/-- the variables, each with whether it stands below a constructor -/
def vars (below : Bool) : FreeTerm C → List (Nat × Bool)
  | .var i => [(i, below)]
  | .app _ args => varsAll args

def varsAll : List (FreeTerm C) → List (Nat × Bool)
  | [] => []
  | t :: ts => t.vars true ++ varsAll ts

end

mutual

/-- the constructors, each with the number of its arguments -/
def syms : FreeTerm C → List (C × Nat)
  | .var _ => []
  | .app c args => (c, args.length) :: symsAll args

def symsAll : List (FreeTerm C) → List (C × Nat)
  | [] => []
  | t :: ts => t.syms ++ symsAll ts

end

variable {σ : Nat → FreeTerm C} {t : FreeTerm C} {ts : List (FreeTerm C)} {i n : Nat} {b below : Bool}

@[simp] theorem substAll_eq_map (σ : Nat → FreeTerm C) (ts : List (FreeTerm C)) : substAll σ ts = ts.map (subst σ) := by
  induction ts with
  | nil => rfl
  | cons t ts ih => simp [substAll, ih]

theorem depth_le_depthAll (h : t ∈ ts) : t.depth ≤ depthAll ts := by
  induction ts with
  | nil => simp at h
  | cons s ts ih =>
    rcases mem_cons.mp h with rfl | h
    · exact Nat.le_max_left ..
    · exact (ih h).trans (Nat.le_max_right ..)

theorem depthAll_attained (ts : List (FreeTerm C)) : depthAll ts = 0 ∨ ∃ t ∈ ts, t.depth = depthAll ts := by
  induction ts with
  | nil => exact .inl rfl
  | cons t ts ih =>
    rcases Nat.le_total t.depth (depthAll ts) with h | h
    · rcases ih with hzero | ⟨s, hs, heq⟩
      · exact .inl (by simp only [depthAll]; omega)
      · exact .inr ⟨s, mem_cons_of_mem _ hs, by simp only [depthAll]; omega⟩
    · exact .inr ⟨t, mem_cons_self, by simp only [depthAll]; omega⟩

theorem mem_varsAll {x : Nat × Bool} : x ∈ varsAll ts ↔ ∃ t ∈ ts, x ∈ t.vars true := by
  induction ts with
  | nil => simp [varsAll]
  | cons t ts ih => simp [varsAll, ih]

theorem mem_symsAll {k : C × Nat} : k ∈ symsAll ts ↔ ∃ t ∈ ts, k ∈ t.syms := by
  induction ts with
  | nil => simp [symsAll]
  | cons t ts ih => simp [symsAll, ih]

theorem depth_le_depth_subst (h : (i, b) ∈ t.vars below) : (σ i).depth ≤ (t.subst σ).depth := by
  induction t generalizing below with
  | var j =>
    obtain ⟨rfl, -⟩ : i = j ∧ b = below := by simpa [vars] using h
    exact Nat.le_refl _
  | app c args ih =>
    obtain ⟨a, ha, hvar⟩ := mem_varsAll.mp h
    have hle := depth_le_depthAll (mem_map_of_mem (f := subst σ) ha)
    simp only [subst, depth, substAll_eq_map]
    exact Nat.le_succ_of_le ((ih a ha hvar).trans hle)

/-- a variable below a constructor makes the term deeper than what it stands for -/
theorem depth_add_le_depth_subst (h : (i, b) ∈ t.vars false) : (σ i).depth + b.toNat ≤ (t.subst σ).depth := by
  cases t with
  | var j =>
    obtain ⟨rfl, rfl⟩ : i = j ∧ b = false := by simpa [vars] using h
    exact Nat.le_refl _
  | app c args =>
    obtain ⟨a, ha, hvar⟩ := mem_varsAll.mp h
    have hle := depth_le_depthAll (mem_map_of_mem (f := subst σ) ha)
    have hdeep := depth_le_depth_subst (σ := σ) hvar
    have hb := b.toNat_le
    simp only [subst, depth, substAll_eq_map]
    omega

theorem depth_subst_le_add (t : FreeTerm C) (σ : Nat → FreeTerm C) (below : Bool) :
    (t.subst σ).depth ≤ t.depth ∨ ∃ i b, (i, b) ∈ t.vars below ∧ (t.subst σ).depth ≤ (σ i).depth + t.depth := by
  induction t generalizing below with
  | var i => exact .inr ⟨i, below, by simp [vars], Nat.le_add_right ..⟩
  | app c args ih =>
    simp only [subst, depth, substAll_eq_map]
    -- the deepest argument decides
    rcases depthAll_attained (args.map (subst σ)) with hzero | ⟨_, hmem, heq⟩
    · exact .inl (by omega)
    · obtain ⟨a, ha, rfl⟩ := mem_map.mp hmem
      have hle := depth_le_depthAll ha
      rcases ih a ha true with h | ⟨i, b, hvar, h⟩
      · exact .inl (by omega)
      · exact .inr ⟨i, b, mem_varsAll.mpr ⟨a, ha, hvar⟩, by omega⟩

/-- some variable bounds the depth from above, without any growth unless it stands below a constructor -/
theorem depth_subst_le (t : FreeTerm C) (σ : Nat → FreeTerm C) :
    (t.subst σ).depth ≤ t.depth ∨
      ∃ i b, (i, b) ∈ t.vars false ∧ (t.subst σ).depth ≤ (σ i).depth + b.toNat * t.depth := by
  cases t with
  | var i => exact .inr ⟨i, false, by simp [vars], by simp [subst]⟩
  | app c args =>
    rcases depth_subst_le_add (.app c args) σ false with h | ⟨i, b, hvar, h⟩
    · exact .inl h
    · obtain ⟨a, -, hbelow⟩ := mem_varsAll.mp hvar
      have hb : b = true := by
        induction a with
        | var j => exact (by simpa [vars] using hbelow : i = j ∧ b = true).2
        | app c args ih =>
          obtain ⟨a, ha, hbelow⟩ := mem_varsAll.mp hbelow
          exact ih a ha hbelow
      exact .inr ⟨i, b, hvar, by simpa [hb] using h⟩

/-- the variables and the constructors that terms are built from -/
inductive Over (V : Set Nat) (K : Set (C × Nat)) : FreeTerm C → Prop where
  | var {i : Nat} : i ∈ V → Over V K (.var i)
  | app {c : C} {args : List (FreeTerm C)} :
    (c, args.length) ∈ K → (∀ a ∈ args, Over V K a) → Over V K (.app c args)

variable {V : Set Nat} {K : Set (C × Nat)}

theorem Over.subst (h : Over V K t) (hσ : ∀ i ∈ V, Over V K (σ i)) : Over V K (t.subst σ) := by
  induction h with
  | var hi => exact hσ _ hi
  | app hc _ ih =>
    simp only [FreeTerm.subst, substAll_eq_map]
    refine .app (by simpa using hc) fun _ hmem => ?_
    obtain ⟨a, ha, rfl⟩ := mem_map.mp hmem
    exact ih a ha

theorem over_of_subset (below : Bool) (hV : ∀ i b, (i, b) ∈ t.vars below → i ∈ V) (hK : ∀ k ∈ t.syms, k ∈ K) : Over V K t := by
  induction t generalizing below with
  | var i => exact .var (hV i below (by simp [vars]))
  | app c args ih =>
    refine .app (hK _ mem_cons_self) fun a ha => ?_
    apply ih a ha true
    · exact fun i b h => hV i b (mem_varsAll.mpr ⟨a, ha, h⟩)
    · exact fun k h => hK k (mem_cons_of_mem _ (mem_symsAll.mpr ⟨a, ha, h⟩))

/-- finitely many terms have finitely many variables and constructors -/
theorem exists_over (ts : List (FreeTerm C)) :
    ∃ (V : Set Nat) (K : Set (C × Nat)), V.Finite ∧ K.Finite ∧ ∀ t ∈ ts, Over V K t := by
  refine ⟨{i | i ∈ (varsAll ts).map Prod.fst}, {k | k ∈ symsAll ts}, finite_toSet _, finite_toSet _, ?_⟩
  intro t ht
  apply over_of_subset true
  · intro i b h
    exact mem_map.mpr ⟨(i, b), mem_varsAll.mpr ⟨t, ht, h⟩, rfl⟩
  · intro k h
    exact mem_symsAll.mpr ⟨t, ht, h⟩

theorem finite_lists {α : Type} {S : Set α} (hS : S.Finite) (n : Nat) :
    {l : List α | l.length = n ∧ ∀ a ∈ l, a ∈ S}.Finite := by
  induction n with
  | zero => exact (Set.finite_singleton []).subset fun l h => length_eq_zero_iff.mp h.1
  | succ n ih =>
    refine (hS.image2 List.cons ih).subset ?_
    rintro (_ | ⟨a, l⟩) ⟨hlen, hmem⟩
    · simp at hlen
    · have hl : ∀ b ∈ l, b ∈ S := fun b hb => hmem b (mem_cons_of_mem _ hb)
      exact ⟨a, hmem a mem_cons_self, l, ⟨Nat.succ.inj hlen, hl⟩, rfl⟩

theorem finite_over (hV : V.Finite) (hK : K.Finite) (n : Nat) : {t | Over V K t ∧ t.depth ≤ n}.Finite := by
  induction n with
  | zero =>
    refine (hV.image FreeTerm.var).subset ?_
    rintro t ⟨hover, hdepth⟩
    cases hover with
    | var hi => exact ⟨_, hi, rfl⟩
    | app _ _ => simp [depth] at hdepth
  | succ n ih =>
    have happ : (⋃ k ∈ K, FreeTerm.app k.1 '' {l | l.length = k.2 ∧ ∀ a ∈ l, a ∈ {t | Over V K t ∧ t.depth ≤ n}}).Finite :=
      hK.biUnion fun k _ => (finite_lists ih k.2).image _
    refine ((hV.image FreeTerm.var).union happ).subset ?_
    rintro t ⟨hover, hdepth⟩
    cases hover with
    | var hi => exact .inl ⟨_, hi, rfl⟩
    | @app c args hc hargs =>
      refine .inr (Set.mem_biUnion hc ⟨args, ⟨rfl, fun a ha => ⟨hargs a ha, ?_⟩⟩, rfl⟩)
      have hle := depth_le_depthAll ha
      simp only [depth] at hdepth
      omega

end FreeTerm

end Terms
