import Subscript.Check.InstanceEdges

/-! The stored edges of inferred requests. A request that its template's own opaque check meets gets the edges of the
arguments as they are written; an instance at concrete arguments gets the same ones if the store knows them. -/

namespace Subscript.Check

open Option List Terms FreeTerm

variable {templates : List Template} {store : EdgeStore} {t : TypeTerm} {ts : List TypeTerm} {n number : Nat}
  {expanding : Bool}

/-! ### Opaque parameters in types -/

theorem anyInvolves_iff : anyInvolves ts = true ↔ ∃ t ∈ ts, involvesTypeParameter t = true := by
  induction ts with
  | nil => simp [anyInvolves]
  | cons t ts ih => simp [anyInvolves, ih]

theorem anyInvolves_eq_false_iff : anyInvolves ts = false ↔ ∀ t ∈ ts, involvesTypeParameter t = false := by
  rw [← Bool.not_eq_true, anyInvolves_iff]
  simp

variable {c : TypeCon}

theorem involves_app_of_mem (ht : t ∈ ts) (h : involvesTypeParameter t = true) :
    involvesTypeParameter (.app c ts) = true := by
  have hany : anyInvolves ts = true := anyInvolves_iff.mpr ⟨t, ht, h⟩
  cases c <;> simp [involvesTypeParameter, hany]

/-- a type without opaque parameters has none in its components and is none itself -/
theorem involves_app_eq_false (h : involvesTypeParameter (.app c ts) = false) :
    (∀ number position, c ≠ .parameter number position) ∧ ∀ t ∈ ts, involvesTypeParameter t = false := by
  constructor
  · rintro number position rfl
    simp [involvesTypeParameter] at h
  · intro t ht
    rw [← Bool.not_eq_true]
    intro hinvolves
    rw [involves_app_of_mem ht hinvolves] at h
    exact absurd h nofun

theorem involves_subst_eq_false {σ : Nat → TypeTerm} (h : involvesTypeParameter t = false)
    (hσ : ∀ i, involvesTypeParameter (σ i) = false) : involvesTypeParameter (t.subst σ) = false := by
  induction t using FreeTerm.ind with
  | var i => exact hσ i
  | app c ts ih =>
    obtain ⟨hc, hts⟩ := involves_app_eq_false h
    have hany : anyInvolves (ts.map (FreeTerm.subst σ)) = false := by
      rw [anyInvolves_eq_false_iff]
      intro u hu
      obtain ⟨t, ht, rfl⟩ := mem_map.mp hu
      exact ih t ht (hts t ht)
    cases c with
    | parameter number position => exact absurd rfl (hc number position)
    | _ => simpa [FreeTerm.subst, involvesTypeParameter] using hany

theorem involves_bound_eq_false {args : List TypeTerm} (h : anyInvolves args = false) (i : Nat) :
    involvesTypeParameter (bound args i) = false := by
  unfold bound
  cases hget : args[i]? with
  | none => simp [List.getD, hget, involvesTypeParameter]
  | some t => simpa [List.getD, hget] using anyInvolves_eq_false_iff.mp h t (mem_of_getElem? hget)

theorem anyInvolves_map_subst {args terms : List TypeTerm} (hterms : anyInvolves terms = false)
    (hargs : anyInvolves args = false) : anyInvolves (terms.map (FreeTerm.subst (bound args))) = false := by
  rw [anyInvolves_eq_false_iff] at hterms ⊢
  intro u hu
  obtain ⟨t, ht, rfl⟩ := mem_map.mp hu
  exact involves_subst_eq_false (hterms t ht) (involves_bound_eq_false hargs)

theorem involves_app (hc : ∀ number position, c ≠ .parameter number position) :
    involvesTypeParameter (.app c ts) = anyInvolves ts := by
  cases c with
  | parameter number position => exact absurd rfl (hc number position)
  | _ => rfl

variable {name : String}

theorem ambientCon_ne_parameter (h : ambientCon name = some c) (number position : Nat) :
    c ≠ .parameter number position := by
  rintro rfl
  unfold ambientCon at h
  repeat' split at h
  all_goals exact absurd h nofun

theorem involves_resolveNamed (hts : anyInvolves ts = false) (h : resolveNamed name ts = some t) :
    involvesTypeParameter t = false := by
  unfold resolveNamed at h
  split at h
  · obtain ⟨y, hy, rfl⟩ := Option.map_eq_some_iff.mp h
    simpa [involvesTypeParameter, anyInvolves] using anyInvolves_eq_false_iff.mp hts y (mem_of_head? hy)
  · next hc =>
    split at h
    · obtain rfl := some.inj h
      rw [involves_app (ambientCon_ne_parameter hc), hts]
    · exact absurd h.symm (some_ne_none _)
  · obtain rfl := some.inj h
    exact hts

variable {parameters : List String} {args : List TypeTerm}

mutual

theorem involves_resolveType (hargs : anyInvolves args = false) : ∀ (e : TypeExpr) {t : TypeTerm},
    resolveType parameters args e = some t → involvesTypeParameter t = false
  | .keyword _, t, h => by
    obtain rfl := some.inj h
    rfl
  | .ref name targs, t, h => by
    simp only [resolveType] at h
    split at h
    · exact anyInvolves_eq_false_iff.mp hargs t (mem_of_getElem? h)
    · obtain ⟨types, htypes, h⟩ := Option.bind_eq_some_iff.mp h
      exact involves_resolveNamed (anyInvolves_resolveAll hargs targs htypes) h
  | .fixedArray elem len, t, h => by
    obtain ⟨u, helem, rfl⟩ := Option.map_eq_some_iff.mp h
    simpa [involvesTypeParameter, anyInvolves] using involves_resolveType hargs elem helem
  | .array elem, t, h => by
    obtain ⟨u, helem, rfl⟩ := Option.map_eq_some_iff.mp h
    simpa [involvesTypeParameter, anyInvolves] using involves_resolveType hargs elem helem
  | .paren inner, t, h => involves_resolveType hargs inner h
  | .union left right, t, h => by
    simp only [resolveType] at h
    split at h
    · next hleft =>
      obtain rfl := some.inj h
      simpa [involvesTypeParameter, anyInvolves] using involves_resolveType hargs left hleft
    · next hright =>
      obtain rfl := some.inj h
      simpa [involvesTypeParameter, anyInvolves] using involves_resolveType hargs right hright
    · exact absurd h nofun
  | .fn params ret, t, h => by
    obtain ⟨types, u, htypes, hret, rfl⟩ := mem_map₂_iff.mp h
    have hparams := anyInvolves_resolveAll hargs params htypes
    simp only [involvesTypeParameter, anyInvolves_eq_false_iff, mem_append, mem_singleton] at hparams ⊢
    rintro v (hv | rfl)
    · exact hparams v hv
    · exact involves_resolveType hargs ret hret

theorem anyInvolves_resolveAll (hargs : anyInvolves args = false) : ∀ (es : List TypeExpr) {ts : List TypeTerm},
    resolveAll parameters args es = some ts → anyInvolves ts = false
  | [], ts, h => by
    obtain rfl := some.inj h
    rfl
  | e :: es, ts, h => by
    obtain ⟨t, ts, ht, hts, rfl⟩ := mem_map₂_iff.mp h
    simp [anyInvolves, involves_resolveType hargs e ht, anyInvolves_resolveAll hargs es hts]

end

/-- at concrete arguments every request has concrete arguments -/
theorem Request.anyInvolves_types {r : Request} (hargs : anyInvolves args = false) (hbuilt : r.built parameters = true)
    (h : r.types parameters args = some ts) : anyInvolves ts = false := by
  cases hr : r.arguments with
  | explicit types =>
    simp only [Request.types, hr] at h
    exact anyInvolves_resolveAll hargs types h
  | inferred types =>
    simp only [Request.types, hr, Option.some.injEq] at h
    subst h
    refine anyInvolves_map_subst ?_ hargs
    simpa [Request.built, hr] using hbuilt

/-! ### The edges that an opaque check finds -/

theorem bound_opaqueArguments (number n i : Nat) :
    bound (opaqueArguments number n) i = if i < n then .app (.parameter number i) [] else .var i := by
  unfold bound opaqueArguments
  split
  · next h => simp [h]
  · next h => simp [Nat.not_lt.mp h]

theorem idxOf?_opaqueArguments {i : Nat} (h : i < n) :
    (opaqueArguments number n).idxOf? (.app (.parameter number i) []) = some i := by
  refine findIdx?_eq_some_iff_getElem.mpr ⟨by simpa [opaqueArguments] using h, by simp [opaqueArguments], ?_⟩
  intro j hj
  simpa [opaqueArguments] using Nat.ne_of_lt hj

theorem idxOf?_opaqueArguments_eq_none (h : ∀ number position, c ≠ .parameter number position) :
    (opaqueArguments number n).idxOf? (.app c ts) = none := by
  rw [idxOf?_eq_none_iff]
  intro hmem
  obtain ⟨i, -, heq⟩ := mem_map.mp hmem
  exact h number i (FreeTerm.app.inj heq).1.symm

theorem inferredAllEdges_eq (σ : Nat → TypeTerm)
    (h : ∀ t ∈ ts, inferredParameterEdges args true (t.subst σ) = writtenEdges n true t) :
    inferredAllEdges args (ts.map (FreeTerm.subst σ)) = writtenAllEdges n ts := by
  induction ts with
  | nil => rfl
  | cons t ts ih =>
    rw [map_cons, inferredAllEdges, writtenAllEdges, h t mem_cons_self, ih fun u hu => h u (mem_cons_of_mem _ hu)]

theorem inferredParameterEdges_subst (number n : Nat) (expanding : Bool) (h : involvesTypeParameter t = false) :
    inferredParameterEdges (opaqueArguments number n) expanding (t.subst (bound (opaqueArguments number n))) =
      writtenEdges n expanding t := by
  induction t using FreeTerm.ind generalizing expanding with
  | var i =>
    rw [FreeTerm.subst, bound_opaqueArguments, writtenEdges]
    split
    · next hi => simp [inferredParameterEdges, idxOf?_opaqueArguments hi, involvesTypeParameter]
    · simp [inferredParameterEdges]
  | app c ts ih =>
    obtain ⟨hc, hts⟩ := involves_app_eq_false h
    have hall := inferredAllEdges_eq (bound (opaqueArguments number n)) fun t ht => ih t ht true (hts t ht)
    simp only [FreeTerm.subst, substAll_eq_map, inferredParameterEdges, idxOf?_opaqueArguments_eq_none hc, hall, writtenEdges]

/-- an argument that shows no opaque parameter mentions none -/
theorem writtenEdges_eq_nil (h : involvesTypeParameter (t.subst (bound (opaqueArguments number n))) = false) :
    writtenEdges n expanding t = [] := by
  induction t using FreeTerm.ind generalizing expanding with
  | var i =>
    rw [FreeTerm.subst, bound_opaqueArguments] at h
    rw [writtenEdges]
    split at h
    · simp [involvesTypeParameter] at h
    · next hi => rw [if_neg hi]
  | app c ts ih =>
    simp only [FreeTerm.subst, substAll_eq_map] at h
    have hall : writtenAllEdges n ts = [] := by
      rw [eq_nil_iff_forall_not_mem]
      intro e he
      obtain ⟨t, ht, he⟩ := mem_writtenAllEdges.mp he
      rw [ih t ht ((involves_app_eq_false h).2 _ (mem_map_of_mem ht))] at he
      exact absurd he not_mem_nil
    simp [writtenEdges, hall]

/-! ### The store -/

/-- what is stored for a request are its edges -/
def StoreRight (templates : List Template) (store : EdgeStore) : Prop :=
  ∀ key place edges t r, store.lookup (key, place) = some edges → templateOf templates key = some t →
    t.requests[place]? = some r → edges = r.edges t.parameters

/-- an instance finds the edges of the request at this place, if it is an inferred one -/
def Known (store : EdgeStore) (t : Template) (place : Nat) : Prop :=
  ∀ r types, t.requests[place]? = some r → r.arguments = .inferred types →
    (store.lookup (t.key, place)).getD (types.map fun _ => []) = r.edges t.parameters

variable {u : Template} {r : Request} {place : Nat} {types : List TypeTerm}

/-- the arguments of a request of an instance, with the edges of the arguments as they are written -/
def Request.written (parameters : List String) (args : List TypeTerm) (r : Request) : Option InstanceArguments :=
  (r.terms parameters).map fun terms => ⟨terms.map (FreeTerm.subst (bound args)), r.edges parameters⟩

theorem Request.anyInvolves_of_inferred (hr : r ∈ u.requests) (h : r.arguments = .inferred types) :
    anyInvolves types = false := by
  simpa [Request.built, h] using u.built r hr

variable {last : InstanceRequest} {site : String × Nat}

theorem Request.resolve_explicit {types : List TypeExpr} (h : r.arguments = .explicit types)
    (hlen : last.args.length = last.parameters.length) :
    r.resolve store site last = (r.written last.parameters last.args, store) := by
  simp only [Request.resolve, Request.written, Request.terms, Request.edges, h, resolveInstanceArguments,
    resolveAll_eq_map hlen]
  cases resolveAll last.parameters (formals last.parameters) types <;> rfl

theorem Request.resolve_concrete (hparameters : last.parameters = u.parameters)
    (hlen : last.args.length = u.parameters.length) (hconcrete : anyInvolves last.args = false)
    (hr : u.requests[place]? = some r) (hknown : Known store u place) :
    (r.resolve store (u.key, place) last).1 = r.written u.parameters last.args := by
  cases hargs : r.arguments with
  | explicit types => rw [Request.resolve_explicit hargs (hparameters ▸ hlen), hparameters]
  | inferred types =>
    have hnone := anyInvolves_map_subst (Request.anyInvolves_of_inferred (mem_of_getElem? hr) hargs) hconcrete
    have hedges := hknown r types hr hargs
    simp only [Request.resolve, hargs, inferArguments, hnone, Request.written, Request.terms, List.map_map]
    simpa [Function.comp_def] using hedges

theorem lookup_cons_ne {site' : String × Nat} {edges : List (List ParameterEdge)} (h : site' ≠ site) :
    List.lookup site' ((site, edges) :: store) = store.lookup site' := by
  rw [lookup_cons, beq_false_of_ne h]

section Root

variable (ht : templateOf templates u.key = some u) (hright : StoreRight templates store)
  (hr : u.requests[place]? = some r)

include ht hright hr

theorem StoreRight.cons : StoreRight templates (((u.key, place), r.edges u.parameters) :: store) := by
  intro key place' edges t r' hlookup ht' hr'
  by_cases hsite : (key, place') = (u.key, place)
  · obtain ⟨rfl, rfl⟩ := Prod.mk.inj hsite
    obtain rfl := Option.mem_unique ht' ht
    obtain rfl := Option.mem_unique hr' hr
    rw [lookup_cons_self] at hlookup
    exact (some.inj hlookup).symm
  · exact hright key place' edges t r' (lookup_cons_ne hsite ▸ hlookup) ht' hr'

/-- The opaque check of a template finds the right edges of each request, and stores them or needs not to. -/
theorem Request.resolve_checked {last : InstanceRequest} (hlast : last = u.enter (.start (u.opaqueStart number))) :
    (r.resolve store (u.key, place) last).1 = r.written u.parameters last.args ∧
      StoreRight templates (r.resolve store (u.key, place) last).2 ∧
      Known (r.resolve store (u.key, place) last).2 u place := by
  subst hlast
  have hlen : (opaqueArguments number u.parameters.length).length = u.parameters.length := by simp [opaqueArguments]
  cases hargs : r.arguments with
  | explicit types =>
    rw [Request.resolve_explicit hargs hlen]
    refine ⟨rfl, hright, fun r' types' hr' hinferred => ?_⟩
    obtain rfl := Option.mem_unique hr' hr
    rw [hargs] at hinferred
    exact absurd hinferred nofun
  | inferred types =>
    have hconcrete := Request.anyInvolves_of_inferred (mem_of_getElem? hr) hargs
    cases hany : anyInvolves (types.map (FreeTerm.subst (bound (opaqueArguments number u.parameters.length)))) with
    | true =>
      have hedges : (types.map (FreeTerm.subst (bound (opaqueArguments number u.parameters.length)))).map
          (inferredParameterEdges (opaqueArguments number u.parameters.length) false) = r.edges u.parameters := by
        rw [List.map_map, Request.edges, hargs]
        refine map_congr_left fun t ht => ?_
        exact inferredParameterEdges_subst number _ false (anyInvolves_eq_false_iff.mp hconcrete t ht)
      simp only [Request.resolve, hargs, inferArguments, Template.enter, Pending.start, Template.opaqueStart, hany, if_true,
        hedges, Request.written, Request.terms]
      refine ⟨rfl, StoreRight.cons ht hright hr, fun r' types' hr' _ => ?_⟩
      obtain rfl := Option.mem_unique hr' hr
      rw [lookup_cons_self, getD_some]
    | false =>
      have hnil : r.edges u.parameters = types.map fun _ => [] := by
        rw [Request.edges, hargs]
        exact map_congr_left fun t ht => writtenEdges_eq_nil (anyInvolves_eq_false_iff.mp hany _ (mem_map_of_mem ht))
      have hlookup : (store.lookup (u.key, place)).getD (types.map fun _ => []) = r.edges u.parameters := by
        cases hfound : store.lookup (u.key, place) with
        | none => exact hnil.symm
        | some edges => exact hright _ _ _ _ _ hfound ht hr
      simp only [Request.resolve, hargs, inferArguments, Template.enter, Pending.start, Template.opaqueStart, hany,
        Bool.false_eq_true, if_false, Request.written, Request.terms]
      refine ⟨?_, hright, fun r' types' hr' hinferred => ?_⟩
      · simpa [Function.comp_def] using hlookup
      · obtain rfl := Option.mem_unique hr' hr
        obtain rfl := RequestArguments.inferred.inj (hargs.symm.trans hinferred)
        exact hlookup

end Root

/-- what is stored later for other places, or is right, does not hide anything -/
theorem Known.of_resolve {v : Template} {place' : Nat} (hv : templateOf templates v.key = some v)
    (hright : StoreRight templates (r.resolve store (u.key, place) last).2) (h : Known store v place') :
    Known (r.resolve store (u.key, place) last).2 v place' := by
  intro r' types hr' hargs
  have hold := h r' types hr' hargs
  cases hfound : (r.resolve store (u.key, place) last).2.lookup (v.key, place') with
  | some edges => exact hright _ _ _ _ _ hfound hv hr'
  | none =>
    have hnone : store.lookup (v.key, place') = none := by
      cases hargs' : r.arguments with
      | explicit types => simpa [Request.resolve, hargs'] using hfound
      | inferred types =>
        simp only [Request.resolve, hargs', inferArguments] at hfound
        split at hfound
        · by_cases hsite : (v.key, place') = (u.key, place)
          · rw [hsite, lookup_cons_self] at hfound
            exact absurd hfound (some_ne_none _)
          · exact lookup_cons_ne hsite ▸ hfound
        · exact hfound
    simpa [hnone] using hold

end Subscript.Check
