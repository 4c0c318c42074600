import Subscript.Check.InstanceChain

/-! What the edges of a request say about its arguments: an edge is an occurrence of a parameter, in an explicit argument
every occurrence has its edge, and in an inferred argument those below the constructors that are looked through. The edges
that an opaque check finds in an inferred argument, and that instances look up, are those of the argument as it is
written. -/

namespace Subscript.Check

open Option List Terms FreeTerm

variable {parameters : List String} {args : List TypeTerm} {i : Nat} {b : Bool}

/-- the parameters of a template as terms -/
def formals (parameters : List String) : List TypeTerm := (List.range parameters.length).map .var

variable {name : String}

theorem lt_length_of_idxOf? (h : parameters.idxOf? name = some i) : i < parameters.length :=
  (findIdx?_eq_some_iff_getElem.mp h).1

theorem formals_getElem? (h : i < parameters.length) : (formals parameters)[i]? = some (.var i) := by
  simp [formals, h]

/-! ### Resolving under arguments is resolving once for all and substituting -/

theorem resolveNamed_map (name : String) (types : List TypeTerm) (σ : Nat → TypeTerm) :
    resolveNamed name (types.map (subst σ)) = (resolveNamed name types).map (subst σ) := by
  unfold resolveNamed
  split
  · cases types <;> simp [FreeTerm.subst]
  · rw [length_map]
    split <;> simp [FreeTerm.subst]
  · simp [FreeTerm.subst]

mutual

theorem resolveType_eq_map (hlen : args.length = parameters.length) : ∀ e : TypeExpr,
    resolveType parameters args e = (resolveType parameters (formals parameters) e).map (subst (bound args))
  | .keyword _ => by simp [resolveType, FreeTerm.subst]
  | .ref name targs => by
    simp only [resolveType]
    cases hidx : parameters.idxOf? name with
    | some i =>
      have hi := lt_length_of_idxOf? hidx
      simp [formals_getElem? hi, FreeTerm.subst, bound, hlen, hi]
    | none =>
      rw [resolveAll_eq_map hlen targs]
      cases resolveAll parameters (formals parameters) targs with
      | none => rfl
      | some types => exact resolveNamed_map name types _
  | .fixedArray elem len => by
    simp [resolveType, resolveType_eq_map hlen elem, Function.comp_def, FreeTerm.subst]
  | .array elem => by
    simp [resolveType, resolveType_eq_map hlen elem, Function.comp_def, FreeTerm.subst]
  | .paren inner => by simp only [resolveType, resolveType_eq_map hlen inner]
  | .union left right => by
    simp only [resolveType, resolveType_eq_map hlen left, resolveType_eq_map hlen right]
    cases right.isNull <;> cases left.isNull <;> cases resolveType parameters (formals parameters) left <;>
      cases resolveType parameters (formals parameters) right <;> simp [FreeTerm.subst]
  | .fn params ret => by
    simp [resolveType, resolveAll_eq_map hlen params, resolveType_eq_map hlen ret, map_map₂, map₂_map_left, map₂_map_right,
      FreeTerm.subst]

theorem resolveAll_eq_map (hlen : args.length = parameters.length) : ∀ es : List TypeExpr,
    resolveAll parameters args es =
      (resolveAll parameters (formals parameters) es).map (List.map (subst (bound args)))
  | [] => rfl
  | e :: es => by
    simp only [resolveAll, resolveType_eq_map hlen e, resolveAll_eq_map hlen es, map_map₂, map₂_map_left, map₂_map_right,
      map_cons]

end

/-! ### Edges and occurrences -/

theorem TypeExpr.edges_of_isNull {e : TypeExpr} (h : e.isNull = true) (expanding : Bool) :
    recordParameterEdges parameters expanding e = [] := by
  cases e <;> simp_all [TypeExpr.isNull, recordParameterEdges]

theorem varsAll_append (ts us : List TypeTerm) : varsAll (ts ++ us) = varsAll ts ++ varsAll us := by
  induction ts with
  | nil => rfl
  | cons t ts ih => simp [varsAll, ih]

variable {t : TypeTerm}

/-- the constructor of a named type keeps its arguments, unless it is a generator with more than one -/
theorem resolveNamed_eq_some {types : List TypeTerm} (h : resolveNamed name types = some t)
    (hgen : name ≠ "Generator" ∨ types.length = 1) : ∃ c, t = .app c types := by
  unfold resolveNamed at h
  split at h
  · next hc =>
    have hname : name = "Generator" := by
      by_contra hne
      unfold ambientCon at hc
      repeat' split at hc
      all_goals simp_all
    obtain ⟨y, rfl⟩ := length_eq_one_iff.mp (hgen.resolve_left (absurd hname))
    exact ⟨.generator, by simpa using h.symm⟩
  · split at h
    · exact ⟨_, (some.inj h).symm⟩
    · exact absurd h nofun
  · exact ⟨_, (some.inj h).symm⟩

variable {ts : List TypeTerm}

theorem length_of_resolveAll {es : List TypeExpr} (h : resolveAll parameters args es = some ts) :
    ts.length = es.length := by
  induction es generalizing ts with
  | nil =>
    obtain rfl : [] = ts := some.inj h
    rfl
  | cons e es ih =>
    obtain ⟨t, ts, -, htail, rfl⟩ := mem_map₂_iff.mp h
    simp [ih htail]

mutual

theorem mem_recordParameterEdges : ∀ (e : TypeExpr) (expanding : Bool) {t : TypeTerm}, e.built parameters = true →
    resolveType parameters (formals parameters) e = some t →
    ((⟨i, b⟩ : ParameterEdge) ∈ recordParameterEdges parameters expanding e ↔ (i, b) ∈ t.vars expanding)
  | .keyword _, expanding, t, _, h => by
    obtain rfl := some.inj h
    simp [recordParameterEdges, vars, varsAll]
  | .ref name targs, expanding, t, hbuilt, h => by
    simp only [TypeExpr.built, Bool.and_eq_true] at hbuilt
    obtain ⟨⟨hparam, hgen⟩, hargs⟩ := hbuilt
    simp only [recordParameterEdges]
    cases hidx : parameters.idxOf? name with
    | some j =>
      -- a parameter has no arguments
      obtain rfl : targs = [] := by simpa [hidx] using hparam
      simp only [resolveType, hidx, formals_getElem? (lt_length_of_idxOf? hidx), Option.some.injEq] at h
      subst h
      simp [recordAllEdges, vars]
    | none =>
      simp only [resolveType, hidx] at h
      obtain ⟨types, hall, h⟩ := Option.bind_eq_some_iff.mp h
      have hone : name ≠ "Generator" ∨ types.length = 1 := by
        rw [length_of_resolveAll hall]
        simpa using hgen
      obtain ⟨c, rfl⟩ := resolveNamed_eq_some h hone
      exact mem_recordAllEdges targs hargs hall
  | .fixedArray elem len, expanding, t, hbuilt, h => by
    obtain ⟨u, helem, rfl⟩ := Option.map_eq_some_iff.mp h
    simpa [recordParameterEdges, vars, varsAll] using mem_recordParameterEdges elem true hbuilt helem
  | .array elem, expanding, t, hbuilt, h => by
    obtain ⟨u, helem, rfl⟩ := Option.map_eq_some_iff.mp h
    simpa [recordParameterEdges, vars, varsAll] using mem_recordParameterEdges elem true hbuilt helem
  | .paren inner, expanding, t, hbuilt, h => mem_recordParameterEdges inner expanding hbuilt h
  | .union left right, expanding, t, hbuilt, h => by
    obtain ⟨hleft, hright⟩ := Bool.and_eq_true_iff.mp hbuilt
    simp only [resolveType] at h
    split at h
    · next hnull hbase =>
      obtain rfl := some.inj h
      simpa [recordParameterEdges, vars, varsAll, TypeExpr.edges_of_isNull hnull] using
        mem_recordParameterEdges left true hleft hbase
    · next hnull hbase =>
      obtain rfl := some.inj h
      simpa [recordParameterEdges, vars, varsAll, TypeExpr.edges_of_isNull hnull] using
        mem_recordParameterEdges right true hright hbase
    · exact absurd h nofun
  | .fn params ret, expanding, t, hbuilt, h => by
    obtain ⟨hparams, hret⟩ := Bool.and_eq_true_iff.mp hbuilt
    obtain ⟨types, u, htypes, htype, rfl⟩ := mem_map₂_iff.mp h
    simp only [recordParameterEdges, vars, varsAll_append, varsAll, mem_append, append_nil,
      mem_recordParameterEdges ret true hret htype, mem_recordAllEdges params hparams htypes]
    exact Or.comm

theorem mem_recordAllEdges : ∀ (es : List TypeExpr) {ts : List TypeTerm}, allBuilt parameters es = true →
    resolveAll parameters (formals parameters) es = some ts →
    ((⟨i, b⟩ : ParameterEdge) ∈ recordAllEdges parameters es ↔ (i, b) ∈ varsAll ts)
  | [], ts, _, h => by
    obtain rfl := some.inj h
    simp [recordAllEdges, varsAll]
  | e :: es, ts, hbuilt, h => by
    obtain ⟨hhead, htail⟩ := Bool.and_eq_true_iff.mp hbuilt
    obtain ⟨t, ts, ht, hts, rfl⟩ := mem_map₂_iff.mp h
    simp only [recordAllEdges, varsAll, mem_append, mem_recordParameterEdges e true hhead ht,
      mem_recordAllEdges es htail hts]

end

mutual

/-- the edges of an inferred argument as the template writes it -/
def writtenEdges (n : Nat) (expanding : Bool) : TypeTerm → List ParameterEdge
  | .var i => if i < n then [⟨i, expanding⟩] else []
  | .app c ts => if c.looksThrough then writtenAllEdges n ts else []

def writtenAllEdges (n : Nat) : List TypeTerm → List ParameterEdge
  | [] => []
  | t :: ts => writtenEdges n true t ++ writtenAllEdges n ts

end

variable {n : Nat}

mutual

/-- every edge of an inferred argument is an occurrence of a parameter -/
theorem mem_vars_of_mem_written : ∀ (t : TypeTerm) (expanding : Bool),
    (⟨i, b⟩ : ParameterEdge) ∈ writtenEdges n expanding t → (i, b) ∈ t.vars expanding
  | .var j, expanding, h => by
    simp only [writtenEdges] at h
    split at h
    · simpa [vars] using h
    · simp at h
  | .app c ts, expanding, h => by
    simp only [writtenEdges] at h
    split at h
    · exact mem_varsAll_of_mem_written ts h
    · simp at h

theorem mem_varsAll_of_mem_written : ∀ ts : List TypeTerm,
    (⟨i, b⟩ : ParameterEdge) ∈ writtenAllEdges n ts → (i, b) ∈ varsAll ts
  | [], h => by simp [writtenAllEdges] at h
  | t :: ts, h => by
    rcases mem_append.mp h with h | h
    · exact mem_append_left _ (mem_vars_of_mem_written t true h)
    · exact mem_append_right _ (mem_varsAll_of_mem_written ts h)

end

/-- only constructors of `K` stand above a variable -/
inductive Under (K : Set TypeCon) : TypeTerm → Prop where
  | var (i : Nat) : Under K (.var i)
  | closed {c : TypeCon} {ts : List TypeTerm} : varsAll ts = [] → Under K (.app c ts)
  | app {c : TypeCon} {ts : List TypeTerm} : c ∈ K → (∀ t ∈ ts, Under K t) → Under K (.app c ts)

variable {e : ParameterEdge}

theorem mem_writtenAllEdges : e ∈ writtenAllEdges n ts ↔ ∃ t ∈ ts, e ∈ writtenEdges n true t := by
  induction ts with
  | nil => simp [writtenAllEdges]
  | cons t ts ih => simp [writtenAllEdges, ih]

/-- below constructors that are looked through every parameter has its edge -/
theorem mem_written_of_mem_vars (h : Under {c | c.looksThrough = true} t) (hi : i < n)
    {expanding : Bool} (hvar : (i, b) ∈ t.vars expanding) : (⟨i, b⟩ : ParameterEdge) ∈ writtenEdges n expanding t := by
  induction h generalizing expanding with
  | var j =>
    obtain ⟨rfl, rfl⟩ : i = j ∧ b = expanding := by simpa [vars] using hvar
    simp [writtenEdges, hi]
  | closed hclosed => simp [vars, hclosed] at hvar
  | app hc _ ih =>
    obtain ⟨t, ht, hvar⟩ := mem_varsAll.mp hvar
    rw [writtenEdges, if_pos (show TypeCon.looksThrough _ = true from hc)]
    exact mem_writtenAllEdges.mpr ⟨t, ht, ih t ht hvar⟩

/-! ### The arguments of a request, once for all instances -/

/-- the arguments over the parameters of the template -/
def Request.terms (parameters : List String) (r : Request) : Option (List TypeTerm) :=
  match r.arguments with
  | .explicit types => resolveAll parameters (formals parameters) types
  | .inferred types => some types

def Request.edges (parameters : List String) (r : Request) : List (List ParameterEdge) :=
  match r.arguments with
  | .explicit types => types.map (recordParameterEdges parameters false)
  | .inferred types => types.map (writtenEdges parameters.length false)

variable {r : Request}

theorem Request.types_eq (hlen : args.length = parameters.length) :
    r.types parameters args = (r.terms parameters).map (List.map (subst (bound args))) := by
  unfold Request.types Request.terms
  cases r.arguments with
  | explicit types => exact resolveAll_eq_map hlen types
  | inferred types => rfl

/-- an edge is an occurrence -/
def SoundEdges (es : List ParameterEdge) (t : TypeTerm) : Prop := ∀ e ∈ es, (e.source, e.expanding) ∈ t.vars false

/-- every occurrence of one of the `n` parameters has its edge -/
def CompleteEdges (n : Nat) (es : List ParameterEdge) (t : TypeTerm) : Prop :=
  ∀ i b, i < n → (i, b) ∈ t.vars false → ⟨i, b⟩ ∈ es

theorem forall₂_recordParameterEdges {R : List ParameterEdge → TypeTerm → Prop} {types : List TypeExpr}
    (hbuilt : allBuilt parameters types = true)
    (hR : ∀ e t, (∀ i b, (⟨i, b⟩ : ParameterEdge) ∈ recordParameterEdges parameters false e ↔ (i, b) ∈ t.vars false) →
      R (recordParameterEdges parameters false e) t) :
    ∀ {terms : List TypeTerm}, resolveAll parameters (formals parameters) types = some terms →
      List.Forall₂ R (types.map (recordParameterEdges parameters false)) terms := by
  induction types with
  | nil =>
    intro terms h
    obtain rfl := some.inj h
    exact .nil
  | cons e es ih =>
    intro terms h
    obtain ⟨hhead, htail⟩ := Bool.and_eq_true_iff.mp hbuilt
    obtain ⟨t, ts, ht, hts, rfl⟩ := mem_map₂_iff.mp h
    exact .cons (hR _ _ fun i b => mem_recordParameterEdges e false hhead ht) (ih htail hts)

variable {terms : List TypeTerm}

theorem Request.forall₂_sound (hbuilt : r.built parameters = true)
    (h : r.terms parameters = some terms) : List.Forall₂ SoundEdges (r.edges parameters) terms := by
  unfold Request.built at hbuilt
  unfold Request.terms at h
  unfold Request.edges
  cases hargs : r.arguments with
  | explicit types =>
    simp only [hargs] at hbuilt h
    exact forall₂_recordParameterEdges hbuilt (fun e t hmem (x : ParameterEdge) hx => (hmem x.source x.expanding).mp hx) h
  | inferred types =>
    simp only [hargs, Option.some.injEq] at h
    subst h
    exact forall₂_map_left_iff.mpr (forall₂_same.mpr fun t _ x hx => mem_vars_of_mem_written t false hx)

/-- in the inferred arguments only constructors of `K` stand above a parameter -/
def Request.InferredUnder (K : Set TypeCon) (r : Request) : Prop :=
  ∀ types, r.arguments = .inferred types → ∀ t ∈ types, Under K t

theorem Request.forall₂_complete (hbuilt : r.built parameters = true)
    (hunder : r.InferredUnder {c | c.looksThrough = true}) (h : r.terms parameters = some terms) :
    List.Forall₂ (CompleteEdges parameters.length) (r.edges parameters) terms := by
  unfold Request.built at hbuilt
  unfold Request.terms at h
  unfold Request.edges
  cases hargs : r.arguments with
  | explicit types =>
    simp only [hargs] at hbuilt h
    exact forall₂_recordParameterEdges hbuilt (fun e t hmem i b _ hx => (hmem i b).mpr hx) h
  | inferred types =>
    simp only [hargs, Option.some.injEq] at h
    subst h
    refine forall₂_map_left_iff.mpr (forall₂_same.mpr fun t ht i b hi hx => ?_)
    exact mem_written_of_mem_vars (hunder types hargs t ht) hi hx

/-! ### One more request on a path -/

variable {paths : List (Option Bool)} {edges : List (List ParameterEdge)} {q : Nat}

/-- an expanding or a plain path to a position comes over an edge -/
theorem exists_edge_of_advance (h : (advance paths edges)[q]? = some (some b)) :
    ∃ es e b', edges[q]? = some es ∧ e ∈ es ∧ paths[e.source]? = some (some b') ∧ b = (b' || e.expanding) := by
  simp only [advance, getElem?_map, map_eq_some_iff] at h
  obtain ⟨es, hes, hmax⟩ := h
  have hmem := max?_mem hmax
  simp only [mem_filterMap, map_eq_some_iff, join_eq_some_iff] at hmem
  obtain ⟨e, he, b', hpath, rfl⟩ := hmem
  exact ⟨es, e, b', hes, he, hpath, rfl⟩

theorem max?_eq_true {l : List Bool} (h : true ∈ l) : l.max? = some true := by
  cases l with
  | nil => simp at h
  | cons a l =>
    rw [max?_cons', Option.some.injEq]
    have hfold : ∀ (l : List Bool) (a : Bool), a = true ∨ true ∈ l → l.foldl max a = true := by
      intro l
      induction l with
      | nil => intro a h; simpa using h
      | cons c l ih =>
        intro a h
        apply ih
        simp only [mem_cons] at h
        rcases h with rfl | rfl | h
        · exact .inl (by cases c <;> rfl)
        · exact .inl (by cases a <;> rfl)
        · exact .inr h
    refine hfold l a ?_
    rcases mem_cons.mp h with h | h
    · exact .inl h.symm
    · exact .inr h

theorem advance_eq_true {es : List ParameterEdge} {b' : Bool} (hes : edges[q]? = some es) (he : e ∈ es)
    (hpath : paths[e.source]? = some (some b')) (htrue : (b' || e.expanding) = true) :
    (advance paths edges)[q]? = some (some true) := by
  simp only [advance, getElem?_map, hes, map_some, Option.some.injEq]
  apply max?_eq_true
  rw [mem_filterMap]
  exact ⟨e, he, by simp [hpath, htrue]⟩

end Subscript.Check
