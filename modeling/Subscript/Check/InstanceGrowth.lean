import Subscript.Check.InstanceStore
import Mathlib.Order.WellFounded

/-! Chains of accepted requests. If the edges show every parameter, they make types of bounded depth, since an argument
that keeps growing comes back to its own position over an expanding path, and so they end; and a growing request can be
repeated for ever. -/

namespace Subscript.Check

open List Terms FreeTerm

variable {templates : List Template} {starts : List Instance} {chain : List InstanceRequest}
  {key : String} {arguments : InstanceArguments} {p q : Pending} {t : Template}

/-- a request that makes an instance which its chain does not have yet -/
structure Accepts (templates : List Template) (p : Pending) (t : Template) : Prop where
  template : templateOf templates p.key = some t
  arity : t.parameters.length = p.arguments.types.length
  growing : growing p.key p.arguments p.chain = none
  fresh : ∀ x ∈ p.chain, x.made ≠ p.target

/-- a request of the instance that `p` makes -/
def Template.asks (t : Template) (p : Pending) (r : Request) (terms : List TypeTerm) : Pending :=
  ⟨p.chain ++ [t.enter p], r.key, terms.map (subst (bound p.arguments.types)), r.edges t.parameters⟩

/-- The request `q` is made by the instance that `p` makes. -/
inductive Nested (templates : List Template) (p : Pending) : Pending → Prop where
  | intro {t : Template} {r : Request} {terms : List TypeTerm} : Accepts templates p t →
    r ∈ t.opened (instanceBodyIsChecked p.arguments.types p.chain.isEmpty) → r.terms t.parameters = some terms →
    Nested templates p (t.asks p r terms)

/-- the requests that chains of accepted requests lead to -/
inductive Asked (templates : List Template) (starts : List Instance) : Pending → Prop where
  | start {i : Instance} : i ∈ starts → Asked templates starts (.start i)
  | nested {p q : Pending} : Asked templates starts p → Nested templates p q → Asked templates starts q

/-- No chain goes on for ever, each request made by the instance of the one before it, which is a new one on the chain and
does not grow as far as the edges show. -/
def ChainsEnd (templates : List Template) (starts : List Instance) : Prop :=
  ¬ ∃ f : Nat → Pending, (∃ i ∈ starts, f 0 = .start i) ∧ ∀ n, Nested templates (f n) (f (n + 1))

theorem mem_of_templateOf (h : templateOf templates key = some t) : t ∈ templates ∧ t.key = key :=
  ⟨mem_of_find?_eq_some h, by simpa using find?_some h⟩

theorem Template.mem_of_mem_opened {body : Bool} {r : Request} (h : r ∈ t.opened body) : r ∈ t.requests := by
  unfold Template.opened at h
  split at h
  · exact h
  · exact mem_of_mem_take h

variable {k l : Nat} {b : Bool} {x : InstanceRequest} {pre post : List InstanceRequest}

/-- no position of an instance on the chain comes back to itself in a larger type -/
theorem not_expanding_of_growing_eq_none (h : growing key arguments chain = none)
    (hchain : chain = pre ++ x :: post) (hkey : x.key = key) (hk : k < x.args.length) :
    (pathsFrom x k (post.map (·.edges) ++ [arguments.edges]))[k]? ≠ some (some true) := by
  induction pre generalizing chain with
  | nil =>
    subst hchain
    simp only [nil_append, growing, if_pos hkey] at h
    split at h
    · exact absurd h nofun
    · next hnone =>
      have hall := find?_eq_none.mp hnone k (mem_range.mpr hk)
      simpa using hall
  | cons y pre ih =>
    subst hchain
    simp only [cons_append, growing] at h
    split at h
    · exact absurd h nofun
    · exact ih h rfl

variable {first : List TypeTerm}

theorem exists_expanding_of_growing_eq_some (h : growing key arguments chain = some (first, k)) :
    ∃ pre x post, chain = pre ++ x :: post ∧ x.key = key ∧ k < x.args.length ∧
      (pathsFrom x k (post.map (·.edges) ++ [arguments.edges]))[k]? = some (some true) := by
  induction chain with
  | nil => exact absurd h nofun
  | cons y chain ih =>
    simp only [growing] at h
    split at h
    · next position hpos =>
      split at hpos
      · next hkey =>
        obtain rfl : position = k := by simpa using (Prod.mk.inj (Option.some.inj h)).2
        have hfound := find?_some hpos
        have hlt := mem_range.mp (mem_of_find?_eq_some hpos)
        exact ⟨[], y, chain, rfl, hkey, hlt, by simpa using hfound⟩
      · exact absurd hpos nofun
    · obtain ⟨pre, x, post, rfl, hrest⟩ := ih h
      exact ⟨y :: pre, x, post, rfl, hrest⟩

theorem pathsFrom_append (x : InstanceRequest) (k : Nat) (es : List (List (List ParameterEdge)))
    (edges : List (List ParameterEdge)) : pathsFrom x k (es ++ [edges]) = advance (pathsFrom x k es) edges := by
  simp [pathsFrom]

theorem pathsFrom_nil (h : (pathsFrom x k [])[l]? = some (some b)) : l = k ∧ b = false := by
  simp only [pathsFrom, foldl_nil, getElem?_set, getElem?_replicate] at h
  split at h
  · next heq =>
    subst heq
    split at h
    · exact ⟨rfl, by simpa using h.symm⟩
    · exact absurd h nofun
  · split at h
    · simp at h
    · exact absurd h nofun

/-! ### Bounded depth -/

/-- the positions of all templates -/
def positions (templates : List Template) : List (String × Nat) :=
  templates.flatMap fun t => (List.range t.parameters.length).map fun k => (t.key, k)

theorem mem_positions (h : templateOf templates key = some t) (hk : k < t.parameters.length) :
    (key, k) ∈ positions templates := by
  obtain ⟨hmem, rfl⟩ := mem_of_templateOf h
  exact mem_flatMap.mpr ⟨t, hmem, mem_map.mpr ⟨k, mem_range.mpr hk, rfl⟩⟩

/-- in every inferred argument only constructors that are looked through stand above a parameter -/
def InferredUnder (templates : List Template) : Prop :=
  ∀ t ∈ templates, ∀ r ∈ t.requests, r.InferredUnder {c | c.looksThrough = true}

/-- the types that templates write -/
def written (templates : List Template) : List TypeTerm :=
  templates.flatMap fun t => t.requests.flatMap fun r => (r.terms t.parameters).getD []

variable {term : TypeTerm} {r : Request} {terms : List TypeTerm}

theorem mem_written (ht : t ∈ templates)
    (hr : r ∈ t.requests) (hterms : r.terms t.parameters = some terms) (h : term ∈ terms) : term ∈ written templates :=
  mem_flatMap.mpr ⟨t, ht, mem_flatMap.mpr ⟨r, hr, by simpa [hterms] using h⟩⟩

variable {args : List TypeTerm}

theorem bound_of_lt {i : Nat} (h : i < args.length) : args[i]? = some (bound args i) := by
  simp [bound, h]

theorem bound_of_le {i : Nat} (h : args.length ≤ i) : bound args i = .var i := by
  simp [bound, h]

/-- the positions that the argument at `k` has grown through, each only once -/
structure Grown (templates : List Template) (p : Pending) (k : Nat) (S : List (String × Nat)) : Prop where
  nodup : S.Nodup
  positions : ∀ l ∈ S, l ∈ positions templates
  expanding : ∀ l ∈ S, ∃ pre x post, p.chain = pre ++ x :: post ∧ x.key = l.1 ∧ l.2 < x.args.length ∧
    (pathsFrom x l.2 (post.map (·.edges) ++ [p.arguments.edges]))[k]? = some (some true)

theorem Grown.nil (p : Pending) (k : Nat) : Grown templates p k [] := ⟨.nil, by simp, by simp⟩

section Step

variable {es : List ParameterEdge} {S : List (String × Nat)} (hS : Grown templates p k S)

include hS

/-- the paths to one more request -/
theorem Grown.expanding_step {e : ParameterEdge} (hsource : e.source = k)
    (hes : (r.edges t.parameters)[l]? = some es) (he : e ∈ es) {m : String × Nat} (hm : m ∈ S) :
    ∃ pre x post, (t.asks p r terms).chain = pre ++ x :: post ∧ x.key = m.1 ∧ m.2 < x.args.length ∧
      (pathsFrom x m.2 (post.map (·.edges) ++ [(t.asks p r terms).arguments.edges]))[l]? = some (some true) := by
  obtain ⟨pre, x, post, hchain, hkey, hlt, hpath⟩ := hS.expanding m hm
  refine ⟨pre, x, post ++ [t.enter p], by simp [Template.asks, hchain], hkey, hlt, ?_⟩
  rw [map_append, map_singleton, pathsFrom_append]
  exact advance_eq_true hes he (hsource ▸ hpath) (by simp)

theorem Grown.plain (hes : (r.edges t.parameters)[l]? = some es) (he : (⟨k, b⟩ : ParameterEdge) ∈ es) :
    Grown templates (t.asks p r terms) l S :=
  ⟨hS.nodup, hS.positions, fun _ hm => hS.expanding_step rfl hes he hm⟩

/-- an expanding edge adds its position, which is a new one as the request was not growing -/
theorem Grown.expand (ht : Accepts templates p t) (hk : k < t.parameters.length)
    (hes : (r.edges t.parameters)[l]? = some es) (he : (⟨k, true⟩ : ParameterEdge) ∈ es) :
    Grown templates (t.asks p r terms) l ((p.key, k) :: S) := by
  have hnew : (p.key, k) ∉ S := by
    intro hmem
    obtain ⟨pre, x, post, hchain, hkey, hlt, hpath⟩ := hS.expanding _ hmem
    exact not_expanding_of_growing_eq_none ht.growing hchain hkey hlt hpath
  refine ⟨nodup_cons.mpr ⟨hnew, hS.nodup⟩, ?_, ?_⟩
  · intro m hm
    rcases mem_cons.mp hm with rfl | hm
    · exact mem_positions ht.template hk
    · exact hS.positions m hm
  · intro m hm
    rcases mem_cons.mp hm with rfl | hm
    · refine ⟨p.chain, t.enter p, [], rfl, rfl, ht.arity ▸ hk, ?_⟩
      have hself : (pathsFrom (t.enter p) k [])[k]? = some (some false) := by
        simp [pathsFrom, Template.enter, ht.arity ▸ hk]
      exact advance_eq_true hes he hself rfl
    · exact hS.expanding_step rfl hes he hm

end Step

/-- the depth of an argument is paid for by the positions it has grown through -/
theorem Asked.exists_grown (hunder : InferredUnder templates) (h : Asked templates starts p)
    (hterm : p.arguments.types[k]? = some term) :
    ∃ S, Grown templates p k S ∧
      term.depth ≤ depthAll (starts.flatMap (·.2)) + depthAll (written templates) * (S.length + 1) := by
  induction h generalizing k term with
  | start hstart =>
    have hle : term.depth ≤ depthAll (starts.flatMap (·.2)) :=
      depth_le_depthAll (mem_flatMap.mpr ⟨_, hstart, mem_of_getElem? hterm⟩)
    exact ⟨[], Grown.nil _ k, by omega⟩
  | @nested p _ _ hnested ih =>
    obtain @⟨t, r, terms, haccepts, hopened, hterms⟩ := hnested
    obtain ⟨u, hu, rfl⟩ := Option.map_eq_some_iff.mp (getElem?_map .. ▸ hterm)
    have hr := Template.mem_of_mem_opened hopened
    have hmem := (mem_of_templateOf haccepts.template).1
    have hlen := haccepts.arity
    have hwritten : u.depth ≤ depthAll (written templates) :=
      depth_le_depthAll (mem_written hmem hr hterms (mem_of_getElem? hu))
    have hcomplete := Request.forall₂_complete (t.built r hr) (hunder t hmem r hr) hterms
    rcases depth_subst_le u (bound p.arguments.types) with hshallow | ⟨i, b, hvar, hdeep⟩
    · exact ⟨[], Grown.nil _ k, by simp only [length_nil, Nat.zero_add, Nat.mul_one]; omega⟩
    · by_cases hi : i < t.parameters.length
      · -- the argument of the requesting instance at `i`, with what one more edge adds
        obtain ⟨S, hS, hbound⟩ := ih (bound_of_lt (hlen ▸ hi))
        obtain ⟨hq, hes⟩ := forall₂_iff_get.mp hcomplete
        have hlt : k < terms.length := (List.getElem?_eq_some_iff.mp hu).1
        have hget : (r.edges t.parameters)[k]? = some ((r.edges t.parameters).get ⟨k, hq ▸ hlt⟩) := by simp [hq ▸ hlt]
        have hu' : terms.get ⟨k, hlt⟩ = u := (List.getElem?_eq_some_iff.mp hu).2
        have hedge := hes k (hq ▸ hlt) hlt i b hi (hu' ▸ hvar)
        cases b with
        | false => exact ⟨S, hS.plain hget hedge, by simp at hdeep; omega⟩
        | true =>
          refine ⟨(p.key, i) :: S, hS.expand haccepts hi hget hedge, ?_⟩
          simp only [length_cons, Nat.mul_add, Bool.toNat_true, Nat.one_mul] at hbound hdeep ⊢
          omega
      · rw [bound_of_le (by omega)] at hdeep
        have hle : b.toNat * u.depth ≤ u.depth := by
          simpa using Nat.mul_le_mul_right u.depth b.toNat_le
        refine ⟨[], Grown.nil _ k, ?_⟩
        simp only [depth] at hdeep
        simp only [length_nil, Nat.zero_add, Nat.mul_one]
        omega

/-- the depth that no accepted request passes -/
def maxDepth (templates : List Template) (starts : List Instance) : Nat :=
  depthAll (starts.flatMap (·.2)) + depthAll (written templates) * ((positions templates).length + 1)

theorem Asked.depth_le (hunder : InferredUnder templates) (h : Asked templates starts p)
    (hterm : term ∈ p.arguments.types) : term.depth ≤ maxDepth templates starts := by
  obtain ⟨k, hk⟩ := getElem?_of_mem hterm
  obtain ⟨S, hS, hle⟩ := h.exists_grown hunder hk
  have hlen : S.length ≤ (positions templates).length := (hS.nodup.subperm hS.positions).length_le
  have hmul := Nat.mul_le_mul_left (depthAll (written templates)) (Nat.add_le_add_right hlen 1)
  unfold maxDepth
  omega

/-! ### Finitely many accepted instances -/

/-- the arguments of requests are built from the variables and constructors of the starts and the templates -/
theorem Asked.over {V : Set Nat} {K : Set (TypeCon × Nat)} (hstarts : ∀ u ∈ starts.flatMap (·.2), Over V K u)
    (hwritten : ∀ u ∈ written templates, Over V K u) (h : Asked templates starts p) :
    ∀ u ∈ p.arguments.types, Over V K u := by
  induction h with
  | start hstart =>
    intro u hu
    exact hstarts u (mem_flatMap.mpr ⟨_, hstart, hu⟩)
  | @nested p _ _ hnested ih =>
    obtain ⟨haccepts, hopened, hterms⟩ := hnested
    intro _ hmem
    obtain ⟨u, hu, rfl⟩ := mem_map.mp hmem
    have hr := Template.mem_of_mem_opened hopened
    refine (hwritten u (mem_written (mem_of_templateOf haccepts.template).1 hr hterms hu)).subst fun i hi => ?_
    by_cases hlt : i < p.arguments.types.length
    · exact ih _ (mem_of_getElem? (bound_of_lt hlt))
    · rw [bound_of_le (Nat.not_lt.mp hlt)]
      exact .var hi

/-- the instances that requests ask for -/
def instances (templates : List Template) (starts : List Instance) : Set Instance :=
  {i | Fits templates i ∧ ∃ p, Asked templates starts p ∧ p.target = i}

theorem finite_instances (hunder : InferredUnder templates) (starts : List Instance) :
    (instances templates starts).Finite := by
  obtain ⟨V, K, hV, hK, hover⟩ := exists_over (starts.flatMap (·.2) ++ written templates)
  let terms : Set TypeTerm := {u | Over V K u ∧ u.depth ≤ maxDepth templates starts}
  have hlists : (⋃ t ∈ {t | t ∈ templates}, Prod.mk t.key '' {l : List TypeTerm | l.length = t.parameters.length ∧
      ∀ u ∈ l, u ∈ terms}).Finite :=
    (finite_toSet templates).biUnion fun t _ => (finite_lists (finite_over hV hK _) _).image _
  refine hlists.subset ?_
  rintro _ ⟨⟨t, ht, hlen⟩, p, hasked, rfl⟩
  obtain ⟨hmem, hkey⟩ := mem_of_templateOf ht
  have hbuilt := hasked.over (fun u hu => hover u (mem_append_left _ hu)) fun u hu =>
    hover u (mem_append_right _ hu)
  have hterms : ∀ u ∈ p.arguments.types, u ∈ terms := fun u hu => ⟨hbuilt u hu, hasked.depth_le hunder hu⟩
  exact Set.mem_biUnion (show t ∈ {t | t ∈ templates} from hmem) ⟨_, ⟨hlen.symm, hterms⟩, Prod.ext hkey rfl⟩

/-! ### Chains that end -/

theorem Nested.lengthens (h : Nested templates p q) :
    Fits templates p.target ∧ (∀ x ∈ p.chain, x.made ≠ p.target) ∧
      ∃ t : Template, q.chain = p.chain ++ [t.enter p] := by
  obtain ⟨haccepts, -, -⟩ := h
  exact ⟨⟨_, haccepts.template, haccepts.arity⟩, haccepts.fresh, _, rfl⟩

section Chain

variable {f : Nat → Pending} (hnested : ∀ n, Nested templates (f n) (f (n + 1)))

include hnested

theorem exists_on_chain {m n : Nat} (hlt : m < n) :
    ∃ x ∈ (f n).chain, x.made = (f m).target := by
  induction n, hlt using Nat.le_induction with
  | base =>
    obtain ⟨-, -, t, heq⟩ := (hnested m).lengthens
    exact ⟨t.enter (f m), by simp [heq], rfl⟩
  | succ n _ ih =>
    obtain ⟨x, hx, hsame⟩ := ih
    obtain ⟨-, -, t, heq⟩ := (hnested n).lengthens
    exact ⟨x, by simp [heq, hx], hsame⟩

/-- the instances of a chain are different ones -/
theorem chain_injective : Function.Injective fun n => (f n).target := by
  have hne : ∀ m n, m < n → (f m).target ≠ (f n).target := by
    intro m n hlt heq
    obtain ⟨x, hx, hsame⟩ := exists_on_chain hnested hlt
    exact (hnested n).lengthens.2.1 x hx (hsame.trans heq)
  intro m n heq
  rcases Nat.lt_trichotomy m n with hlt | rfl | hlt
  · exact absurd heq (hne m n hlt)
  · rfl
  · exact absurd heq.symm (hne n m hlt)

theorem asked_chain {i : Instance} (hi : i ∈ starts) (hzero : f 0 = .start i) (n : Nat) :
    Asked templates starts (f n) := by
  induction n with
  | zero => exact hzero ▸ .start hi
  | succ n ih => exact ih.nested (hnested n)

end Chain

/-- Where only finitely many instances are asked for every chain ends. -/
theorem chainsEnd_of_finite (hfinite : (instances templates starts).Finite) : ChainsEnd templates starts := by
  rintro ⟨f, ⟨i, hi, hzero⟩, hnested⟩
  refine (Set.infinite_range_of_injective (chain_injective hnested)) (hfinite.subset ?_)
  rintro _ ⟨n, rfl⟩
  exact ⟨(hnested n).lengthens.1, f n, asked_chain hnested hi hzero n, rfl⟩

theorem chainsEnd_of_inferredUnder (hunder : InferredUnder templates) (starts : List Instance) :
    ChainsEnd templates starts :=
  chainsEnd_of_finite (finite_instances hunder starts)

theorem finite_nested (templates : List Template) (p : Pending) : {q | Nested templates p q}.Finite := by
  cases ht : templateOf templates p.key with
  | none =>
    refine Set.finite_empty.subset ?_
    rintro _ ⟨haccepts, -, -⟩
    exact absurd (ht.symm.trans haccepts.template) nofun
  | some t =>
    refine (finite_toSet (t.requests.filterMap fun r => (r.terms t.parameters).map (t.asks p r))).subset ?_
    rintro _ ⟨haccepts, hopened, hterms⟩
    obtain rfl := Option.mem_unique haccepts.template ht
    exact mem_filterMap.mpr ⟨_, Template.mem_of_mem_opened hopened, by rw [hterms]; rfl⟩

/-- Every instance makes finitely many requests, so if every chain ends there are finitely many of them. -/
theorem ChainsEnd.finite_asked (h : ChainsEnd templates starts) : {p | Asked templates starts p}.Finite := by
  have hacc : ∀ p, Acc (fun q p => Nested templates p q) p →
      {q | Relation.ReflTransGen (Nested templates) p q}.Finite := by
    intro p hp
    induction hp with
    | intro p _ ih =>
      have hunion := (finite_nested templates p).biUnion fun q hq => ih q hq
      refine ((Set.finite_singleton p).union hunion).subset fun q hq => ?_
      rcases hq.cases_head with rfl | ⟨c, hc, hrest⟩
      · exact .inl rfl
      · exact .inr (Set.mem_biUnion hc hrest)
  have hstarts : ∀ i ∈ starts, Acc (fun q p => Nested templates p q) (.start i) := by
    intro i hi
    by_contra hnot
    obtain ⟨f, hzero, hnested⟩ := not_acc_iff_exists_descending_chain.mp hnot
    exact h ⟨f, ⟨i, hi, hzero⟩, hnested⟩
  refine ((finite_toSet starts).biUnion fun i hi => hacc _ (hstarts i hi)).subset fun p hp => ?_
  induction hp with
  | start hi => exact Set.mem_biUnion hi .refl
  | nested _ hnested ih =>
    obtain ⟨i, hi, hreach⟩ := Set.mem_iUnion₂.mp ih
    exact Set.mem_biUnion hi (hreach.tail hnested)

theorem ChainsEnd.finite_instances (h : ChainsEnd templates starts) : (instances templates starts).Finite := by
  refine (h.finite_asked.image Pending.target).subset ?_
  rintro i ⟨-, p, hp, rfl⟩
  exact ⟨p, hp, rfl⟩

/-! ### A growing request can be repeated -/

/-- Every request of a chain is one that is made if every request is accepted. -/
theorem Asked.requested (h : Asked templates starts p) (hfits : Fits templates p.target) :
    Requested templates starts p.target := by
  induction h with
  | start hstart => exact .root hstart hfits
  | nested _ hnested ih =>
    obtain ⟨haccepts, hopened, hterms⟩ := hnested
    refine .nested (ih ⟨_, haccepts.template, haccepts.arity⟩) haccepts.template (Template.mem_of_mem_opened hopened) ?_ hfits
    rw [Request.types_eq haccepts.arity.symm, hterms]
    rfl

theorem Asked.on_chain (h : Asked templates starts p) (hx : x ∈ p.chain) :
    Requested templates starts x.made ∧ Fits templates x.made := by
  induction h with
  | start => exact absurd hx not_mem_nil
  | nested hasked hnested ih =>
    obtain ⟨hfits, -, t, heq⟩ := hnested.lengthens
    rcases mem_append.mp (heq ▸ hx) with hx | hx
    · exact ih hx
    · obtain rfl := mem_singleton.mp hx
      exact ⟨hasked.requested hfits, hfits⟩

/-- instances whose argument at `l` is as deep as the path from `k` says -/
def DeeperAlong (paths : Nat → List (Option Bool)) (args types : List TypeTerm) (n : Nat) : Prop :=
  ∀ k l b, k < n → (paths k)[l]? = some (some b) → (bound args k).depth + b.toNat ≤ (bound types l).depth

/-- One more request, whatever the arguments of the requesting instance are. -/
theorem requested_step {previous : List TypeTerm} {n : Nat}
    {paths : Nat → List (Option Bool)} (hprevious : Requested templates starts (key, previous))
    (ht : templateOf templates key = some t) (hlen : previous.length = t.parameters.length) (hr : r ∈ t.requests)
    (hterms : r.terms t.parameters = some terms) (hfits : Fits templates (r.key, terms))
    (hdeep : DeeperAlong paths args previous n) :
    Requested templates starts (r.key, terms.map (subst (bound previous))) ∧
      DeeperAlong (fun k => advance (paths k) (r.edges t.parameters)) args (terms.map (subst (bound previous))) n := by
  have htypes : r.types t.parameters previous = some (terms.map (subst (bound previous))) := by
    rw [Request.types_eq hlen, hterms]
    rfl
  refine ⟨.nested hprevious ht hr htypes (by simpa [Fits] using hfits), ?_⟩
  intro k l b hk hpath
  obtain ⟨es, e, b', hes, he, hprev, rfl⟩ := exists_edge_of_advance hpath
  obtain ⟨hq, hsound⟩ := forall₂_iff_get.mp (Request.forall₂_sound (t.built r hr) hterms)
  obtain ⟨hlt, rfl⟩ := List.getElem?_eq_some_iff.mp hes
  have hedge := hsound l hlt (hq ▸ hlt) e he
  have hgrow := depth_add_le_depth_subst (σ := bound previous) hedge
  have hbound : bound (terms.map (subst (bound previous))) l = (terms.get ⟨l, hq ▸ hlt⟩).subst (bound previous) := by
    simp [bound, hq ▸ hlt]
  have hle := hdeep k e.source b' hk hprev
  have hor : (b' || e.expanding).toNat ≤ b'.toNat + e.expanding.toNat := by cases b' <;> cases e.expanding <;> simp
  rw [hbound]
  omega

/-- The requests from an instance `x` of the chain on can be made again from any other instance of its template. -/
theorem Asked.replay (h : Asked templates starts p) (hchain : p.chain = pre ++ x :: post)
    (hlen : args.length = x.args.length) (hargs : Requested templates starts (x.key, args))
    (hfits : Fits templates p.target) :
    ∃ types, types.length = p.arguments.types.length ∧ Requested templates starts (p.key, types) ∧
      DeeperAlong (fun k => pathsFrom x k (post.map (·.edges) ++ [p.arguments.edges])) args types x.args.length := by
  induction h generalizing post with
  | start => simp [Pending.start] at hchain
  | @nested p _ _ hnested ih =>
    obtain @⟨t, r, terms, haccepts, hopened, hterms⟩ := hnested
    replace hfits : Fits templates (r.key, terms) := by simpa [Fits, Template.asks] using hfits
    have hr := Template.mem_of_mem_opened hopened
    have ht := haccepts.template
    have hprev := haccepts.arity
    simp only [Template.asks, length_map]
    simp only [pathsFrom_append]
    rcases eq_nil_or_concat post with rfl | ⟨post, last, rfl⟩
    · -- `x` itself makes the request
      obtain ⟨rfl, hx⟩ := append_inj' hchain rfl
      obtain rfl := (cons.inj hx).1
      have hdeep : DeeperAlong (fun k => pathsFrom (t.enter p) k []) args args p.arguments.types.length := by
        intro k l b _ hpath
        obtain ⟨rfl, rfl⟩ := pathsFrom_nil hpath
        exact Nat.le_refl _
      obtain ⟨hnext, hdeeper⟩ := requested_step hargs ht (hlen.trans hprev.symm) hr hterms hfits hdeep
      exact ⟨_, length_map _, hnext, hdeeper⟩
    · rw [concat_eq_append, ← cons_append, ← append_assoc] at hchain
      obtain ⟨hbefore, hlast⟩ := append_inj' hchain rfl
      obtain rfl := (cons.inj hlast).1
      obtain ⟨previous, hsame, hrequested, hdeep⟩ := ih hbefore ⟨t, ht, hprev⟩
      obtain ⟨hnext, hdeeper⟩ := requested_step hrequested ht (hsame.trans hprev.symm) hr hterms hfits hdeep
      refine ⟨_, length_map _, hnext, ?_⟩
      simpa only [concat_eq_append, map_append, map_singleton, Template.enter] using hdeeper

theorem infinite_of_unbounded {n : Nat}
    (h : ∀ d, ∃ args : List TypeTerm, args.length = n ∧ Requested templates starts (key, args) ∧ d ≤ (bound args k).depth) :
    {i | Requested templates starts i}.Infinite := by
  intro hfinite
  obtain ⟨d, hd⟩ := (hfinite.image fun i => (bound i.2 k).depth).bddAbove
  obtain ⟨args, -, hargs, hdeep⟩ := h (d + 1)
  have hle := hd (Set.mem_image_of_mem _ (show (key, args) ∈ {i | Requested templates starts i} from hargs))
  simp only at hle
  omega

/-- A growing request leads to infinitely many instances: the requests from the earlier instance on, made again and
again, make its argument deeper every time. -/
theorem Asked.infinite_of_growing (h : Asked templates starts p) (hfits : Fits templates p.target)
    (hgrow : growing p.key p.arguments p.chain = some (first, k)) :
    {i | Requested templates starts i}.Infinite := by
  obtain ⟨pre, x, post, hchain, hkey, hk, hpath⟩ := exists_expanding_of_growing_eq_some hgrow
  obtain ⟨hx, t, ht, hxlen⟩ := h.on_chain (x := x) (by simp [hchain])
  have hlen : p.arguments.types.length = x.args.length := by
    obtain ⟨u, hu, hulen⟩ := hfits
    obtain rfl := Option.mem_unique (hkey ▸ ht : templateOf templates p.key = some t) hu
    rw [← hulen, hxlen]
  have hdeep : ∀ d, ∃ args : List TypeTerm, args.length = x.args.length ∧ Requested templates starts (x.key, args) ∧
      d ≤ (bound args k).depth := by
    intro d
    induction d with
    | zero => exact ⟨x.args, rfl, hx, Nat.zero_le _⟩
    | succ d ih =>
      obtain ⟨args, hargs, hrequested, hdeep⟩ := ih
      obtain ⟨types, htypes, hnext, hdeeper⟩ := h.replay hchain hargs hrequested hfits
      refine ⟨types, htypes.trans hlen, hkey ▸ hnext, ?_⟩
      have hle := hdeeper k k true hk hpath
      simp only [Bool.toNat_true] at hle
      omega
  exact infinite_of_unbounded hdeep

end Subscript.Check
