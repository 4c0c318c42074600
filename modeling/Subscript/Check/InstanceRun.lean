import Subscript.Check.InstanceGrowth

/-! One step of instantiation, and the run of the code outside templates, once the opaque checks have stored the edges of
every inferred request: it rejects a request exactly if there would be infinitely many instances, and a chain that goes on
for ever keeps it from ending. -/

namespace Subscript.Check

open List Terms FreeTerm

variable {templates : List Template} {starts : List Instance} {s s' : Session} {p q : Pending}
  {t : Template} {i : Instance} {rest : List Pending}

/-- everything that a request can do -/
inductive Handled (templates : List Template) (s : Session) (p : Pending) : Session → Prop where
  -- no template, or another number of parameters
  | unknown : ¬ Fits templates p.target → Handled templates s p s
  | rejected {first : List TypeTerm} {position : Nat} : Fits templates p.target →
    growing p.key p.arguments p.chain = some (first, position) →
    Handled templates s p { s with rejected := ⟨p.key, first, p.arguments.types, position⟩ :: s.rejected }
  | known : p.target ∈ s.memo → Handled templates s p s
  | made {t : Template} : templateOf templates p.key = some t → t.parameters.length = p.arguments.types.length →
    growing p.key p.arguments p.chain = none → p.target ∉ s.memo →
    Handled templates s p
      { s with memo := p.target :: s.memo, pending := t.open s.store p ++ s.pending }

theorem Session.instantiate_handled (s : Session) (p : Pending) : Handled templates s p (s.instantiate templates p) := by
  unfold Session.instantiate
  cases ht : templateOf templates p.key with
  | none => exact .unknown (by simp [Fits, ht])
  | some t =>
    dsimp only
    split
    · next hlen => exact .unknown (by simpa [Fits, ht] using hlen)
    · next hlen =>
      rw [Decidable.not_not] at hlen
      cases hgrow : growing p.key p.arguments p.chain with
      | some found => exact .rejected ⟨t, ht, hlen⟩ hgrow
      | none =>
        dsimp only
        split
        · next hmem => exact .known hmem
        · next hmem => exact .made ht hlen hgrow hmem

/-- everything that a step can do -/
inductive Stepped (templates : List Template) (s : Session) : Session → Prop where
  -- one of the requests that wait is taken
  | request {p : Pending} {rest : List Pending} {s' : Session} : s.pending.Perm (p :: rest) →
    Handled templates { s with pending := rest } p s' → Stepped templates s s'
  | task {task : Task} {agenda : List Task} : s.pending = [] → s.agenda = task :: agenda →
    Stepped templates s ({ s with agenda := agenda }.perform task)
  | ended : s.ended → Stepped templates s s

theorem Session.step_stepped (templates : List Template) (s : Session) (pick : Nat) :
    Stepped templates s (s.step templates pick) := by
  unfold Session.step
  cases hget : s.pending[pick % s.pending.length]? with
  | none =>
    have hnil : s.pending = [] := by
      refine eq_nil_of_length_eq_zero ?_
      by_contra hne
      have hlt := Nat.mod_lt pick (Nat.pos_of_ne_zero hne)
      exact absurd (getElem?_eq_none_iff.mp hget) (by omega)
    cases hagenda : s.agenda with
    | nil => exact .ended ⟨hnil, hagenda⟩
    | cons task agenda => exact .task hnil hagenda
  | some p =>
    obtain ⟨hlt, rfl⟩ := List.getElem?_eq_some_iff.mp hget
    exact .request (getElem_cons_eraseIdx_perm hlt).symm (Session.instantiate_handled _ _)

/-- any of the requests that wait can be the next one -/
theorem Session.exists_pick (templates : List Template) (h : p ∈ s.pending) :
    ∃ pick rest, s.step templates pick = Session.instantiate templates { s with pending := rest } p := by
  obtain ⟨pick, hlt, rfl⟩ := getElem_of_mem h
  refine ⟨pick, s.pending.eraseIdx pick, ?_⟩
  simp [Session.step, Nat.mod_eq_of_lt hlt, hlt]

/-! ### The requests of an instance -/

/-- the instance finds the edges of the requests that it makes -/
def Ready (store : EdgeStore) (t : Template) (p : Pending) : Prop :=
  anyInvolves p.arguments.types = false → ∀ place, Known store t place

theorem Template.resolve_opened {store : EdgeStore} {r : Request} {place : Nat}
    (hlen : t.parameters.length = p.arguments.types.length) (hready : Ready store t p)
    (hr : (t.opened (instanceBodyIsChecked p.arguments.types false))[place]? = some r) :
    (r.resolve store (t.key, place) (t.enter p)).1 = r.written t.parameters p.arguments.types := by
  cases hany : anyInvolves p.arguments.types with
  | true =>
    -- only the signature is opened
    simp only [Template.opened, instanceBodyIsChecked, hany, Bool.false_or, Bool.not_true, Bool.false_eq_true, if_false] at hr
    have hexplicit := t.explicit r (mem_of_getElem? hr)
    cases hargs : r.arguments with
    | explicit types => rw [Request.resolve_explicit hargs hlen.symm]; rfl
    | inferred types => simp [Request.isExplicit, hargs] at hexplicit
  | false =>
    simp only [Template.opened, instanceBodyIsChecked, hany, Bool.false_or, Bool.not_false, if_true] at hr
    exact Request.resolve_concrete rfl hlen.symm hany hr (hready hany place)

theorem Template.mem_open {store : EdgeStore} (hlen : t.parameters.length = p.arguments.types.length)
    (hready : Ready store t p) : q ∈ t.open store p ↔
      ∃ r ∈ t.opened (instanceBodyIsChecked p.arguments.types false), ∃ terms, r.terms t.parameters = some terms ∧
        q = t.asks p r terms := by
  simp only [Template.open, mem_filterMap, Prod.exists, mem_zipIdx_iff_getElem?]
  constructor
  · rintro ⟨r, place, hr, hmap⟩
    rw [Template.resolve_opened hlen hready hr] at hmap
    simp only [Request.written, Option.map_map, Option.map_eq_some_iff, Function.comp_apply] at hmap
    obtain ⟨terms, hterms, rfl⟩ := hmap
    exact ⟨r, mem_of_getElem? hr, terms, hterms, rfl⟩
  · rintro ⟨r, hr, terms, hterms, rfl⟩
    obtain ⟨place, hplace⟩ := getElem?_of_mem hr
    refine ⟨r, place, hplace, ?_⟩
    rw [Template.resolve_opened hlen hready hplace, Request.written, hterms]
    rfl

/-! ### The requests of a phase -/

/-- a request of a chain from `starts`, through instances that exist; only the code outside templates has requests without
a chain -/
structure Pending.Led (templates : List Template) (starts memo : List Instance) (outside : Prop) (p : Pending) : Prop where
  asked : Asked templates starts p
  chain : ∀ x ∈ p.chain, x.made ∈ memo
  concrete : p.chain = [] → outside ∧ anyInvolves p.arguments.types = false

def Session.Inv (templates : List Template) (starts : List Instance) (outside : Prop) (s : Session) : Prop :=
  ∀ p ∈ s.pending, p.Led templates starts s.memo outside

theorem Session.Inv.handled {outside : Prop} (hs : s.Inv templates starts outside) (hperm : s.pending.Perm (p :: rest))
    (h : Handled templates { s with pending := rest } p s') (hready : ∀ t, Accepts templates p t → Ready s.store t p) :
    s'.Inv templates starts outside := by
  have hled := hs p (hperm.mem_iff.mpr mem_cons_self)
  have hrest : ∀ q ∈ rest, q.Led templates starts s.memo outside :=
    fun q hq => hs q (hperm.mem_iff.mpr (mem_cons_of_mem _ hq))
  cases h with
  | @made t ht hlen hgrow hnew =>
    have haccepts : Accepts templates p t := ⟨ht, hlen, hgrow, fun x hx heq => hnew (heq ▸ hled.chain x hx)⟩
    have hbody : instanceBodyIsChecked p.arguments.types false =
        instanceBodyIsChecked p.arguments.types p.chain.isEmpty := by
      by_cases hnil : p.chain = []
      · simp [instanceBodyIsChecked, hled.concrete hnil]
      · simp [instanceBodyIsChecked, hnil]
    intro q hq
    rcases mem_append.mp hq with hq | hq
    · obtain ⟨r, hr, terms, hterms, rfl⟩ := (Template.mem_open hlen (hready t haccepts)).mp hq
      refine ⟨hled.asked.nested (.intro haccepts (hbody ▸ hr) hterms), fun x hx => ?_, by simp [Template.asks]⟩
      rcases mem_append.mp hx with hx | hx
      · exact mem_cons_of_mem _ (hled.chain x hx)
      · exact mem_singleton.mp hx ▸ mem_cons_self
    · have hq := hrest q hq
      exact ⟨hq.asked, fun x hx => mem_cons_of_mem _ (hq.chain x hx), hq.concrete⟩
  | _ => exact hrest

/-- a growing request of a chain from `starts` -/
def Grows (templates : List Template) (starts : List Instance) : Prop :=
  ∃ p first position, Asked templates starts p ∧ Fits templates p.target ∧
    growing p.key p.arguments p.chain = some (first, position)

theorem Grows.infinite (h : Grows templates starts) :
    {i | Requested templates starts i}.Infinite := by
  obtain ⟨p, first, position, hasked, hfits, hgrow⟩ := h
  exact hasked.infinite_of_growing hfits hgrow

theorem Handled.rejected_ne_nil (hasked : Asked templates starts p) (h : Handled templates { s with pending := rest } p s')
    (hs : s.rejected ≠ [] → Grows templates starts) (hne : s'.rejected ≠ []) : Grows templates starts := by
  cases h with
  | rejected hfits hgrow => exact ⟨p, _, _, hasked, hfits, hgrow⟩
  | _ => exact hs hne

theorem Handled.mem_instances (hasked : Asked templates starts p) (h : Handled templates { s with pending := rest } p s')
    (hs : ∀ i ∈ s.memo, i ∈ instances templates starts) : ∀ i ∈ s'.memo, i ∈ instances templates starts := by
  cases h with
  | made ht hlen =>
    intro i hi
    rcases mem_cons.mp hi with rfl | hi
    · exact ⟨⟨_, ht, hlen⟩, p, hasked, rfl⟩
    · exact hs i hi
  | _ => exact hs

theorem Handled.unchanged (h : Handled templates { s with pending := rest } p s') :
    s'.store = s.store ∧ s'.agenda = s.agenda ∧ s'.opaqueRejected = s.opaqueRejected ∧ ∀ i ∈ s.memo, i ∈ s'.memo := by
  cases h with
  | made => exact ⟨rfl, rfl, rfl, fun i hi => mem_cons_of_mem _ hi⟩
  | _ => exact ⟨rfl, rfl, rfl, fun i hi => hi⟩

/-! ### The code outside templates -/

/-- the request is made already, or waits -/
def Session.Wanted (s : Session) (i : Instance) : Prop :=
  i ∈ s.memo ∨ ∃ p ∈ s.pending, p.target = i

/-- what is wanted stays wanted, until a request is rejected -/
theorem Handled.wanted (hperm : s.pending.Perm (p :: rest))
    (h : Handled templates { s with pending := rest } p s') (hnone : s'.rejected = []) (hfits : Fits templates i)
    (hw : s.Wanted i) : s'.Wanted i := by
  rcases hw with hmemo | ⟨q, hq, rfl⟩
  · exact .inl (h.unchanged.2.2.2 _ hmemo)
  · rcases mem_cons.mp (hperm.mem_iff.mp hq) with rfl | hq
    · -- the request that the step takes
      cases h with
      | unknown hunknown => exact absurd hfits hunknown
      | rejected => exact absurd hnone nofun
      | known hmem => exact .inl hmem
      | made => exact .inl mem_cons_self
    · cases h with
      | made => exact .inr ⟨q, mem_append_right _ hq, rfl⟩
      | _ => exact .inr ⟨q, hq, rfl⟩

theorem Handled.rejected_eq_nil (h : Handled templates { s with pending := rest } p s')
    (hnone : s'.rejected = []) : s.rejected = [] := by
  cases h with
  | rejected => exact absurd hnone nofun
  | _ => exact hnone

/-- the store has the edges of every inferred request -/
def KnowsAll (templates : List Template) (store : EdgeStore) : Prop := ∀ t ∈ templates, ∀ place, Known store t place

theorem KnowsAll.ready {key : String} (h : KnowsAll templates s.store) (ht : templateOf templates key = some t) (p : Pending) :
    Ready s.store t p :=
  fun _ place => h t (mem_of_templateOf ht).1 place

/-- the code outside templates is being checked -/
structure Session.Concrete (templates : List Template) (roots : List Instance) (s : Session) : Prop where
  led : s.Inv templates roots True
  agenda : s.agenda = []
  known : KnowsAll templates s.store
  memo : ∀ i ∈ s.memo, i ∈ instances templates roots
  rejected : s.rejected ≠ [] → Grows templates roots
  opaqueRejected : s.opaqueRejected ≠ [] → Grows templates (opaqueStarts templates)
  roots : s.rejected = [] → ∀ i ∈ roots, Fits templates i → s.Wanted i
  -- the requests of the instances that exist
  closed : s.rejected = [] → ∀ i ∈ s.memo, ∀ t r types, templateOf templates i.1 = some t → r ∈ t.requests →
    r.types t.parameters i.2 = some types → Fits templates (r.key, types) → s.Wanted (r.key, types)

variable {roots : List Instance}

theorem Asked.concrete (hroots : ∀ i ∈ roots, anyInvolves i.2 = false) (h : Asked templates roots p) :
    anyInvolves p.arguments.types = false := by
  induction h with
  | start hi => exact hroots _ hi
  | nested _ hnested ih =>
    obtain ⟨haccepts, hopened, hterms⟩ := hnested
    refine Request.anyInvolves_types ih (Template.built _ _ (Template.mem_of_mem_opened hopened)) ?_
    rw [Request.types_eq haccepts.arity.symm, hterms]
    rfl

/-- the moment after the opaque checks -/
structure Session.Begun (templates : List Template) (roots : List Instance) (s : Session) : Prop where
  memo : s.memo = []
  rejected : s.rejected = []
  pending : s.pending = roots.map .start
  agenda : s.agenda = []
  known : KnowsAll templates s.store
  opaqueRejected : s.opaqueRejected ≠ [] → Grows templates (opaqueStarts templates)

section Concrete

variable (hroots : ∀ i ∈ roots, anyInvolves i.2 = false)

include hroots

theorem Session.Begun.concrete (hs : s.Begun templates roots) : s.Concrete templates roots where
  led p hp := by
    obtain ⟨i, hi, rfl⟩ := mem_map.mp (hs.pending ▸ hp)
    exact ⟨.start hi, by simp [Pending.start], fun _ => ⟨trivial, hroots i hi⟩⟩
  agenda := hs.agenda
  known := hs.known
  memo := by simp [hs.memo]
  rejected h := absurd hs.rejected h
  opaqueRejected := hs.opaqueRejected
  roots _ i hi _ := .inr ⟨.start i, hs.pending ▸ mem_map_of_mem hi, rfl⟩
  closed := by simp [hs.memo]

theorem Session.Concrete.handled (hs : s.Concrete templates roots) (hperm : s.pending.Perm (p :: rest))
    (h : Handled templates { s with pending := rest } p s') : s'.Concrete templates roots := by
  have hasked := (hs.led p (hperm.mem_iff.mpr mem_cons_self)).asked
  have hready : ∀ t, Accepts templates p t → Ready s.store t p := fun t ht => hs.known.ready ht.template p
  obtain ⟨hstore, hagenda, hbefore, -⟩ := h.unchanged
  refine
    { led := hs.led.handled hperm h hready
      agenda := hagenda.trans hs.agenda
      known := hstore ▸ hs.known
      memo := ?_
      rejected := h.rejected_ne_nil hasked hs.rejected
      opaqueRejected := hbefore ▸ hs.opaqueRejected
      roots := ?_
      closed := ?_ }
  · exact h.mem_instances hasked hs.memo
  · exact fun hnone i hi hfits => h.wanted hperm hnone hfits (hs.roots (h.rejected_eq_nil hnone) i hi hfits)
  · intro hnone i hi t r types ht hr htypes hfits
    have hold : i ∈ s.memo → s'.Wanted (r.key, types) := fun hi =>
      h.wanted hperm hnone hfits (hs.closed (h.rejected_eq_nil hnone) i hi t r types ht hr htypes hfits)
    cases h with
    | @made t' ht' hlen hgrow hnew =>
      rcases mem_cons.mp hi with rfl | hi
      · -- the requests of the new instance wait
        obtain rfl := Option.mem_unique ht' ht
        rw [Request.types_eq hlen.symm] at htypes
        obtain ⟨terms, hterms, rfl⟩ := Option.map_eq_some_iff.mp htypes
        have hopened : r ∈ t'.opened (instanceBodyIsChecked p.arguments.types false) := by
          simpa [Template.opened, instanceBodyIsChecked, hasked.concrete hroots] using hr
        have hopen := (Template.mem_open hlen (hs.known.ready ht' p)).mpr ⟨r, hopened, terms, hterms, rfl⟩
        exact .inr ⟨_, mem_append_left _ hopen, rfl⟩
      · exact hold hi
    | _ => exact hold hi

theorem Session.Concrete.stepped (hs : s.Concrete templates roots) (h : Stepped templates s s') :
    s'.Concrete templates roots := by
  cases h with
  | request hperm hhandled => exact hs.handled hroots hperm hhandled
  | task _ hagenda => exact absurd (hs.agenda.symm.trans hagenda) nofun
  | ended => exact hs

theorem Session.Concrete.runFrom (hs : s.Concrete templates roots) (picks : Nat → Nat) (n : Nat) :
    (s.runFrom templates picks n).Concrete templates roots := by
  induction n with
  | zero => exact hs
  | succ n ih => exact ih.stepped hroots (Session.step_stepped templates _ (picks n))

end Concrete

/-- when no request waits and none was rejected, every instance exists -/
theorem Session.Concrete.requested_mem (hs : s.Concrete templates roots) (hend : s.ended) (hnone : s.rejected = [])
    (h : Requested templates roots i) : i ∈ s.memo := by
  have hmemo : ∀ {i}, s.Wanted i → i ∈ s.memo := by
    rintro i (hmem | ⟨p, hp, -⟩)
    · exact hmem
    · simp [hend.1] at hp
  induction h with
  | root hroot hfits => exact hmemo (hs.roots hnone _ hroot hfits)
  | nested _ ht hr htypes hfits ih => exact hmemo (hs.closed hnone _ ih _ _ _ ht hr htypes hfits)

theorem Session.Concrete.rejected_iff (hs : s.Concrete templates roots) (hend : s.ended) :
    s.rejected ≠ [] ↔ {i | Requested templates roots i}.Infinite := by
  constructor
  · exact fun hrejected => (hs.rejected hrejected).infinite
  · intro hinfinite hnone
    exact hinfinite ((finite_toSet s.memo).subset fun _ h => hs.requested_mem hend hnone h)

/-! ### A chain that goes on for ever -/

/-- choices that keep something true of every state -/
theorem exists_picks {I : Nat → Session → Prop} (hstep : ∀ n s, I n s → ∃ pick, I (n + 1) (s.step templates pick))
    (hs : I 0 s) : ∃ picks, ∀ n, I n (s.runFrom templates picks n) := by
  choose pick hpick using hstep
  -- the states first, each with its proof; the picks are read off them
  let states : (n : Nat) → {s // I n s} := fun n =>
    n.rec ⟨s, hs⟩ fun n s => ⟨s.1.step templates (pick n s.1 s.2), hpick n s.1 s.2⟩
  refine ⟨fun n => pick n (states n).1 (states n).2, fun n => ?_⟩
  have heq : s.runFrom templates (fun n => pick n (states n).1 (states n).2) n = (states n).1 := by
    induction n with
    | zero => rfl
    | succ n ih => rw [Session.runFrom, ih]
  exact heq ▸ (states n).2

/-- the request of the chain waits, and only the instances before it exist -/
structure Session.Follows (templates : List Template) (f : Nat → Pending) (n : Nat) (s : Session) : Prop where
  pending : f n ∈ s.pending
  memo : ∀ i ∈ s.memo, ∃ m < n, i = (f m).target
  known : KnowsAll templates s.store

theorem Session.Follows.step {f : Nat → Pending} (hnested : ∀ n, Nested templates (f n) (f (n + 1)))
    (hconcrete : ∀ n, anyInvolves (f n).arguments.types = false) {n : Nat} (hs : s.Follows templates f n) :
    ∃ pick, (s.step templates pick).Follows templates f (n + 1) := by
  obtain ⟨pick, rest, hpick⟩ := Session.exists_pick templates hs.pending
  refine ⟨pick, hpick ▸ ?_⟩
  have hhandled : Handled templates { s with pending := rest } (f n) _ := Session.instantiate_handled _ _
  generalize Session.instantiate templates { s with pending := rest } (f n) = s' at hhandled
  have hnext := hnested n
  generalize hq : f (n + 1) = q at hnext
  obtain @⟨t, r, terms, haccepts, hopened, hterms⟩ := hnext
  cases hhandled with
  | unknown hnot => exact absurd ⟨t, haccepts.template, haccepts.arity⟩ hnot
  | rejected _ hgrow => exact absurd (haccepts.growing.symm.trans hgrow) nofun
  | known hmem =>
    obtain ⟨m, hlt, heq⟩ := hs.memo _ hmem
    exact absurd (chain_injective hnested heq) (Nat.ne_of_gt hlt)
  | made ht hlen =>
    obtain rfl := Option.mem_unique haccepts.template ht
    refine ⟨?_, ?_, hs.known⟩
    · rw [hq]
      refine mem_append_left _ ((Template.mem_open hlen (hs.known.ready ht (f n))).mpr ⟨r, ?_, terms, hterms, rfl⟩)
      simpa [instanceBodyIsChecked, hconcrete n] using hopened
    · intro i hi
      rcases mem_cons.mp hi with rfl | hi
      · exact ⟨n, Nat.lt_succ_self n, rfl⟩
      · obtain ⟨m, hlt, heq⟩ := hs.memo i hi
        exact ⟨m, by omega, heq⟩

/-- Along a chain that goes on for ever there is always a request that waits. -/
theorem Session.Begun.exists_endless (hs : s.Begun templates roots) (hroots : ∀ i ∈ roots, anyInvolves i.2 = false)
    (h : ¬ ChainsEnd templates roots) : ∃ picks, ∀ n, (s.runFrom templates picks n).pending ≠ [] := by
  obtain ⟨f, ⟨i, hi, hzero⟩, hnested⟩ := not_not.mp h
  have hconcrete : ∀ n, anyInvolves (f n).arguments.types = false :=
    fun n => (asked_chain hnested hi hzero n).concrete hroots
  have hstart : s.Follows templates f 0 :=
    ⟨hzero ▸ hs.pending ▸ mem_map_of_mem hi, by simp [hs.memo], hs.known⟩
  obtain ⟨picks, hpicks⟩ := exists_picks (fun n s hs => Session.Follows.step hnested hconcrete hs) hstart
  exact ⟨picks, fun n => ne_nil_of_mem (hpicks n).pending⟩

end Subscript.Check
