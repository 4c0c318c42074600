import Mathlib.Algebra.Ring.Nat
import Subscript.Check.InstanceRun

/-! Instantiation as a whole. The opaque checks of the templates, one after the other, store the edges of every inferred
request, provided that no check opens a template that looks for stored edges before its own check; then the code outside
templates ends in every order exactly if no chain of its requests goes on for ever unnoticed. -/

namespace Subscript.Check

open List Terms FreeTerm

/-- the generic templates in source order, and the instances that the code outside them asks for -/
structure GenericProgram where
  templates : List Template
  roots : List Instance
  distinct : (templates.map (·.key)).Nodup
  concrete : ∀ i ∈ roots, anyInvolves i.2 = false

def GenericProgram.run (G : GenericProgram) (picks : Nat → Nat) (n : Nat) : Session :=
  Session.run G.templates G.roots picks n

/-- an inferred argument of the template mentions a parameter, so that its instances look for stored edges -/
def Template.Infers (t : Template) : Prop := ∃ r ∈ t.requests, ∃ types, r.arguments = .inferred types ∧ varsAll types ≠ []

/-- The check of a template opens, at concrete arguments, no other template with inferred arguments than those whose check
is over. -/
def OpaqueOrdered (templates : List Template) : Prop :=
  ∀ before t after, templates = before ++ t :: after → ∀ p u, Asked templates [t.opaqueStart before.length] p →
    p.chain ≠ [] → anyInvolves p.arguments.types = false → Accepts templates p u → u.Infers → u ∈ before

variable {G : GenericProgram} {s s' : Session} {before after : List Template} {t u : Template} {asked rest : List Request}
  {store : EdgeStore}

theorem GenericProgram.templateOf_of_mem (G : GenericProgram) (h : t ∈ G.templates) :
    templateOf G.templates t.key = some t := by
  have hdistinct := G.distinct
  obtain ⟨before, after, heq⟩ := append_of_mem h
  simp only [heq, map_append, map_cons, nodup_append, nodup_cons] at hdistinct
  rw [templateOf, heq, find?_append]
  have hnone : before.find? (·.key == t.key) = none := by
    refine find?_eq_none.mpr fun u hu => ?_
    simpa using hdistinct.2.2 u.key (mem_map_of_mem hu) t.key mem_cons_self
  simp [hnone]

theorem exists_mem_vars_true {t : TypeTerm} {i : Nat} {b : Bool} (h : (i, b) ∈ t.vars false) :
    ∃ b', (i, b') ∈ t.vars true := by
  cases t with
  | var j => exact ⟨true, by simpa [vars] using (by simpa [vars] using h : i = j ∧ b = false).1⟩
  | app c ts => exact ⟨b, h⟩

theorem known_of_not_infers {templates : List Template} (hright : StoreRight templates store)
    (ht : templateOf templates t.key = some t) (h : ¬ t.Infers) (place : Nat) : Known store t place := by
  intro r types hr hargs
  cases hfound : store.lookup (t.key, place) with
  | some edges => exact hright _ _ _ _ _ hfound ht hr
  | none =>
    have hnone : varsAll types = [] := by
      by_contra hne
      exact h ⟨r, mem_of_getElem? hr, types, hargs, hne⟩
    rw [Request.edges, hargs]
    refine map_congr_left fun u hu => (eq_nil_iff_forall_not_mem.mpr fun e he => ?_).symm
    obtain ⟨b, hb⟩ := exists_mem_vars_true (mem_vars_of_mem_written u false he)
    exact not_mem_nil (hnone ▸ mem_varsAll.mpr ⟨u, hu, hb⟩)

/-! ### The opaque checks -/

/-- what the checks of the templates `before` leave -/
structure Session.Checked (G : GenericProgram) (before : List Template) (s : Session) : Prop where
  store : StoreRight G.templates s.store
  known : ∀ u ∈ before, ∀ place, Known s.store u place
  memo : ∀ i ∈ s.memo, i ∈ instances G.templates (opaqueStarts G.templates)
  rejected : s.rejected ≠ [] → Grows G.templates (opaqueStarts G.templates)

/-- the next template is to be checked -/
structure Session.Between (G : GenericProgram) (before after : List Template) (s : Session) : Prop
    extends s.Checked G before where
  templates : G.templates = before ++ after
  pending : s.pending = []
  agenda : s.agenda = checks before.length after ++ [.bodies G.roots]

/-- a template is being checked, and the requests `asked` are behind -/
structure Session.Checking (G : GenericProgram) (before : List Template) (t : Template) (after : List Template)
    (asked rest : List Request) (s : Session) : Prop extends s.Checked G before where
  led : s.Inv G.templates [t.opaqueStart before.length] False
  templates : G.templates = before ++ t :: after
  requests : t.requests = asked ++ rest
  agenda : s.agenda = (rest.zipIdx asked.length).map
    (fun (r, place) => .request (t.enter (.start (t.opaqueStart before.length))) place r) ++
      (checks (before.length + 1) after ++ [.bodies G.roots])
  asked : ∀ place < asked.length, Known s.store t place
  root : t.opaqueStart before.length ∈ s.memo

theorem opaqueStart_mem (h : G.templates = before ++ t :: after) :
    t.opaqueStart before.length ∈ opaqueStarts G.templates := by
  refine mem_map.mpr ⟨(t, before.length), mem_zipIdx_iff_getElem?.mpr ?_, rfl⟩
  simp [h]

theorem Asked.mono {templates : List Template} {starts starts' : List Instance} {p : Pending}
    (h : Asked templates starts p) (hsub : ∀ i ∈ starts, i ∈ starts') : Asked templates starts' p := by
  induction h with
  | start hi => exact .start (hsub _ hi)
  | nested _ hnested ih => exact ih.nested hnested

theorem Session.Between.start (G : GenericProgram) : (Session.start G.templates G.roots).Between G [] G.templates where
  store := by simp [StoreRight, Session.start]
  known := by simp
  memo := by simp [Session.start]
  rejected := by simp [Session.start]
  templates := rfl
  pending := rfl
  agenda := rfl

theorem Session.Between.begun (hs : s.Between G before []) (h : Stepped G.templates s s') : s'.Begun G.templates G.roots := by
  cases h with
  | request hperm => simp [hs.pending] at hperm
  | ended hend => exact absurd (hs.agenda.symm.trans hend.2) (by simp [checks])
  | task _ hagenda =>
    obtain ⟨rfl, rfl⟩ := cons.inj (hs.agenda.symm.trans hagenda)
    exact ⟨rfl, rfl, rfl, rfl, fun u hu => hs.known u (by simpa [hs.templates] using hu), hs.rejected⟩

theorem Session.Between.checking (hs : s.Between G before (t :: after)) (h : Stepped G.templates s s') :
    s'.Checking G before t after [] t.requests := by
  cases h with
  | request hperm => simp [hs.pending] at hperm
  | ended hend => exact absurd (hs.agenda.symm.trans hend.2) (by simp [checks])
  | task hpending hagenda =>
    obtain ⟨rfl, rfl⟩ := cons.inj (hs.agenda.symm.trans hagenda)
    have hstart := opaqueStart_mem hs.templates
    have hfits : Fits G.templates (t.opaqueStart before.length) :=
      ⟨t, G.templateOf_of_mem (by simp [hs.templates]), by simp [Template.opaqueStart, opaqueArguments]⟩
    exact
      { store := hs.store
        known := hs.known
        memo := fun i hi => by
          rcases mem_cons.mp hi with rfl | hi
          · exact ⟨hfits, _, .start hstart, rfl⟩
          · exact hs.memo i hi
        rejected := hs.rejected
        led := by simp [Session.Inv, Session.perform, hpending]
        templates := hs.templates
        requests := rfl
        agenda := rfl
        asked := by simp
        root := mem_cons_self }

theorem Session.Checking.between (hs : s.Checking G before t after asked []) (hpending : s.pending = []) :
    s.Between G (before ++ [t]) after where
  store := hs.store
  known u hu place := by
    rcases mem_append.mp hu with hu | hu
    · exact hs.known u hu place
    · obtain rfl := mem_singleton.mp hu
      intro r types hr
      have hlt : place < asked.length := by
        have hlength := (List.getElem?_eq_some_iff.mp hr).1
        simpa [hs.requests] using hlength
      exact hs.asked place hlt r types hr
  memo := hs.memo
  rejected := hs.rejected
  templates := by simp [hs.templates]
  pending := hpending
  agenda := by simpa using hs.agenda

/-- one of the requests that the check leads to -/
theorem Session.Checking.handled (hordered : OpaqueOrdered G.templates) {p : Pending} {waiting : List Pending}
    (hs : s.Checking G before t after asked rest) (hperm : s.pending.Perm (p :: waiting))
    (h : Handled G.templates { s with pending := waiting } p s') : s'.Checking G before t after asked rest := by
  obtain ⟨hasked, -, hinner⟩ := hs.led p (hperm.mem_iff.mpr mem_cons_self)
  have hstart : ∀ i ∈ [t.opaqueStart before.length], i ∈ opaqueStarts G.templates :=
    fun i hi => mem_singleton.mp hi ▸ opaqueStart_mem hs.templates
  have hready : ∀ u, Accepts G.templates p u → Ready s.store u p := by
    intro u hu hconcrete place
    have hmemu := mem_of_templateOf hu.template
    by_cases hinfers : u.Infers
    · exact hs.known u (hordered before t after hs.templates p u hasked (fun hnil => (hinner hnil).1) hconcrete hu hinfers) place
    · exact known_of_not_infers hs.store (G.templateOf_of_mem hmemu.1) hinfers place
  obtain ⟨hstore, hagenda, -, hmemo⟩ := h.unchanged
  exact
    { led := hs.led.handled hperm h hready
      store := hstore ▸ hs.store
      known := hstore ▸ hs.known
      memo := h.mem_instances (hasked.mono hstart) hs.memo
      rejected := h.rejected_ne_nil (hasked.mono hstart) hs.rejected
      templates := hs.templates
      requests := hs.requests
      agenda := hagenda.trans hs.agenda
      asked := hstore ▸ hs.asked
      root := hmemo _ hs.root }

/-- the next request of the template itself -/
theorem Session.Checking.request {r : Request} (hs : s.Checking G before t after asked (r :: rest))
    (hpending : s.pending = []) (h : Stepped G.templates s s') : s'.Checking G before t after (asked ++ [r]) rest := by
  cases h with
  | request hperm => simp [hpending] at hperm
  | ended hend => exact absurd (hs.agenda.symm.trans hend.2) (by simp)
  | task _ hagenda =>
    obtain ⟨rfl, rfl⟩ := cons.inj (hs.agenda.symm.trans hagenda)
    let root := t.enter (.start (t.opaqueStart before.length))
    have ht : templateOf G.templates t.key = some t := G.templateOf_of_mem (by simp [hs.templates])
    have hr : t.requests[asked.length]? = some r := by simp [hs.requests]
    obtain ⟨hresolve, hright, hknown⟩ := Request.resolve_checked ht hs.store hr (rfl : root = _)
    have haccepts : Accepts G.templates (.start (t.opaqueStart before.length)) t :=
      ⟨ht, by simp [Pending.start, Template.opaqueStart, opaqueArguments], rfl, by simp [Pending.start]⟩
    have hopened : r ∈ t.opened (instanceBodyIsChecked (t.opaqueStart before.length).2 true) := mem_of_getElem? hr
    -- the request waits, if its arguments exist
    have hwaits : ∀ q ∈ ((r.resolve s.store (root.key, asked.length) root).1.map fun arguments =>
        (⟨[root], r.key, arguments⟩ : Pending)).toList, q.Led G.templates [t.opaqueStart before.length] s.memo False := by
      intro q hq
      rw [show root.key = t.key from rfl, hresolve, Option.mem_toList, Request.written, Option.map_map] at hq
      obtain ⟨terms, hterms, rfl⟩ := Option.map_eq_some_iff.mp hq
      exact ⟨(Asked.start (mem_singleton.mpr rfl)).nested (.intro haccepts hopened hterms),
        forall_mem_singleton.mpr hs.root, (absurd · (cons_ne_nil _ _))⟩
    exact
      { store := hright
        known := fun u hu place =>
          Known.of_resolve (G.templateOf_of_mem (by simp [hs.templates, hu])) hright (hs.known u hu place)
        memo := hs.memo
        rejected := hs.rejected
        led := hwaits
        templates := hs.templates
        requests := by simp [hs.requests]
        agenda := by simp [Session.perform]
        asked := fun place hlt => by
          rcases Nat.lt_succ_iff_lt_or_eq.mp (by simpa using hlt) with hlt | rfl
          · exact Known.of_resolve ht hright (hs.asked place hlt)
          · exact hknown
        root := hs.root }

/-- the opaque checks are going on -/
def Session.Opaque (G : GenericProgram) (s : Session) : Prop :=
  (∃ before after, s.Between G before after) ∨ ∃ before t after asked rest, s.Checking G before t after asked rest

theorem Session.Between.stepped (hs : s.Between G before after) (h : Stepped G.templates s s') :
    s'.Opaque G ∨ s'.Begun G.templates G.roots := by
  cases after with
  | nil => exact .inr (hs.begun h)
  | cons t after => exact .inl (.inr ⟨_, _, _, _, _, hs.checking h⟩)

theorem Session.Opaque.stepped (hordered : OpaqueOrdered G.templates) (hs : s.Opaque G) (h : Stepped G.templates s s') :
    s'.Opaque G ∨ s'.Begun G.templates G.roots := by
  rcases hs with ⟨before, after, hs⟩ | ⟨before, t, after, asked, rest, hs⟩
  · exact hs.stepped h
  · by_cases hpending : s.pending = []
    · cases rest with
      | nil => exact (hs.between hpending).stepped h
      | cons r rest => exact .inl (.inr ⟨_, _, _, _, _, hs.request hpending h⟩)
    · cases h with
      | request hperm hhandled => exact .inl (.inr ⟨_, _, _, _, _, hs.handled hordered hperm hhandled⟩)
      | task hnil => exact absurd hnil hpending
      | ended hend => exact absurd hend.1 hpending

/-! ### Whole runs -/

theorem Session.runFrom_add (templates : List Template) (s : Session) (picks : Nat → Nat) (m n : Nat) :
    s.runFrom templates picks (m + n) = (s.runFrom templates picks m).runFrom templates (fun i => picks (m + i)) n := by
  induction n with
  | zero => rfl
  | succ n ih => rw [← Nat.add_assoc, Session.runFrom, ih, Session.runFrom]

theorem Session.Opaque.not_ended (hs : s.Opaque G) : ¬ s.ended := by
  rintro ⟨-, hend⟩
  rcases hs with ⟨before, after, hs⟩ | ⟨before, t, after, asked, rest, hs⟩
  · exact absurd (hs.agenda.symm.trans hend) (by simp)
  · exact absurd (hs.agenda.symm.trans hend) (by simp)

section Ordered

variable (hordered : OpaqueOrdered G.templates)

include hordered

/-- a run is in the opaque checks, or has left them -/
theorem run_opaque_or_begun (picks : Nat → Nat) (n : Nat) :
    (G.run picks n).Opaque G ∨
      ∃ m ≤ n, (G.run picks m).Begun G.templates G.roots := by
  induction n with
  | zero => exact .inl (.inl ⟨_, _, .start G⟩)
  | succ n ih =>
    rcases ih with hchecks | ⟨m, hle, hbegun⟩
    · rcases hchecks.stepped hordered (Session.step_stepped G.templates _ (picks n)) with hchecks | hbegun
      · exact .inl hchecks
      · exact .inr ⟨n + 1, Nat.le_refl _, hbegun⟩
    · exact .inr ⟨m, by omega, hbegun⟩

theorem run_opaque_or_concrete (picks : Nat → Nat) (n : Nat) :
    (G.run picks n).Opaque G ∨
      (G.run picks n).Concrete G.templates G.roots := by
  rcases run_opaque_or_begun hordered picks n with hchecks | ⟨m, hle, hbegun⟩
  · exact .inl hchecks
  · obtain ⟨k, rfl⟩ := Nat.exists_eq_add_of_le hle
    refine .inr ?_
    rw [GenericProgram.run, Session.run, Session.runFrom_add]
    exact (hbegun.concrete G.concrete).runFrom G.concrete _ k

end Ordered

/-! ### Every run ends -/

/-- the tasks that are left, those of a check counted -/
def Task.weight : Task → Nat
  | .check _ t => t.requests.length + 1
  | .request _ _ _ | .bodies _ => 1

def Session.left (s : Session) : Nat := (s.agenda.map Task.weight).sum

theorem Session.left_perform (s : Session) (task : Task) : (s.perform task).left < task.weight + s.left := by
  cases task with
  | check number t =>
    have hsum : ((t.requests.zipIdx.map fun (r, place) =>
        Task.request (t.enter (.start (t.opaqueStart number))) place r).map Task.weight).sum = t.requests.length := by
      simp only [map_map, Function.comp_def, Task.weight, map_const', sum_replicate, length_zipIdx]
      exact Nat.mul_one _
    simp only [Session.left, Session.perform, map_append, sum_append, hsum, Task.weight]
    omega
  | request last place r => simp [Session.left, Session.perform, Task.weight]
  | bodies roots => simp [Session.left, Session.perform, Task.weight]

/-- each step does a task, makes an instance or takes a request away -/
theorem Stepped.measure {templates : List Template} {N : Nat} (h : Stepped templates s s') (hne : ¬ s.ended)
    (hbound : s'.memo.toFinset.card ≤ N) :
    Prod.Lex (· < ·) (Prod.Lex (· < ·) (· < ·)) (s'.left, N - s'.memo.toFinset.card, s'.pending.length)
      (s.left, N - s.memo.toFinset.card, s.pending.length) := by
  cases h with
  | request hperm hhandled =>
    have hlen := hperm.length_eq
    rw [length_cons] at hlen
    have hleft : s'.left = s.left := by rw [Session.left, hhandled.unchanged.2.1, Session.left]
    rw [hleft]
    refine .right _ ?_
    cases hhandled with
    | made _ _ _ hnew =>
      rw [toFinset_cons, Finset.card_insert_of_notMem (by simpa using hnew)] at hbound ⊢
      dsimp only at hbound ⊢
      exact .left _ _ (by omega)
    | _ => exact .right _ (by simp only; omega)
  | @task task agenda _ hagenda =>
    refine .left _ _ ?_
    have hleft : s.left = task.weight + Session.left { s with agenda := agenda } := by simp [Session.left, hagenda]
    exact hleft ▸ Session.left_perform _ task
  | ended hend => exact absurd hend hne

theorem card_memo_le {S : Set Instance} (hS : S.Finite) {memo : List Instance}
    (h : ∀ i ∈ memo, i ∈ S) : memo.toFinset.card ≤ hS.toFinset.card := by
  refine Finset.card_le_card fun i hi => ?_
  rw [Set.Finite.mem_toFinset]
  exact h i (mem_toFinset.mp hi)

theorem run_ends (hordered : OpaqueOrdered G.templates)
    (hchecks : (instances G.templates (opaqueStarts G.templates)).Finite)
    (hroots : (instances G.templates G.roots).Finite) (picks : Nat → Nat) :
    ∃ n, (G.run picks n).ended := by
  let N := hchecks.toFinset.card + hroots.toFinset.card
  have hbound : ∀ n, (G.run picks n).memo.toFinset.card ≤ N := by
    intro n
    rcases run_opaque_or_concrete hordered picks n with (⟨_, _, hs⟩ | ⟨_, _, _, _, _, hs⟩) | hs
    · exact (card_memo_le hchecks hs.memo).trans (Nat.le_add_right _ _)
    · exact (card_memo_le hchecks hs.memo).trans (Nat.le_add_right _ _)
    · exact (card_memo_le hroots hs.memo).trans (Nat.le_add_left _ _)
  by_contra hnever
  simp only [not_exists] at hnever
  -- the measure would fall for ever
  have hwf : WellFounded (Prod.Lex (· < ·) (Prod.Lex (· < ·) (· < ·)) : Nat × Nat × Nat → Nat × Nat × Nat → Prop) :=
    WellFounded.prod_lex Nat.lt_wfRel.wf (WellFounded.prod_lex Nat.lt_wfRel.wf Nat.lt_wfRel.wf)
  let measure := fun n => ((G.run picks n).left,
    N - (G.run picks n).memo.toFinset.card,
    (G.run picks n).pending.length)
  obtain ⟨m, ⟨n, rfl⟩, hmin⟩ := hwf.has_min (Set.range measure) ⟨measure 0, 0, rfl⟩
  refine hmin (measure (n + 1)) ⟨n + 1, rfl⟩ ?_
  exact (Session.step_stepped G.templates _ (picks n)).measure (hnever n) (hbound (n + 1))

theorem settles_of_chainsEnd (hordered : OpaqueOrdered G.templates)
    (hchecks : ChainsEnd G.templates (opaqueStarts G.templates)) (hroots : ChainsEnd G.templates G.roots) :
    Settles G.templates G.roots := by
  refine ⟨run_ends hordered hchecks.finite_instances hroots.finite_instances, fun picks n hend => ?_⟩
  rcases run_opaque_or_concrete hordered picks n with hs | hs
  · exact absurd hend hs.not_ended
  · exact ⟨hs.rejected_iff hend, fun hne => (hs.opaqueRejected hne).infinite⟩

/-! ### Only such runs end -/

theorem Session.runFrom_congr (templates : List Template) (s : Session) {picks picks' : Nat → Nat} {n : Nat}
    (h : ∀ i < n, picks i = picks' i) : s.runFrom templates picks n = s.runFrom templates picks' n := by
  induction n with
  | zero => rfl
  | succ n ih => rw [Session.runFrom, Session.runFrom, ih fun i hi => h i (by omega), h n (by omega)]

theorem Session.ended.runFrom (hs : s.ended) (templates : List Template) (picks : Nat → Nat) (n : Nat) :
    s.runFrom templates picks n = s := by
  induction n with
  | zero => rfl
  | succ n ih => simp [Session.runFrom, ih, Session.step, hs.1, hs.2]

theorem chainsEnd_of_settles (hordered : OpaqueOrdered G.templates) (h : Settles G.templates G.roots) :
    ChainsEnd G.templates G.roots := by
  by_contra hchain
  obtain ⟨n, hend⟩ := h.1 fun _ => 0
  rcases run_opaque_or_begun hordered (fun _ => 0) n with hs | ⟨m, -, hbegun⟩
  · exact hs.not_ended hend
  -- the opaque checks are over at `m`, and from there the picks follow the chain
  obtain ⟨picks, hpicks⟩ := hbegun.exists_endless G.concrete hchain
  let joined : Nat → Nat := fun i => if i < m then 0 else picks (i - m)
  have hjoined : ∀ k, G.run joined (m + k) =
      (G.run (fun _ => 0) m).runFrom G.templates picks k := by
    intro k
    have hsame : (fun i => joined (m + i)) = picks := by
      funext i
      simp [joined]
    have hbefore : ∀ i < m, joined i = 0 := fun i hi => if_pos hi
    rw [GenericProgram.run, Session.run, Session.runFrom_add, hsame, Session.runFrom_congr _ _ hbefore]
    rfl
  obtain ⟨n, hend⟩ := h.1 joined
  have hstill : G.run joined (n + m) = G.run joined n := by
    rw [GenericProgram.run, Session.run, Session.runFrom_add]
    exact Session.ended.runFrom hend _ _ _
  refine hpicks n ?_
  rw [← hjoined, Nat.add_comm, hstill]
  exact hend.1

section Hidden

/-- `function* once<T>(x: T): Generator<T> { yield x; }` -/
def onceTemplate : Template := ⟨"once", ["T"], 0, [], nofun, nofun⟩

/-- `function grow<T>(x: T, n: i32): i32 { return n <= 0 ? 0 : 1 + grow(once(x), n - 1); }`, for the constructor of a
generator -/
def growTemplate (c : TypeCon) (hc : anyInvolves [.app c [.var 0]] = false) : Template :=
  ⟨"grow", ["T"], 0, [⟨"once", .inferred [.var 0]⟩, ⟨"grow", .inferred [.app c [.var 0]]⟩],
    forall_mem_cons.mpr ⟨rfl, forall_mem_singleton.mpr (by simp only [Request.built, hc, Bool.not_false])⟩, nofun⟩

/-- `i32` below `n` constructors -/
def growArgument (c : TypeCon) : Nat → TypeTerm
  | 0 => .app (.named "i32") []
  | n + 1 => .app c [growArgument c n]

def growProgram (c : TypeCon) (hc : anyInvolves [.app c [.var 0]] = false) : GenericProgram :=
  ⟨[onceTemplate, growTemplate c hc], [("grow", [growArgument c 0])], by simp [onceTemplate, growTemplate], by
    simp [anyInvolves, involvesTypeParameter, growArgument]⟩

variable {c : TypeCon} {hc : anyInvolves [.app c [.var 0]] = false} {p q : Pending}

theorem growProgram_cases (h : t ∈ (growProgram c hc).templates) : t = onceTemplate ∨ t = growTemplate c hc := by
  simpa [growProgram] using h

theorem growTemplate_terms {r : Request} (hr : r ∈ (growTemplate c hc).requests) {terms : List TypeTerm}
    (hterms : r.terms (growTemplate c hc).parameters = some terms) : terms = [.var 0] ∨ terms = [.app c [.var 0]] := by
  rcases mem_cons.mp hr with rfl | hr
  · exact .inl (Option.some.inj hterms).symm
  · obtain rfl := mem_singleton.mp hr
    exact .inr (Option.some.inj hterms).symm

/-- in an opaque check every argument has an opaque parameter -/
theorem Asked.involves_growProgram {number : Nat} (ht : t ∈ (growProgram c hc).templates)
    (h : Asked (growProgram c hc).templates [t.opaqueStart number] p) : anyInvolves p.arguments.types = true := by
  have hone : t.parameters.length = 1 := by rcases growProgram_cases ht with rfl | rfl <;> rfl
  induction h with
  | start hi =>
    obtain rfl := mem_singleton.mp hi
    simp [Pending.start, Template.opaqueStart, opaqueArguments, hone, range_succ, anyInvolves, involvesTypeParameter]
  | @nested p _ _ hnested ih =>
    obtain ⟨haccepts, hopened, hterms⟩ := hnested
    have hr := Template.mem_of_mem_opened hopened
    have harity := haccepts.arity
    rcases growProgram_cases (mem_of_templateOf haccepts.template).1 with rfl | rfl
    · exact absurd hr not_mem_nil
    · obtain ⟨x, hx⟩ := length_eq_one_iff.mp harity.symm
      have hinvolves : involvesTypeParameter x = true := by simpa [hx, anyInvolves] using ih
      rcases growTemplate_terms hr hterms with rfl | rfl
      · simpa [Template.asks, FreeTerm.subst, bound, hx, anyInvolves] using hinvolves
      · simpa [Template.asks, FreeTerm.subst, bound, hx, anyInvolves] using involves_app_of_mem mem_cons_self hinvolves

theorem opaqueOrdered_growProgram : OpaqueOrdered (growProgram c hc).templates := by
  intro before t after heq p u hasked _ hconcrete
  have ht : t ∈ (growProgram c hc).templates := by simp [heq]
  rw [hasked.involves_growProgram ht] at hconcrete
  exact absurd hconcrete nofun

theorem growing_eq_none_of_edges {key : String} {arguments : InstanceArguments} (h : arguments.edges = [[]])
    (chain : List InstanceRequest) : growing key arguments chain = none := by
  induction chain with
  | nil => rfl
  | cons x chain ih =>
    have hnone : growingPosition x chain arguments = none := by
      rw [growingPosition, h]
      refine find?_eq_none.mpr fun k _ => ?_
      rw [pathsFrom_append]
      cases k <;> simp [advance]
    rw [growing, hnone, ite_self]
    exact ih

theorem growArgument_injective (c : TypeCon) : Function.Injective (growArgument c) := by
  have hdepth : ∀ n, (growArgument c n).depth = n + 1 := by
    intro n
    induction n with
    | zero => rfl
    | succ n ih => simp [growArgument, depth, depthAll, ih]
  intro m n heq
  have hsame := congrArg depth heq
  rw [hdepth, hdepth] at hsame
  omega

theorem growArgument_concrete (hc : anyInvolves [.app c [.var 0]] = false) (n : Nat) :
    anyInvolves [growArgument c n] = false := by
  have hne := (involves_app_eq_false (anyInvolves_eq_false_iff.mp hc _ mem_cons_self)).1
  induction n with
  | zero => rfl
  | succ n ih =>
    rw [anyInvolves, growArgument, involves_app hne, ih]
    rfl

/-- the instances of `grow` on the chain of the next one -/
def growBefore (c : TypeCon) (n : Nat) : List InstanceRequest :=
  (List.range n).map fun m => ⟨"grow", [growArgument c m], ["T"], [[]]⟩

theorem growBefore_succ (c : TypeCon) (n : Nat) :
    growBefore c (n + 1) = growBefore c n ++ [⟨"grow", [growArgument c n], ["T"], [[]]⟩] := by
  simp [growBefore, range_succ]

theorem growBefore_ne {n : Nat} {x : InstanceRequest} (hx : x ∈ growBefore c n) :
    x.made ≠ ("grow", [growArgument c n]) := by
  obtain ⟨m, hm, rfl⟩ := mem_map.mp hx
  simpa using fun heq => Nat.ne_of_lt (mem_range.mp hm) (growArgument_injective c heq)

/-- a constructor that is not looked through hides that the argument grows -/
theorem not_chainsEnd_growProgram (hhidden : c.looksThrough = false) :
    ¬ ChainsEnd (growProgram c hc).templates (growProgram c hc).roots := by
  refine not_not.mpr ⟨fun n => ⟨growBefore c n, "grow", [growArgument c n], [[]]⟩, ⟨_, mem_cons_self, rfl⟩, fun n => ?_⟩
  have haccepts : Accepts (growProgram c hc).templates ⟨growBefore c n, "grow", [growArgument c n], [[]]⟩ (growTemplate c hc) :=
    ⟨rfl, rfl, growing_eq_none_of_edges rfl _, fun x hx => growBefore_ne hx⟩
  have hopened : (⟨"grow", .inferred [.app c [.var 0]]⟩ : Request) ∈
      (growTemplate c hc).opened (instanceBodyIsChecked [growArgument c n] (growBefore c n).isEmpty) := by
    simp [Template.opened, instanceBodyIsChecked, growArgument_concrete hc n, growTemplate]
  have hnested := Nested.intro haccepts hopened rfl
  simpa [Template.asks, Template.enter, growBefore_succ, growArgument, FreeTerm.subst, bound, Request.edges, writtenEdges,
    hhidden, growTemplate] using hnested

theorem inferredUnder_growProgram (hseen : c.looksThrough = true) : InferredUnder (growProgram c hc).templates := by
  intro t ht r hr types htypes u hu
  rcases growProgram_cases ht with rfl | rfl
  · exact absurd hr not_mem_nil
  · rcases mem_cons.mp hr with rfl | hr
    · obtain rfl := RequestArguments.inferred.inj htypes
      obtain rfl := mem_singleton.mp hu
      exact .var 0
    · obtain rfl := mem_singleton.mp hr
      obtain rfl := RequestArguments.inferred.inj htypes
      obtain rfl := mem_singleton.mp hu
      exact .app hseen fun v hv => mem_singleton.mp hv ▸ .var 0

end Hidden

section Unchecked

/-- `function root<T>(x: T): void { grow<i32>(1, 3); }` -/
def rootTemplate : Template :=
  ⟨"root", ["T"], 0, [⟨"grow", .explicit [.keyword "i32"]⟩], by simp [Request.built, allBuilt, TypeExpr.built], nofun⟩

/-- `function grow<T>(x: T, n: i32): i32 { return n <= 0 ? 0 : 1 + grow([x], n - 1); }` -/
def arrayTemplate : Template :=
  ⟨"grow", ["T"], 0, [⟨"grow", .inferred [.app .array [.var 0]]⟩],
    by simp [Request.built, anyInvolves, involvesTypeParameter], nofun⟩

/-- the next request, when the check of `root` has opened `n` instances of `grow` -/
def rootPending (n : Nat) : Pending :=
  ⟨rootTemplate.enter (.start (rootTemplate.opaqueStart 0)) :: growBefore .array n, "grow", [growArgument .array n], [[]]⟩

def rootCheck (n : Nat) : Session where
  memo := (growBefore .array n).reverse.map (·.made) ++ [rootTemplate.opaqueStart 0]
  rejected := []
  opaqueRejected := []
  store := []
  pending := [rootPending n]
  agenda := [.check 1 arrayTemplate, .bodies []]

theorem rootPending_new (n : Nat) : (rootPending n).target ∉ (rootCheck n).memo := by
  intro hmem
  rcases mem_append.mp hmem with hmem | hmem
  · obtain ⟨x, hx, heq⟩ := mem_map.mp hmem
    exact growBefore_ne (mem_reverse.mp hx) heq
  · exact absurd (mem_singleton.mp hmem) (by simp [rootPending, Template.opaqueStart, rootTemplate])

theorem open_rootPending (n : Nat) : arrayTemplate.open [] (rootPending n) = [rootPending (n + 1)] := by
  have hconcrete := growArgument_concrete (c := .array) rfl
  have hargument : (FreeTerm.app .array [.var 0]).subst (bound [growArgument .array n]) = growArgument .array (n + 1) := rfl
  simp [Template.open, Template.opened, instanceBodyIsChecked, rootPending, hconcrete, arrayTemplate, Request.resolve,
    inferArguments, Template.enter, growBefore_succ, hargument]

/-- the store has no edges of `grow` yet, so nothing shows that its argument grows -/
theorem step_rootCheck (n : Nat) : (rootCheck n).step [rootTemplate, arrayTemplate] 0 = rootCheck (n + 1) := by
  have htemplate : templateOf [rootTemplate, arrayTemplate] (rootPending n).key = some arrayTemplate := rfl
  have hlen : arrayTemplate.parameters.length = (rootPending n).arguments.types.length := rfl
  have hgrow : growing (rootPending n).key (rootPending n).arguments (rootPending n).chain = none :=
    growing_eq_none_of_edges rfl _
  calc (rootCheck n).step [rootTemplate, arrayTemplate] 0
    _ = Session.instantiate [rootTemplate, arrayTemplate] { rootCheck n with pending := [] } (rootPending n) := rfl
    _ = { rootCheck n with memo := (rootPending n).target :: (rootCheck n).memo, pending := [rootPending (n + 1)] } := by
      simp [Session.instantiate, htemplate, hlen, hgrow, rootPending_new, ← open_rootPending]
      rfl
    _ = rootCheck (n + 1) := by simp [rootCheck, growBefore_succ, rootPending]

theorem run_rootCheck (n : Nat) : Session.run [rootTemplate, arrayTemplate] [] (fun _ => 0) (n + 2) = rootCheck n := by
  induction n with
  | zero => rfl
  | succ n ih =>
    have hstep := step_rootCheck n
    rwa [← ih] at hstep

end Unchecked

/-- The check of `root` opens `grow<i32>`, `grow<i32[]>` and so on before `grow` has its own check. -/
theorem unchecked_template_grows : ¬ Settles [rootTemplate, arrayTemplate] [] := by
  intro hsettles
  obtain ⟨n, hend⟩ := hsettles.1 fun _ => 0
  have hstill : rootCheck n = Session.run [rootTemplate, arrayTemplate] [] (fun _ => 0) n := by
    rw [← run_rootCheck, Session.run, Session.runFrom_add]
    exact Session.ended.runFrom hend _ _ _
  exact absurd (hstill ▸ hend).1 (cons_ne_nil _ _)

end Subscript.Check
