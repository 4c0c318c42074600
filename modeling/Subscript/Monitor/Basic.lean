import Mathlib.Logic.Function.Basic
import Mathlib.Logic.Relation

/-! A monitor: data under one lock, calls that may wait on one condition variable until another call signals, and
wakeups without a signal. Between two calls the data is what the calls make of it one after the other, and a thread that
waits has nothing to return. -/

namespace Monitor

/-- whom a call wakes before it gives the lock back -/
inductive Signal where
  | quiet
  | one
  | all
deriving DecidableEq, Repr

/-- what a call does once it has the lock -/
inductive Outcome (D R : Type*) where
  | done (data : D) (signal : Signal) (result : R)
  | wait
deriving DecidableEq

/-- where a thread is -/
inductive Pc (C R : Type*) where
  | idle
  | locking (call : C)
  | held (call : C)
  | signalling (call : C) (signal : Signal) (result : R)
  | leaving (call : C) (result : R)
  | waiting (call : C)
  | woken (call : C)
deriving DecidableEq

namespace Pc

variable {C R : Type*}

/-- the thread has the lock -/
def inside : Pc C R → Bool
  | .held _ => true
  | .signalling .. => true
  | .leaving .. => true
  | _ => false

/-- the call that the thread has not returned from -/
def call : Pc C R → Option C
  | .idle => none
  | .locking c => some c
  | .held c => some c
  | .signalling c _ _ => some c
  | .leaving c _ => some c
  | .waiting c => some c
  | .woken c => some c

/-- the call that has changed the data, and its result -/
def committed : Pc C R → Option (C × R)
  | .signalling c _ r => some (c, r)
  | .leaving c r => some (c, r)
  | _ => none

/-- a signal reaches the thread -/
def wake : Pc C R → Pc C R
  | .waiting c => .woken c
  | pc => pc

end Pc

structure State (T C D R : Type*) where
  data : D
  holder : Option T
  pc : T → Pc C R
  /-- the calls that have returned, oldest first -/
  log : List (T × C × R)

variable {T C D R : Type*}

section

variable [DecidableEq T]

def State.at (s : State T C D R) (t : T) (pc : Pc C R) : State T C D R :=
  { s with pc := Function.update s.pc t pc }

/-- one step of one thread; `may` says which thread makes which calls -/
inductive Step (body : C → D → Outcome D R) (may : T → C → Prop) : State T C D R → State T C D R → Prop where
  | invoke {s} (t : T) (c : C) (allowed : may t c) (idle : s.pc t = .idle) : Step body may s (s.at t (.locking c))
  | acquire {s} (t : T) (c : C) (ready : s.pc t = .locking c ∨ s.pc t = .woken c) (free : s.holder = none) :
      Step body may s { s.at t (.held c) with holder := some t }
  | work {s} (t : T) (c : C) {d : D} {signal : Signal} {r : R} (held : s.pc t = .held c)
      (does : body c s.data = .done d signal r) :
      Step body may s { s.at t (.signalling c signal r) with data := d }
  | wait {s} (t : T) (c : C) (held : s.pc t = .held c) (waits : body c s.data = .wait) :
      Step body may s { s.at t (.waiting c) with holder := none }
  | quiet {s} (t : T) (c : C) (r : R) (signals : s.pc t = .signalling c .quiet r) :
      Step body may s (s.at t (.leaving c r))
  | nobody {s} (t : T) (c : C) (r : R) (signals : s.pc t = .signalling c .one r)
      (alone : ∀ u w, s.pc u ≠ .waiting w) : Step body may s (s.at t (.leaving c r))
  | one {s} (t u : T) (c w : C) (r : R) (signals : s.pc t = .signalling c .one r) (waits : s.pc u = .waiting w) :
      Step body may s ((s.at u (.woken w)).at t (.leaving c r))
  | all {s} (t : T) (c : C) (r : R) (signals : s.pc t = .signalling c .all r) :
      Step body may s ({ s with pc := fun u => (s.pc u).wake }.at t (.leaving c r))
  | leave {s} (t : T) (c : C) (r : R) (leaves : s.pc t = .leaving c r) :
      Step body may s { s.at t .idle with holder := none, log := s.log ++ [(t, c, r)] }
  | spurious {s} (t : T) (c : C) (waits : s.pc t = .waiting c) : Step body may s (s.at t (.woken c))

/-- no thread is inside -/
def State.new (start : D) : State T C D R := ⟨start, none, fun _ => .idle, []⟩

def Reachable (body : C → D → Outcome D R) (may : T → C → Prop) (start : D) (s : State T C D R) : Prop :=
  Relation.ReflTransGen (Step body may) (.new start) s

end

/-- calls that are made one after the other -/
inductive Exec (body : C → D → Outcome D R) (start : D) : List (T × C × R) → D → Prop where
  | nil : Exec body start [] start
  | snoc {log : List (T × C × R)} {d d' : D} {signal : Signal} {t : T} {c : C} {r : R} (before : Exec body start log d)
      (does : body c d = .done d' signal r) : Exec body start (log ++ [(t, c, r)]) d'

/-- what holds between all steps -/
structure Inv (body : C → D → Outcome D R) (may : T → C → Prop) (start : D) (s : State T C D R) : Prop where
  lock : ∀ t, s.holder = some t ↔ (s.pc t).inside = true
  allowed : ∀ t c, (s.pc t).call = some c → may t c
  /-- the calls in the order of the log lead to the data, but for the call that is about to return -/
  linear : ∃ d, Exec body start s.log d ∧
    ((∀ t, (s.pc t).committed = none) ∧ s.data = d ∨
      ∃ t c r signal, (s.pc t).committed = some (c, r) ∧ body c d = .done s.data signal r)

variable {body : C → D → Outcome D R} {may : T → C → Prop} {start : D} {s s' : State T C D R}

theorem Pc.wake_same (pc : Pc C R) :
    pc.wake.inside = pc.inside ∧ pc.wake.call = pc.call ∧ pc.wake.committed = pc.committed := by
  cases pc <;> exact ⟨rfl, rfl, rfl⟩

theorem Pc.inside_of_committed {pc : Pc C R} {call : C × R} (is : pc.committed = some call) : pc.inside = true := by
  cases pc <;> first | rfl | cases is

theorem Pc.held_of_inside {pc : Pc C R} (inside : pc.inside = true) (uncommitted : pc.committed = none) :
    ∃ c, pc = .held c := by
  cases pc with
  | held c => exact ⟨c, rfl⟩
  | signalling => exact nomatch uncommitted
  | leaving => exact nomatch uncommitted
  | _ => exact nomatch inside

section

variable (inv : Inv body may start s)

include inv

/-- the lock has one holder -/
theorem Inv.unique {t u : T} (first : (s.pc t).inside = true)
    (second : (s.pc u).inside = true) : t = u :=
  Option.some.inj (((inv.lock t).2 first).symm.trans ((inv.lock u).2 second))

/-- while a call works on the data no other has changed it -/
theorem Inv.data_of_held {t : T} {c : C} (held : s.pc t = .held c) :
    Exec body start s.log s.data := by
  obtain ⟨d, exec, ⟨_, same⟩ | ⟨u, c', r, signal, is, _⟩⟩ := inv.linear
  · exact same ▸ exec
  · have same : t = u := inv.unique (by rw [held]; rfl) (Pc.inside_of_committed is)
    rw [← same, held] at is
    cases is

theorem Inv.data_of_free (free : s.holder = none) : Exec body start s.log s.data := by
  obtain ⟨d, exec, ⟨_, same⟩ | ⟨u, c', r, signal, is, _⟩⟩ := inv.linear
  · exact same ▸ exec
  · have holds := (inv.lock u).2 (Pc.inside_of_committed is)
    exact nomatch free.symm.trans holds

theorem Inv.data_of_committed {t : T} {c : C} {r : R}
    (is : (s.pc t).committed = some (c, r)) :
    ∃ d signal, Exec body start s.log d ∧ body c d = .done s.data signal r := by
  obtain ⟨d, exec, ⟨none, _⟩ | ⟨u, c', r', signal, is', does⟩⟩ := inv.linear
  · exact nomatch (none t).symm.trans is
  · obtain rfl : t = u := inv.unique (Pc.inside_of_committed is) (Pc.inside_of_committed is')
    cases is.symm.trans is'
    exact ⟨d, signal, exec, does⟩

end

theorem Inv.new (start : D) : Inv body may start (.new start : State T C D R) :=
  ⟨fun _ => ⟨nofun, nofun⟩, fun _ _ => nofun, start, .nil, .inl ⟨fun _ => rfl, rfl⟩⟩

/-- threads move outside the lock and the data -/
theorem Inv.move (inv : Inv body may start s) {pc : T → Pc C R} (inside : ∀ u, (pc u).inside = (s.pc u).inside)
    (allowed : ∀ u c, (pc u).call = some c → may u c) (committed : ∀ u, (pc u).committed = (s.pc u).committed) :
    Inv body may start { s with pc := pc } := by
  refine ⟨fun u => ?_, allowed, ?_⟩
  · rw [inside]
    exact inv.lock u
  · obtain ⟨d, exec, ⟨none, same⟩ | ⟨u, c, r, signal, is, does⟩⟩ := inv.linear
    · exact ⟨d, exec, .inl ⟨fun u => (committed u).trans (none u), same⟩⟩
    · exact ⟨d, exec, .inr ⟨u, c, r, signal, (committed u).trans is, does⟩⟩

/-- the calls that have taken effect, the one that is about to return included -/
def State.history (s : State T C D R) : List (T × C × R) :=
  s.log ++ (s.holder.bind fun t => (s.pc t).committed.map fun call => (t, call)).toList

/-- one thread makes all calls that may wait, and a call that ends the wait of another is not quiet -/
structure Loud (body : C → D → Outcome D R) (may : T → C → Prop) : Prop where
  single : ∀ t u c w, may t c → may u w → (∃ d, body c d = .wait) → (∃ d, body w d = .wait) → t = u
  loud : ∀ c d d' signal r w, body c d = .done d' signal r → body w d = .wait → body w d' ≠ .wait → signal ≠ .quiet

/-- a thread that waits has nothing to return, or is about to be woken -/
def Awaited (body : C → D → Outcome D R) (s : State T C D R) : Prop :=
  ∀ u w, s.pc u = .waiting w → (∃ d, body w d = .wait) ∧
    (body w s.data = .wait ∨ ∃ t c signal r, s.pc t = .signalling c signal r ∧ signal ≠ .quiet)

/-- while another thread holds the lock and does not signal, a thread that waits has nothing to return -/
theorem Awaited.silent (awaited : Awaited body s) (inv : Inv body may start s) {t : T} (inside : (s.pc t).inside = true)
    (silent : ∀ c signal r, s.pc t = .signalling c signal r → signal = .quiet) {u : T} {w : C}
    (waits : s.pc u = .waiting w) : body w s.data = .wait := by
  rcases (awaited u w waits).2 with same | ⟨t', c, signal, r, signals, told⟩
  · exact same
  · have same : t = t' := inv.unique inside (by rw [signals]; rfl)
    exact absurd (silent c signal r (same ▸ signals)) told

section

variable [DecidableEq T]

theorem State.at_pc (s : State T C D R) (t u : T) (pc : Pc C R) :
    (s.at t pc).pc u = if u = t then pc else s.pc u := Function.update_apply _ _ _ _

theorem Inv.moveOne (inv : Inv body may start s) {t : T} {pc : Pc C R} (inside : pc.inside = (s.pc t).inside)
    (allowed : ∀ c, pc.call = some c → may t c) (committed : pc.committed = (s.pc t).committed) :
    Inv body may start (s.at t pc) := by
  refine inv.move (fun u => ?_) (fun u c => ?_) fun u => ?_
  all_goals rw [Function.update_apply]
  · split
    · rename_i same
      rw [inside, same]
    · rfl
  · split
    · rename_i same
      rw [same]
      exact allowed c
    · exact inv.allowed u c
  · split
    · rename_i same
      rw [committed, same]
    · rfl

/-- a thread takes the lock or gives it back -/
theorem Inv.pass (inv : Inv body may start s) {t : T} {pc : Pc C R} {holder : Option T} {log : List (T × C × R)}
    {data : D} (mine : s.holder = none ∨ s.holder = some t) (inside : holder = if pc.inside then some t else none)
    (allowed : ∀ c, pc.call = some c → may t c)
    (linear : ∃ d, Exec body start log d ∧ (pc.committed = none ∧ data = d ∨
      ∃ c r signal, pc.committed = some (c, r) ∧ body c d = .done data signal r)) :
    Inv body may start { s.at t pc with holder := holder, log := log, data := data } := by
  have others : ∀ u, u ≠ t → (s.pc u).inside = false := by
    intro u other
    cases outside : (s.pc u).inside with
    | false => rfl
    | true =>
      have holds := (inv.lock u).2 outside
      rcases mine with free | is
      · exact nomatch free.symm.trans holds
      · exact absurd (Option.mem_unique holds is) other
  refine ⟨fun u => ?_, fun u c => ?_, ?_⟩
  · rw [State.at_pc, inside]
    by_cases same : u = t
    · rw [if_pos same, same]
      cases pc.inside <;> simp
    · rw [if_neg same, others u same]
      cases pc.inside <;> simp [Ne.symm same]
  · rw [State.at_pc]
    split
    · rename_i same
      rw [same]
      exact allowed c
    · exact inv.allowed u c
  · obtain ⟨d, exec, ⟨none, same⟩ | ⟨c, r, signal, is, does⟩⟩ := linear
    · refine ⟨d, exec, .inl ⟨fun u => ?_, same⟩⟩
      rw [State.at_pc]
      split
      · exact none
      · rename_i other
        cases is : (s.pc u).committed with
        | none => rfl
        | some call => exact nomatch (others u other).symm.trans (Pc.inside_of_committed is)
    · refine ⟨d, exec, .inr ⟨t, c, r, signal, ?_, does⟩⟩
      rw [State.at_pc, if_pos rfl]
      exact is

theorem Inv.step (inv : Inv body may start s) (step : Step body may s s') : Inv body may start s' := by
  cases step with
  | invoke t c allowed idle =>
    refine inv.moveOne (by rw [idle]; rfl) (fun c' is => ?_) (by rw [idle]; rfl)
    cases is
    exact allowed
  | acquire t c ready free =>
    have mine : may t c := by
      rcases ready with is | is
      · exact inv.allowed t c (by rw [is]; rfl)
      · exact inv.allowed t c (by rw [is]; rfl)
    refine inv.pass (.inl free) rfl (fun c' is => ?_) ⟨s.data, inv.data_of_free free, .inl ⟨rfl, rfl⟩⟩
    cases is
    exact mine
  | work t c held does =>
    refine inv.pass (.inr ((inv.lock t).2 (by rw [held]; rfl))) ((inv.lock t).2 (by rw [held]; rfl)) (fun c' is => ?_)
      ⟨s.data, inv.data_of_held held, .inr ⟨c, _, _, rfl, does⟩⟩
    cases is
    exact inv.allowed t c (by rw [held]; rfl)
  | wait t c held waits =>
    refine inv.pass (.inr ((inv.lock t).2 (by rw [held]; rfl))) rfl (fun c' is => ?_)
      ⟨s.data, inv.data_of_held held, .inl ⟨rfl, rfl⟩⟩
    cases is
    exact inv.allowed t c (by rw [held]; rfl)
  | quiet t c r signals =>
    refine inv.moveOne (by rw [signals]; rfl) (fun c' is => ?_) (by rw [signals]; rfl)
    cases is
    exact inv.allowed t c (by rw [signals]; rfl)
  | nobody t c r signals alone =>
    refine inv.moveOne (by rw [signals]; rfl) (fun c' is => ?_) (by rw [signals]; rfl)
    cases is
    exact inv.allowed t c (by rw [signals]; rfl)
  | one t u c w r signals waits =>
    have woken : Inv body may start (s.at u (.woken w)) := by
      refine inv.moveOne (by rw [waits]; rfl) (fun c' is => ?_) (by rw [waits]; rfl)
      cases is
      exact inv.allowed u w (by rw [waits]; rfl)
    have other : t ≠ u := by
      rintro rfl
      exact nomatch signals.symm.trans waits
    have still : (s.at u (.woken w)).pc t = .signalling c .one r := by rw [State.at_pc, if_neg other, signals]
    refine woken.moveOne (by rw [still]; rfl) (fun c' is => ?_) (by rw [still]; rfl)
    cases is
    exact inv.allowed t c (by rw [signals]; rfl)
  | all t c r signals =>
    have woken : Inv body may start { s with pc := fun u => (s.pc u).wake } :=
      inv.move (fun u => (s.pc u).wake_same.1) (fun u c is => inv.allowed u c ((s.pc u).wake_same.2.1 ▸ is))
        fun u => (s.pc u).wake_same.2.2
    have still : ({ s with pc := fun u => (s.pc u).wake } : State T C D R).pc t = .signalling c .all r := by
      change (s.pc t).wake = _
      rw [signals]
      rfl
    refine woken.moveOne (by rw [still]; rfl) (fun c' is => ?_) (by rw [still]; rfl)
    cases is
    exact inv.allowed t c (by rw [signals]; rfl)
  | leave t c r leaves =>
    obtain ⟨d, signal, exec, does⟩ := inv.data_of_committed (by rw [leaves]; rfl)
    exact inv.pass (.inr ((inv.lock t).2 (by rw [leaves]; rfl))) rfl (fun _ is => nomatch is)
      ⟨s.data, exec.snoc does, .inl ⟨rfl, rfl⟩⟩
  | spurious t c waits =>
    refine inv.moveOne (by rw [waits]; rfl) (fun c' is => ?_) (by rw [waits]; rfl)
    cases is
    exact inv.allowed t c (by rw [waits]; rfl)

theorem Reachable.inv (reachable : Reachable body may start s) : Inv body may start s := by
  induction reachable with
  | refl => exact .new start
  | tail _ step ih => exact ih.step step

/-- the thread that has the lock can go on -/
theorem exists_step_of_inside {t : T} (inside : (s.pc t).inside = true) : ∃ s', Step body may s s' := by
  cases is : s.pc t with
  | held c =>
    cases does : body c s.data with
    | done d signal r => exact ⟨_, .work t c is does⟩
    | wait => exact ⟨_, .wait t c is does⟩
  | signalling c signal r =>
    cases signal with
    | quiet => exact ⟨_, .quiet t c r is⟩
    | one =>
      by_cases waits : ∃ u w, s.pc u = .waiting w
      · obtain ⟨u, w, waits⟩ := waits
        exact ⟨_, .one t u c w r is waits⟩
      · exact ⟨_, .nobody t c r is fun u w waiting => waits ⟨u, w, waiting⟩⟩
    | all => exact ⟨_, .all t c r is⟩
  | leaving c r => exact ⟨_, .leave t c r is⟩
  | _ =>
    rw [is] at inside
    exact nomatch inside

/-- a thread that wants the lock can take it, or the one that has it can go on -/
theorem Inv.exists_step (inv : Inv body may start s) {t : T} {c : C} (ready : s.pc t = .locking c ∨ s.pc t = .woken c) :
    ∃ s', Step body may s s' := by
  cases holds : s.holder with
  | none => exact ⟨_, .acquire t c ready holds⟩
  | some u => exact exists_step_of_inside ((inv.lock u).1 holds)

/-- every state is one of calls that are made one after the other -/
theorem Reachable.exec (reachable : Reachable body may start s) : Exec body start s.history s.data := by
  have inv := reachable.inv
  unfold State.history
  cases holds : s.holder with
  | none =>
    rw [Option.bind_none, Option.toList_none, List.append_nil]
    exact inv.data_of_free holds
  | some t =>
    rw [Option.bind_some]
    cases is : (s.pc t).committed with
    | some call =>
      obtain ⟨d, signal, exec, does⟩ := inv.data_of_committed is
      exact exec.snoc does
    | none =>
      have inside := (inv.lock t).1 holds
      rw [Option.map_none, Option.toList_none, List.append_nil]
      obtain ⟨c, held⟩ := Pc.held_of_inside inside is
      exact inv.data_of_held held

/-- a move of a thread that neither waits nor signals -/
theorem Awaited.move (awaited : Awaited body s) {t : T} {pc : Pc C R} (stays : ∀ w, pc ≠ .waiting w)
    (silent : ∀ c signal r, s.pc t ≠ .signalling c signal r) : Awaited body (s.at t pc) := by
  intro u w waits
  have other : u ≠ t := by
    rintro rfl
    rw [State.at_pc, if_pos rfl] at waits
    exact stays w waits
  rw [State.at_pc, if_neg other] at waits
  obtain ⟨blocks, same | ⟨t', c, signal, r, signals, told⟩⟩ := awaited u w waits
  · exact ⟨blocks, .inl same⟩
  · refine ⟨blocks, .inr ⟨t', c, signal, r, ?_, told⟩⟩
    have different : t' ≠ t := by
      rintro rfl
      exact silent c signal r signals
    rw [State.at_pc, if_neg different, signals]

theorem Awaited.step (loud : Loud body may) (inv : Inv body may start s) (awaited : Awaited body s)
    (step : Step body may s s') : Awaited body s' := by
  have kept : ∀ (t : T) (pc : Pc C R) {u : T} {w : C}, (∀ w, pc ≠ .waiting w) → (s.at t pc).pc u = .waiting w →
      s.pc u = .waiting w := by
    intro t pc u w stays waits
    rw [State.at_pc] at waits
    split at waits
    · exact absurd waits (stays w)
    · exact waits
  cases step with
  | invoke t c allowed idle => exact awaited.move nofun (by rw [idle]; nofun)
  | acquire t c ready free =>
    have moved : Awaited body (s.at t (.held c)) := by
      refine awaited.move nofun ?_
      rcases ready with is | is
      · rw [is]
        nofun
      · rw [is]
        nofun
    exact moved
  | @work t c d signal r held does =>
    intro u w waits
    replace waits := kept t (.signalling c signal r) nofun waits
    have waiting := awaited.silent inv (by rw [held]; rfl) (by rw [held]; nofun) waits
    refine ⟨(awaited u w waits).1, ?_⟩
    by_cases still : body w d = .wait
    · exact .inl still
    · refine .inr ⟨t, c, signal, r, ?_, loud.loud c s.data d signal r w does waiting still⟩
      exact (State.at_pc _ _ _ _).trans (if_pos rfl)
  | wait t c held blocks =>
    intro u w waits
    replace waits : (s.at t (.waiting c)).pc u = .waiting w := waits
    rw [State.at_pc] at waits
    split at waits
    · cases waits
      exact ⟨⟨_, blocks⟩, .inl blocks⟩
    · exact ⟨(awaited u w waits).1, .inl (awaited.silent inv (by rw [held]; rfl) (by rw [held]; nofun) waits)⟩
  | quiet t c r signals =>
    intro u w waits
    replace waits := kept t (.leaving c r) nofun waits
    refine ⟨(awaited u w waits).1, .inl (awaited.silent inv (t := t) (by rw [signals]; rfl) ?_ waits)⟩
    rw [signals]
    rintro _ _ _ ⟨⟩
    rfl
  | nobody t c r signals alone =>
    intro u w waits
    exact absurd (kept t (.leaving c r) nofun waits) (alone u w)
  | one t u' c w' r signals waits' =>
    intro u w waits
    rw [State.at_pc] at waits
    split at waits
    · cases waits
    · have waiting := kept u' (.woken w') nofun waits
      have same : u = u' := by
        refine loud.single u u' w w' ?_ ?_ (awaited u w waiting).1 (awaited u' w' waits').1
        · exact inv.allowed u w (by rw [waiting]; rfl)
        · exact inv.allowed u' w' (by rw [waits']; rfl)
      rw [same, State.at_pc, if_pos rfl] at waits
      cases waits
  | all t c r signals =>
    intro u w waits
    rw [State.at_pc] at waits
    split at waits
    · cases waits
    · replace waits : (s.pc u).wake = .waiting w := waits
      generalize s.pc u = pc at waits
      cases pc <;> cases waits
  | leave t c r leaves =>
    intro u w waits
    replace waits := kept t .idle nofun waits
    exact ⟨(awaited u w waits).1, .inl (awaited.silent inv (t := t) (by rw [leaves]; rfl) (by rw [leaves]; nofun) waits)⟩
  | spurious t c waits' => exact awaited.move nofun (by rw [waits']; nofun)

/-- no wakeup is lost -/
theorem Reachable.awaited (loud : Loud body may) (reachable : Reachable body may start s) : Awaited body s := by
  induction reachable with
  | refl => exact fun _ _ waits => nomatch waits
  | tail before step ih => exact ih.step loud (Reachable.inv before) step

end

end Monitor
