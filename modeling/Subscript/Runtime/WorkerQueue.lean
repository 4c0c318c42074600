import Subscript.Monitor.Basic

/-! The message queue of a worker, between one thread that sends and one that receives. -/

namespace Subscript.Runtime.Worker

open List Monitor

variable {α : Type}

structure QueueState (α : Type) where
  messages : List α
  closed : Bool
deriving DecidableEq, Repr

inductive Receive (α : Type) where
  | message (record : α)
  | empty
  | closed
deriving DecidableEq, Repr

/-- what a call returns -/
inductive Answer (α : Type) where
  | posted (accepted : Bool)
  | received (receive : Receive α)
  | unit
deriving DecidableEq, Repr

namespace Queue

def post (state : QueueState α) (copied : α) : Outcome (QueueState α) (Answer α) :=
  if state.closed then .done state .quiet (.posted false)
  else .done { state with messages := state.messages ++ [copied] } .one (.posted true)

def poll (state : QueueState α) : Outcome (QueueState α) (Answer α) :=
  match state.messages with
  | message :: rest => .done { state with messages := rest } .quiet (.received (.message message))
  | [] => if state.closed then .done state .quiet (.received .closed) else .done state .quiet (.received .empty)

/-- one round of the loop -/
def wait (state : QueueState α) : Outcome (QueueState α) (Answer α) :=
  match state.messages with
  | message :: rest => .done { state with messages := rest } .quiet (.received (.message message))
  | [] => if state.closed then .done state .quiet (.received .closed) else .wait

def close (state : QueueState α) : Outcome (QueueState α) (Answer α) :=
  if !state.closed then .done { state with closed := true } .all .unit else .done state .quiet .unit

end Queue

inductive Party where
  | sender
  | receiver
deriving DecidableEq, Repr

inductive Call (α : Type) where
  | post (copied : α)
  | poll
  | wait
  | close
deriving DecidableEq, Repr

def body : Call α → QueueState α → Outcome (QueueState α) (Answer α)
  | .post copied, state => Queue.post state copied
  | .poll, state => Queue.poll state
  | .wait, state => Queue.wait state
  | .close, state => Queue.close state

/-- each endpoint closes its queue when it is dropped, and the parent may close the one it sends on -/
def may : Party → Call α → Prop
  | .sender, .post _ => True
  | .receiver, .poll => True
  | .receiver, .wait => True
  | _, .close => True
  | _, _ => False

abbrev Schedule (α : Type) := State Party (Call α) (QueueState α) (Answer α)

abbrev Entry (α : Type) := Party × Call α × Answer α

/-- a schedule of the two threads that begins with an empty queue -/
abbrev Runs (s : Schedule α) : Prop := Reachable body may ⟨[], false⟩ s

/-- the messages whose post succeeded -/
def accepted (history : List (Entry α)) : List α :=
  history.filterMap fun
    | (_, .post m, .posted true) => some m
    | _ => none

/-- the messages that the receiver was given -/
def received (history : List (Entry α)) : List α :=
  history.filterMap fun
    | (_, _, .received (.message m)) => some m
    | _ => none

/-- there is something for a receiver to return with -/
def QueueState.Ready (state : QueueState α) : Prop := state.messages ≠ [] ∨ state.closed = true

theorem wait_eq_wait {state : QueueState α} : Queue.wait state = .wait ↔ ¬ state.Ready := by
  obtain ⟨messages, closed⟩ := state
  cases messages <;> cases closed <;> simp [Queue.wait, QueueState.Ready]

/-- only a wait blocks -/
theorem wait_of_body {c : Call α} {state : QueueState α} (blocks : body c state = .wait) :
    c = .wait ∧ ¬ state.Ready := by
  obtain ⟨messages, closed⟩ := state
  cases c with
  | wait => exact ⟨rfl, wait_eq_wait.1 blocks⟩
  | post m => cases closed <;> cases blocks
  | poll => cases messages <;> cases closed <;> cases blocks
  | close => cases closed <;> cases blocks

theorem receiver_of_may {t : Party} (mine : may t (.wait : Call α)) : t = .receiver := by
  cases t with
  | sender => cases mine
  | receiver => rfl

theorem loud : Loud (body (α := α)) may where
  single t u c w mine yours first second := by
    obtain ⟨_, first⟩ := first
    obtain ⟨_, second⟩ := second
    rw [(wait_of_body first).1] at mine
    rw [(wait_of_body second).1] at yours
    exact (receiver_of_may mine).trans (receiver_of_may yours).symm
  loud c d d' signal r w does blocks ends := by
    obtain ⟨rfl, idle⟩ := wait_of_body blocks
    have ready : d'.Ready := by
      by_contra not
      exact ends (wait_eq_wait.2 not)
    obtain ⟨messages, closed⟩ := d
    rintro rfl
    cases c with
    | post m => cases closed <;> cases does; exact idle ready
    | poll =>
      cases messages with
      | nil => cases closed <;> cases does <;> exact idle ready
      | cons m rest => exact idle (.inl (cons_ne_nil _ _))
    | wait =>
      cases messages with
      | nil => cases closed <;> cases does; exact idle ready
      | cons m rest => exact idle (.inl (cons_ne_nil _ _))
    | close => cases closed <;> cases does; exact idle ready

section Sequence

variable {before : List (Entry α)} {state state' : QueueState α} {signal : Signal} {p : Party} {c : Call α}
  {r : Answer α}

theorem accepted_snoc (history : List (Entry α)) (e : Entry α) :
    accepted (history ++ [e]) = accepted history ++ accepted [e] := filterMap_append

theorem received_snoc (history : List (Entry α)) (e : Entry α) :
    received (history ++ [e]) = received history ++ received [e] := filterMap_append

/-- a call moves messages from the accepted ones to the queue and on to the received ones -/
theorem body_moves (does : body c state = .done state' signal r) :
    received [(p, c, r)] ++ state'.messages = state.messages ++ accepted [(p, c, r)] := by
  obtain ⟨messages, closed⟩ := state
  cases c with
  | post m =>
    cases closed <;> cases does
    · rfl
    · exact (append_nil _).symm
  | poll =>
    cases messages with
    | nil => cases closed <;> cases does <;> rfl
    | cons m rest =>
      cases does
      exact (append_nil _).symm
  | wait =>
    cases messages with
    | nil => cases closed <;> cases does; rfl
    | cons m rest =>
      cases does
      exact (append_nil _).symm
  | close => cases closed <;> cases does <;> exact (append_nil _).symm

/-- a queue stays closed -/
theorem body_closed (does : body c state = .done state' signal r) (closed : state.closed = true) :
    state'.closed = true ∧ accepted [(p, c, r)] = [] := by
  obtain ⟨messages, _⟩ := state
  subst closed
  cases c with
  | post m => cases does; exact ⟨rfl, rfl⟩
  | poll => cases messages <;> cases does <;> exact ⟨rfl, rfl⟩
  | wait => cases messages <;> cases does <;> exact ⟨rfl, rfl⟩
  | close => cases does; exact ⟨rfl, rfl⟩

theorem body_close (does : body .close state = .done state' signal r) : state'.closed = true := by
  obtain ⟨messages, closed⟩ := state
  cases closed <;> cases does <;> rfl

/-- a receiver that is told the end has been given all -/
theorem body_received_closed (does : body c state = .done state' signal (.received .closed)) :
    state.messages = [] ∧ state'.closed = true := by
  obtain ⟨messages, closed⟩ := state
  cases c with
  | post m => cases closed <;> cases does
  | poll => cases messages <;> cases closed <;> cases does; exact ⟨rfl, rfl⟩
  | wait => cases messages <;> cases closed <;> cases does; exact ⟨rfl, rfl⟩
  | close => cases closed <;> cases does

variable {history : List (Entry α)}

/-- first in, first out -/
theorem exec_fifo (exec : Exec body ⟨[], false⟩ history state) :
    received history ++ state.messages = accepted history := by
  induction exec with
  | nil => rfl
  | @snoc log d d' signal t c r before does ih =>
    rw [received_snoc, accepted_snoc, append_assoc, body_moves does, ← append_assoc, ih]

/-- what has taken effect up to a call -/
theorem exec_split {after : List (Entry α)} (exec : Exec body ⟨[], false⟩ (before ++ (p, c, r) :: after) state) :
    ∃ d d' signal, Exec body ⟨[], false⟩ before d ∧ body c d = .done d' signal r ∧
      (d'.closed = true → state.closed = true ∧ accepted (before ++ (p, c, r) :: after) = accepted (before ++ [(p, c, r)])) := by
  obtain ⟨whole, is⟩ : ∃ whole, whole = before ++ (p, c, r) :: after := ⟨_, rfl⟩
  rw [← is] at exec ⊢
  induction exec generalizing after with
  | nil => simp at is
  | @snoc log d d' signal t c' r' earlier does ih =>
    rcases eq_nil_or_concat after with rfl | ⟨after', e, rfl⟩
    · obtain ⟨rfl, same⟩ := append_inj' is rfl
      cases same
      exact ⟨d, d', signal, earlier, does, fun closed => ⟨closed, rfl⟩⟩
    · rw [concat_eq_append, ← cons_append, ← append_assoc] at is
      obtain ⟨same, last⟩ := append_inj' is rfl
      obtain ⟨d₀, d₀', signal₀, first, does₀, stays⟩ := ih same
      refine ⟨d₀, d₀', signal₀, first, does₀, fun closed => ?_⟩
      obtain ⟨closed', equal⟩ := stays closed
      obtain ⟨closed'', none⟩ := body_closed does closed'
      refine ⟨closed'', ?_⟩
      rw [accepted_snoc, none, append_nil, equal]

end Sequence

section Wakeups

variable {s s' : Schedule α}

/-- the receiver sleeps on the condition variable -/
def Blocked (s : Schedule α) : Prop := s.pc .receiver = .waiting .wait

/-- the receiver is on its way back to the queue -/
def Awake (s : Schedule α) : Prop :=
  s.pc .receiver = .locking .wait ∨ s.pc .receiver = .woken .wait ∨ s.pc .receiver = .held .wait

/-- the call that ended the wait is about to signal -/
theorem signalling_of_blocked (runs : Runs s) (blocked : Blocked s) (ready : s.data.Ready) :
    ∃ c signal r, s.pc .sender = .signalling c signal r ∧ signal ≠ .quiet := by
  obtain ⟨_, still | ⟨t, c, signal, r, signals, told⟩⟩ := runs.awaited loud .receiver .wait blocked
  · exact absurd ready (wait_eq_wait.1 still)
  · cases t with
    | sender => exact ⟨c, signal, r, signals, told⟩
    | receiver => exact nomatch blocked.symm.trans signals

/-- and every next step wakes the receiver -/
theorem woken_of_blocked (runs : Runs s) (blocked : Blocked s) (ready : s.data.Ready) (step : Step body may s s') :
    s'.pc .receiver = .woken .wait := by
  obtain ⟨c₀, signal₀, r₀, signals₀, told⟩ := signalling_of_blocked runs blocked ready
  have pcs : ∀ t, s.pc t = .signalling c₀ signal₀ r₀ ∨ s.pc t = .waiting .wait := by
    intro t
    cases t with
    | sender => exact .inl signals₀
    | receiver => exact .inr blocked
  have clash : ∀ (t : Party) (pc : Pc (Call α) (Answer α)), s.pc t = pc → pc ≠ .signalling c₀ signal₀ r₀ →
      pc = .waiting .wait := by
    intro t pc is other
    rcases pcs t with signals | waits
    · exact absurd (is.symm.trans signals) other
    · exact is.symm.trans waits
  cases step with
  | invoke t c allowed idle => exact nomatch clash t _ idle nofun
  | acquire t c ready free =>
    rcases ready with is | is
    · exact nomatch clash t _ is nofun
    · exact nomatch clash t _ is nofun
  | work t c held does => exact nomatch clash t _ held nofun
  | wait t c held waits => exact nomatch clash t _ held nofun
  | quiet t c r signals =>
    rcases pcs t with is | is
    · cases signals.symm.trans is
      exact absurd rfl told
    · exact nomatch signals.symm.trans is
  | nobody t c r signals alone => exact absurd blocked (alone _ _)
  | one t u c w r signals waits =>
    cases t with
    | receiver => exact nomatch blocked.symm.trans signals
    | sender =>
      cases u with
      | sender => exact nomatch signals.symm.trans waits
      | receiver =>
        cases blocked.symm.trans waits
        rfl
  | all t c r signals =>
    cases t with
    | receiver => exact nomatch blocked.symm.trans signals
    | sender =>
      have wakes : (s.pc .receiver).wake = .woken .wait := by
        rw [show s.pc .receiver = .waiting .wait from blocked]
        rfl
      exact wakes
  | leave t c r leaves => exact nomatch clash t _ leaves nofun
  | spurious t c waits =>
    cases t with
    | sender => exact nomatch signals₀.symm.trans waits
    | receiver =>
      cases blocked.symm.trans waits
      rfl

/-- a call of the sender leaves something to return with -/
theorem ready_of_sender {d d' : QueueState α} {c : Call α} {signal : Signal} {r : Answer α} (mine : may .sender c)
    (does : body c d = .done d' signal r) : d'.Ready := by
  obtain ⟨messages, closed⟩ := d
  cases c with
  | post m =>
    cases closed <;> cases does
    · exact .inl (append_ne_nil_of_right_ne_nil _ (cons_ne_nil _ _))
    · exact .inr rfl
  | close => cases closed <;> cases does <;> exact .inr rfl
  | poll => cases mine
  | wait => cases mine

/-- while the receiver sleeps no call returns -/
theorem log_of_blocked (runs : Runs s) (blocked : Blocked s) (step : Step body may s s') : s'.log = s.log := by
  cases step with
  | leave t c r leaves =>
    cases t with
    | receiver => exact nomatch blocked.symm.trans leaves
    | sender =>
      obtain ⟨d, signal, _, does⟩ := runs.inv.data_of_committed (by rw [leaves]; rfl)
      have ready := ready_of_sender (runs.inv.allowed .sender c (by rw [leaves]; rfl)) does
      obtain ⟨_, _, _, signals, _⟩ := signalling_of_blocked runs blocked ready
      exact nomatch leaves.symm.trans signals
  | _ => rfl

/-- a receiver that is awake returns: nobody takes from it what it was woken for, and it does not sleep again -/
theorem awake_returns (runs : Runs s) (awake : Awake s) (ready : s.data.Ready) (step : Step body may s s') :
    Awake s' ∧ s'.data.Ready ∨ ∃ r, (s'.pc .receiver).committed = some (.wait, r) := by
  have mine : ∀ pc, s.pc .receiver = pc → pc = .locking .wait ∨ pc = .woken .wait ∨ pc = .held .wait := by
    rintro _ rfl
    exact awake
  have sender : ∀ {t pc}, s.pc t = pc → ¬ (pc = .locking .wait ∨ pc = .woken .wait ∨ pc = .held .wait) → t = .sender := by
    rintro (_ | _) pc is other
    · rfl
    · exact absurd (mine _ is) other
  cases step with
  | invoke t c allowed idle =>
    obtain rfl := sender idle (by simp)
    exact .inl ⟨awake, ready⟩
  | acquire t c ready' free =>
    cases t with
    | sender => exact .inl ⟨awake, ready⟩
    | receiver =>
      have call : c = .wait := by
        rcases ready' with is | is
        · simpa using mine _ is
        · simpa using mine _ is
      subst call
      exact .inl ⟨.inr (.inr rfl), ready⟩
  | work t c held does =>
    cases t with
    | sender =>
      exact .inl ⟨awake, ready_of_sender (runs.inv.allowed .sender c (by rw [held]; rfl)) does⟩
    | receiver =>
      have call : c = .wait := by simpa using mine _ held
      subst call
      exact .inr ⟨_, rfl⟩
  | wait t c held waits =>
    cases t with
    | sender => exact .inl ⟨awake, ready⟩
    | receiver =>
      have call : c = .wait := by simpa using mine _ held
      exact absurd ready (wait_of_body waits).2
  | quiet t c r signals =>
    obtain rfl := sender signals (by simp)
    exact .inl ⟨awake, ready⟩
  | nobody t c r signals alone =>
    obtain rfl := sender signals (by simp)
    exact .inl ⟨awake, ready⟩
  | one t u c w r signals waits =>
    obtain rfl := sender signals (by simp)
    obtain rfl := sender waits (by simp)
    exact nomatch signals.symm.trans waits
  | all t c r signals =>
    obtain rfl := sender signals (by simp)
    have same : (s.pc .receiver).wake = s.pc .receiver := by
      rcases awake with is | is | is <;> rw [is] <;> rfl
    refine .inl ⟨?_, ready⟩
    change (s.pc .receiver).wake = _ ∨ (s.pc .receiver).wake = _ ∨ (s.pc .receiver).wake = _
    rw [same]
    exact awake
  | leave t c r leaves =>
    obtain rfl := sender leaves (by simp)
    exact .inl ⟨awake, ready⟩
  | spurious t c waits =>
    obtain rfl := sender waits (by simp)
    exact .inl ⟨awake, ready⟩

end Wakeups

/-- a receiver that has something to return with is not stuck -/
theorem exists_step_of_ready (runs : Runs s) (waits : Blocked s ∨ Awake s) (ready : s.data.Ready) :
    ∃ s', Step body may s s' := by
  rcases waits with blocked | locking | woken | held
  · obtain ⟨_, _, _, signals, _⟩ := signalling_of_blocked runs blocked ready
    exact exists_step_of_inside (by rw [signals]; rfl)
  · exact runs.inv.exists_step (.inl locking)
  · exact runs.inv.exists_step (.inr woken)
  · exact exists_step_of_inside (by rw [held]; rfl)

/-- In every interleaving: the received messages and the queued ones are the accepted ones, in order. After a close no post
is accepted, and a post to a closed queue changes nothing. The end is reported when all was received, and nothing is
accepted any more. A receiver that sleeps is woken by the next step, and there is one, once there is something to return
with, before the call that brought it returns, and then returns with it. -/
theorem queue_interleavings {s : Schedule α} (runs : Runs s) :
    received s.history ++ s.data.messages = accepted s.history ∧
    (∀ before after p r, s.history = before ++ (p, .close, r) :: after → accepted s.history = accepted before ∧
      s.data.closed = true) ∧
    (s.data.closed = true → ∀ m, body (.post m) s.data = .done s.data .quiet (.posted false)) ∧
    (∀ before after p c, s.history = before ++ (p, c, .received .closed) :: after →
      received before = accepted before ∧ accepted s.history = accepted before) ∧
    (Blocked s → ∀ s', Step body may s s' →
      s'.log = s.log ∧ (s.data.Ready → s'.pc .receiver = .woken .wait)) ∧
    (Awake s → s.data.Ready → ∀ s', Step body may s s' →
      Awake s' ∧ s'.data.Ready ∨ ∃ r, (s'.pc .receiver).committed = some (.wait, r)) ∧
    (Blocked s ∨ Awake s → s.data.Ready → ∃ s', Step body may s s') := by
  have exec : Exec body ⟨[], false⟩ s.history s.data := runs.exec
  refine ⟨exec_fifo exec, ?_, ?_, ?_, fun blocked s' step => ?_, fun awake ready s' step => ?_, exists_step_of_ready runs⟩
  · intro before after p r is
    rw [is] at exec
    obtain ⟨d, d', signal, _, does, stays⟩ := exec_split exec
    obtain ⟨closed, equal⟩ := stays (body_close does)
    have none : accepted [(p, .close, r)] = [] := rfl
    rw [is, equal, accepted_snoc, none, append_nil]
    exact ⟨rfl, closed⟩
  · intro closed m
    exact if_pos closed
  · intro before after p c is
    rw [is] at exec
    obtain ⟨d, d', signal, first, does, stays⟩ := exec_split exec
    obtain ⟨empty, closed⟩ := body_received_closed does
    have all := exec_fifo first
    rw [empty, append_nil] at all
    have none : accepted [(p, c, .received .closed)] = [] := by cases c <;> rfl
    rw [is, (stays closed).2, accepted_snoc, none, append_nil]
    exact ⟨all, rfl⟩
  · exact ⟨log_of_blocked runs blocked step, fun ready => woken_of_blocked runs blocked ready step⟩
  · exact awake_returns runs awake ready step

/-- the receiver sleeps, and the sender posts and wakes it -/
theorem queue_interleavings_wakes : ∃ s : Schedule Nat, s.pc .receiver = .woken .wait ∧ s.data.messages = [7] ∧
    received s.history ++ s.data.messages = accepted s.history := by
  have waits : may .receiver (.wait : Call Nat) := trivial
  have sends : may .sender (.post 7 : Call Nat) := trivial
  have empty : Runs (.new ⟨[], false⟩ : Schedule Nat) := .refl
  have invoked := empty.tail (.invoke .receiver .wait waits rfl)
  have locked := invoked.tail (.acquire .receiver .wait (.inl rfl) rfl)
  have sleeps := locked.tail (.wait .receiver .wait rfl rfl)
  have posts := sleeps.tail (.invoke .sender (.post 7) sends rfl)
  have holds := posts.tail (.acquire .sender (.post 7) (.inl rfl) rfl)
  have pushed := holds.tail (.work .sender (.post 7) rfl rfl)
  have wakes := pushed.tail (.one .sender .receiver (.post 7) .wait (.posted true) rfl rfl)
  exact ⟨_, rfl, rfl, (queue_interleavings wakes).1⟩

end Subscript.Runtime.Worker
