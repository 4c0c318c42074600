import Mathlib.Data.List.Infix
import Mathlib.Algebra.Group.Nat.Defs

/-! The status word of a Context (`exception.rs`, `context/lifecycle.rs`): the recorded trap, the pending exception,
the exceptions that wait for the hooks of their exits, and the depth of host entries. Generated code tests the word
after every call that can fault, so it has to tell the three situations apart in every run. -/

namespace Subscript.Runtime

open List

inductive TrapKind where
  | indexOutOfBounds | emptyPop | stringSlice | nullNarrowing | classMismatch | doubleDelete | useAfterDelete
  | invalidDelete | allocationFailure | divisionByZero | internal | staleCoroutine | dateRange | strRange
  | numberRange | jsonNumber | jsonCycle | regex | regexBudget | callbackUserdataFreed | workerTrapped
  | unreachableReached | wireEnumUnknownValue | callbackRegistrationEnded | uncaughtException
  | disposeRaisedDuringExit | sharedNullNarrowing | generatorDoneValue | taskGroup | hostEntryReentry
  deriving DecidableEq, Repr

structure TrapRecord where
  kind : TrapKind
  message : String
  posId : Nat
  deriving DecidableEq, Repr

structure PendingException where
  object : Nat
  message : String
  posId : Nat
  deriving DecidableEq, Repr

def stateNone : Nat := 0

def stateTrap : Nat := 1

def stateException : Nat := 2

/-- the largest `u32`, where counters stop -/
def u32Max : Nat := 2 ^ 32 - 1

def saturatingAdd32 (a b : Nat) : Nat := min (a + b) u32Max

/-- the innermost parked exception is the first of `parkedExceptions` -/
structure Status where
  trapFlag : Nat
  trap : Option TrapRecord
  pendingException : Option PendingException
  parkedExceptions : List PendingException
  scriptDepth : Nat
  deriving DecidableEq, Repr

namespace Status

def new : Status := ⟨stateNone, none, none, [], 0⟩

/-- the first trap wins, every trap raises the flag -/
def recordTrap (s : Status) (kind : TrapKind) (message : String) (posId : Nat) : Status :=
  { s with
    pendingException := none
    parkedExceptions := []
    trap := s.trap.or (some ⟨kind, message, posId⟩)
    trapFlag := stateTrap }

def clearTrap (s : Status) : Status :=
  { s with trap := none, pendingException := none, parkedExceptions := [], trapFlag := stateNone }

def trapped (s : Status) : Bool := s.trapFlag != stateNone

def raiseException (s : Status) (e : PendingException) : Status :=
  if s.trapFlag = stateTrap then s
  else if s.trapFlag = stateException then
    s.recordTrap .internal "an exception was raised while another was pending" 0
  else { s with pendingException := some e, trapFlag := stateException }

/-- the status after a catch entry and the object of the exception, null when there is none -/
def catchException (s : Status) : Status × Nat :=
  if s.trapFlag ≠ stateException then
    (s.recordTrap .internal "a catch entry ran with no pending exception" 0, 0)
  else
    ({ s with trapFlag := stateNone, pendingException := none },
      match s.pendingException with
      | some pending => pending.object
      | none => 0)

def settleUncaughtException (s : Status) : Status :=
  if s.trapFlag ≠ stateException then s
  else
    match s.pendingException with
    | some pending =>
      { s with trapFlag := stateNone, pendingException := none }.recordTrap .uncaughtException pending.message
        pending.posId
    | none => { s with trapFlag := stateNone }

def parkException (s : Status) : Status :=
  if s.trapFlag ≠ stateException then
    s.recordTrap .internal "an exception exit ran with no pending exception" 0
  else
    match s.pendingException with
    | some pending =>
      { s with
        trapFlag := stateNone
        pendingException := none
        parkedExceptions := pending :: s.parkedExceptions }
    | none => { s with trapFlag := stateNone }

def resumeException (s : Status) : Status :=
  if s.trapFlag ≠ stateNone then
    s.recordTrap .internal "an exception exit resumed while the word was not clear" 0
  else
    match s.parkedExceptions with
    | parked :: rest =>
      { s with pendingException := some parked, parkedExceptions := rest, trapFlag := stateException }
    | [] => s.recordTrap .internal "an exception exit resumed with no parked exception" 0

/-- the status after the exception completed a frame; `held` tells whether a script can still await the frame -/
def completeException (s : Status) (held : Bool) : Status :=
  if s.trapFlag ≠ stateException then s
  else if !held then s.settleUncaughtException
  else
    match s.pendingException with
    | none => s.settleUncaughtException
    | some _ => { s with pendingException := none, trapFlag := stateNone }

def enterScript (s : Status) : Status :=
  { s with scriptDepth := saturatingAdd32 s.scriptDepth 1 }

def exitScript (s : Status) : Status :=
  let s' := { s with scriptDepth := s.scriptDepth - 1 }
  if s'.scriptDepth = 0 then s'.settleUncaughtException else s'

/-- the calls that read or write the word -/
inductive Op where
  | raise (e : PendingException)
  | catch_
  | park
  | resume
  | settle
  | complete (held : Bool)
  | trap (kind : TrapKind) (message : String) (posId : Nat)
  | clearTrap
  | enterScript
  | exitScript
  deriving DecidableEq

def step (s : Status) : Op → Status
  | .raise e => s.raiseException e
  | .catch_ => s.catchException.1
  | .park => s.parkException
  | .resume => s.resumeException
  | .settle => s.settleUncaughtException
  | .complete held => s.completeException held
  | .trap kind message posId => s.recordTrap kind message posId
  | .clearTrap => s.clearTrap
  | .enterScript => s.enterScript
  | .exitScript => s.exitScript

def run (s : Status) (ops : List Op) : Status := ops.foldl step s

@[simp] theorem run_nil (s : Status) : s.run [] = s := rfl

@[simp] theorem run_cons (s : Status) (op : Op) (ops : List Op) : s.run (op :: ops) = (s.step op).run ops := rfl

@[simp] theorem run_append (s : Status) (ops ops' : List Op) : s.run (ops ++ ops') = (s.run ops).run ops' := by
  simp [run]

/-- host entries that have not returned, without the bound of the counter -/
def nesting (ops : List Op) : Nat :=
  ops.foldl (fun n op =>
    match op with
    | .enterScript => n + 1
    | .exitScript => n - 1
    | _ => n) 0

end Status

/-- what a Context can be doing: run, unwind with an exception, or stand still after a trap -/
inductive Mode where
  | clear (parked : List PendingException)
  | raised (e : PendingException) (parked : List PendingException)
  | stopped (record : TrapRecord)

namespace Mode

open Status (Op)

def parked : Mode → List PendingException
  | .clear parked => parked
  | .raised _ parked => parked
  | .stopped _ => []

def status (depth : Nat) : Mode → Status
  | .clear parked => ⟨stateNone, none, none, parked, depth⟩
  | .raised e parked => ⟨stateException, none, some e, parked, depth⟩
  | .stopped record => ⟨stateTrap, some record, none, [], depth⟩

def trap (record : TrapRecord) : Mode → Mode
  | .stopped first => .stopped first
  | _ => .stopped record

def fault (message : String) : Mode → Mode := trap ⟨.internal, message, 0⟩

def settle : Mode → Mode
  | .raised e _ => .stopped ⟨.uncaughtException, e.message, e.posId⟩
  | m => m

/-- the next mode; `depth` is the number of host entries before the call -/
def step (depth : Nat) : Mode → Op → Mode
  | .clear parked, .raise e => .raised e parked
  | .raised e parked, .raise _ =>
    fault "an exception was raised while another was pending" (.raised e parked)
  | .raised _ parked, .catch_ => .clear parked
  | m, .catch_ => fault "a catch entry ran with no pending exception" m
  | .raised e parked, .park => .clear (e :: parked)
  | m, .park => fault "an exception exit ran with no pending exception" m
  | .clear (e :: parked), .resume => .raised e parked
  | .clear [], .resume => fault "an exception exit resumed with no parked exception" (.clear [])
  | m, .resume => fault "an exception exit resumed while the word was not clear" m
  | m, .settle => m.settle
  | .raised _ parked, .complete true => .clear parked
  | m, .complete _ => m.settle
  | m, .trap kind message posId => m.trap ⟨kind, message, posId⟩
  | _, .clearTrap => .clear []
  | m, .exitScript => if depth ≤ 1 then m.settle else m
  | m, _ => m

end Mode

namespace Status

/-- the host entries that the counter shows after a call -/
def depthAfter (depth : Nat) : Op → Nat
  | .enterScript => saturatingAdd32 depth 1
  | .exitScript => depth - 1
  | _ => depth

section Refinement

variable (depth : Nat) (m : Mode)

theorem scriptDepth_status : (m.status depth).scriptDepth = depth := by
  cases m <;> rfl

theorem settle_status : (m.status depth).settleUncaughtException = m.settle.status depth := by
  cases m <;> rfl

theorem exitScript_status :
    (m.status depth).exitScript = (m.step depth .exitScript).status (depth - 1) := by
  have exits : (m.status depth).exitScript =
      if depth - 1 = 0 then (m.status (depth - 1)).settleUncaughtException else m.status (depth - 1) := by
    cases m <;> rfl
  rw [exits]
  by_cases outermost : depth ≤ 1
  · have : depth - 1 = 0 := by omega
    rw [if_pos this, settle_status]
    simp [Mode.step, outermost]
  · have : depth - 1 ≠ 0 := by omega
    rw [if_neg this]
    simp [Mode.step, outermost]

/-- every call on the word is the call on the mode -/
theorem step_status (op : Op) :
    (m.status depth).step op = (m.step depth op).status (depthAfter depth op) := by
  cases op with
  | raise e => cases m <;> rfl
  | catch_ => cases m <;> rfl
  | park => cases m <;> rfl
  | resume =>
    cases m with
    | clear parked => cases parked <;> rfl
    | raised e parked => rfl
    | stopped record => rfl
  | settle => cases m <;> rfl
  | complete held => cases m <;> cases held <;> rfl
  | trap kind message posId => cases m <;> rfl
  | clearTrap => cases m <;> rfl
  | enterScript => cases m <;> rfl
  | exitScript => exact exitScript_status depth m

theorem run_status (ops : List Op) :
    ∃ (m' : Mode) (depth' : Nat), (m.status depth).run ops = m'.status depth' := by
  induction ops generalizing m depth with
  | nil => exact ⟨m, depth, rfl⟩
  | cons op ops ih =>
    rw [run_cons, step_status]
    apply ih

end Refinement

theorem exists_mode (ops : List Op) : ∃ m depth, new.run ops = Mode.status depth m :=
  run_status 0 (.clear []) ops

end Status

namespace Mode

open Status (Op)

theorem step_stopped {op : Op} (depth : Nat) (record : TrapRecord) (kept : op ≠ .clearTrap) :
    step depth (.stopped record) op = .stopped record := by
  cases op with
  | clearTrap => exact absurd rfl kept
  | complete held => cases held <;> rfl
  | exitScript => simp [step, settle]
  | _ => rfl

/-- a call leaves the parked exceptions, adds one, takes the innermost, or drops them all -/
theorem parked_step (depth : Nat) (m : Mode) (op : Op) :
    (m.step depth op).parked = m.parked ∨ (∃ e, (m.step depth op).parked = e :: m.parked) ∨
      (m.step depth op).parked = m.parked.tail ∨ (m.step depth op).parked = [] := by
  cases op with
  | raise e => cases m <;> simp [step, parked, fault, trap]
  | catch_ => cases m <;> simp [step, parked, fault, trap]
  | park => cases m <;> simp [step, parked, fault, trap]
  | resume =>
    cases m with
    | clear waiting => cases waiting <;> simp [step, parked, fault, trap]
    | raised e waiting => simp [step, parked, fault, trap]
    | stopped record => simp [step, parked, fault, trap]
  | settle => cases m <;> simp [step, parked, settle]
  | complete held => cases m <;> cases held <;> simp [step, parked, settle]
  | trap kind message posId => cases m <;> simp [step, parked, trap]
  | clearTrap => simp [step, parked]
  | enterScript => simp [step]
  | exitScript =>
    by_cases outermost : depth ≤ 1
    · cases m <;> simp [step, parked, settle, outermost]
    · simp [step, outermost]

/-- an exception stays parked below the ones that were parked later, until the parked ones are fewer -/
theorem suffix_step {base : List PendingException} {m : Mode} {depth : Nat} {op : Op} (nonempty : base ≠ [])
    (below : base <:+ m.parked) (enough : base.length ≤ (m.step depth op).parked.length) :
    base <:+ (m.step depth op).parked := by
  rcases parked_step depth m op with same | ⟨e, more⟩ | fewer | dropped
  · rwa [same]
  · rw [more]
    exact below.trans (suffix_cons e _)
  · rw [fewer] at enough ⊢
    cases held : m.parked with
    | nil =>
      rw [held] at below
      exact absurd (suffix_nil.1 below) nonempty
    | cons e rest =>
      rw [held] at below enough
      rcases suffix_cons_iff.1 below with all | inside
      · rw [all] at enough
        exact absurd enough (Nat.not_succ_le_self _)
      · exact inside
  · rw [dropped] at enough
    exact absurd (eq_nil_of_length_eq_zero (Nat.le_zero.1 enough)) nonempty

end Mode

namespace Status

theorem parked_status (depth : Nat) (m : Mode) : (m.status depth).parkedExceptions = m.parked := by
  cases m <;> rfl

theorem suffix_run {base : List PendingException} (nonempty : base ≠ []) (ops : List Op) (m : Mode) (depth : Nat)
    (below : base <:+ m.parked)
    (enough : ∀ pre, pre <+: ops → base.length ≤ ((m.status depth).run pre).parkedExceptions.length) :
    base <:+ ((m.status depth).run ops).parkedExceptions := by
  induction ops generalizing m depth with
  | nil => rwa [run_nil, parked_status]
  | cons op ops ih =>
    rw [run_cons, step_status]
    apply ih
    · apply Mode.suffix_step nonempty below
      have first := enough [op] ⟨ops, rfl⟩
      rwa [run_cons, step_status, run_nil, parked_status] at first
    · intro pre within
      have next := enough (op :: pre) (cons_prefix_cons.2 ⟨rfl, within⟩)
      rwa [run_cons, step_status] at next

variable {ops : List Op}

theorem trap_run {record : TrapRecord} (kept : Op.clearTrap ∉ ops) (depth : Nat) :
    (((Mode.stopped record).status depth).run ops).trap = some record := by
  induction ops generalizing depth with
  | nil => rfl
  | cons op ops ih =>
    rw [mem_cons, not_or] at kept
    rw [run_cons, step_status, Mode.step_stopped depth record (Ne.symm kept.1)]
    exact ih kept.2 _

variable {depth : Nat} {m : Mode} {e : PendingException}

theorem resume_parked {rest : List PendingException}
    (clear : (m.status depth).trapFlag = stateNone) (innermost : m.parked = e :: rest) :
    (m.status depth).resumeException = (Mode.raised e rest).status depth := by
  cases m with
  | clear parked =>
    obtain rfl : parked = e :: rest := innermost
    rfl
  | raised e' parked => cases clear
  | stopped record => cases clear

/-- a parked exception is the next one to resume when the ones parked after it are gone -/
theorem resume_of_balanced (pending : (m.status depth).pendingException = some e)
    (above : ∀ pre, pre <+: ops →
      m.parked.length < ((m.status depth).parkException.run pre).parkedExceptions.length)
    (last : ((m.status depth).parkException.run ops).parkedExceptions.length = m.parked.length + 1)
    (clear : ((m.status depth).parkException.run ops).trapFlag = stateNone) :
    ∃ depth', ((m.status depth).parkException.run ops).resumeException =
      (Mode.raised e m.parked).status depth' := by
  cases m with
  | clear parked => exact absurd pending (by simp [Mode.status])
  | stopped record => exact absurd pending (by simp [Mode.status])
  | raised e' parked =>
    obtain rfl : e' = e := by simpa [Mode.status] using pending
    have parks : ((Mode.raised e' parked).status depth).parkException =
        (Mode.clear (e' :: parked)).status depth := rfl
    rw [parks] at above last clear ⊢
    have kept := suffix_run (cons_ne_nil e' parked) ops (.clear (e' :: parked)) depth (suffix_refl _) above
    obtain ⟨m', depth', reached⟩ := run_status depth (.clear (e' :: parked)) ops
    rw [reached] at last clear kept ⊢
    rw [parked_status] at kept last
    have innermost : m'.parked = e' :: parked := (kept.eq_of_length last.symm).symm
    exact ⟨depth', resume_parked clear innermost⟩

/-- the counter stops at its bound, so it never shows more host entries than there are -/
theorem scriptDepth_le (ops : List Op) : (new.run ops).scriptDepth ≤ nesting ops := by
  induction ops using List.reverseRecOn with
  | nil => exact Nat.le_refl 0
  | append_singleton ops op ih =>
    obtain ⟨m, depth, reached⟩ := exists_mode ops
    rw [run_append, reached, run_cons, run_nil, step_status, scriptDepth_status]
    rw [reached, scriptDepth_status] at ih
    rw [nesting, foldl_append, ← nesting]
    cases op with
    | enterScript => exact Nat.le_trans (Nat.min_le_left _ _) (Nat.succ_le_succ ih)
    | exitScript => exact Nat.sub_le_sub_right ih 1
    | _ => exact ih

theorem exitScript_outermost (outermost : depth ≤ 1) :
    (m.status depth).exitScript.pendingException = none ∧
      (m.status depth).exitScript.trapFlag ≠ stateException := by
  rw [exitScript_status]
  simp only [Mode.step, if_pos outermost]
  cases m <;> simp [Mode.settle, Mode.status, stateNone, stateTrap, stateException]

theorem word_status (depth : Nat) (m : Mode) :
    let s := m.status depth
    s.trapFlag ≤ stateException ∧ (s.trapFlag = stateTrap ↔ s.trap.isSome) ∧
      (s.trapFlag = stateException ↔ s.pendingException.isSome) ∧
      (s.trap.isSome → s.pendingException = none ∧ s.parkedExceptions = []) := by
  cases m <;> simp [Mode.status, stateNone, stateTrap, stateException]

/-- In every run: the word is 1 iff a trap is recorded and 2 iff an exception is pending; a recorded trap stays until
it is cleared and discards every exception; a pending exception is parked on top of the parked ones and resumes, with its
object, message and position, when all that were parked after it are gone; and the outermost exit leaves no exception
pending. -/
theorem status_of_run (ops : List Op) :
    let s := new.run ops
    (s.trapFlag ≤ stateException ∧ (s.trapFlag = stateTrap ↔ s.trap.isSome) ∧
      (s.trapFlag = stateException ↔ s.pendingException.isSome)) ∧
    (∀ record ops', s.trap = some record → Op.clearTrap ∉ ops' → (s.run ops').trap = some record) ∧
    ((s.trap.isSome → s.pendingException = none ∧ s.parkedExceptions = []) ∧
      ∀ kind message posId,
        (s.step (.trap kind message posId)).trap.isSome ∧
        (s.step (.trap kind message posId)).pendingException = none ∧
        (s.step (.trap kind message posId)).parkedExceptions = []) ∧
    (∀ e, s.pendingException = some e →
      (s.step .park).trapFlag = stateNone ∧ (s.step .park).parkedExceptions = e :: s.parkedExceptions) ∧
    (∀ e ops', s.pendingException = some e →
      (∀ pre, pre <+: ops' → s.parkedExceptions.length < ((s.step .park).run pre).parkedExceptions.length) →
      let t := (s.step .park).run ops'
      t.parkedExceptions.length = s.parkedExceptions.length + 1 → t.trapFlag = stateNone →
      (t.step .resume).trapFlag = stateException ∧ (t.step .resume).pendingException = some e ∧
        (t.step .resume).parkedExceptions = s.parkedExceptions) ∧
    (nesting (ops ++ [.exitScript]) = 0 →
      (s.step .exitScript).pendingException = none ∧ (s.step .exitScript).trapFlag ≠ stateException) := by
  have counted := scriptDepth_le ops
  obtain ⟨m, depth, reached⟩ := exists_mode ops
  rw [reached] at counted ⊢
  obtain ⟨bounded, trap_iff, pending_iff, discards⟩ := word_status depth m
  refine ⟨⟨bounded, trap_iff, pending_iff⟩, ?_, ⟨discards, ?_⟩, ?_, ?_, ?_⟩
  · intro record ops' recorded kept
    cases m with
    | clear parked => cases recorded
    | raised e parked => cases recorded
    | stopped first =>
      obtain rfl : first = record := Option.some.inj recorded
      exact trap_run kept depth
  · intro kind message posId
    cases m <;> exact ⟨rfl, rfl, rfl⟩
  · intro e pending
    cases m with
    | clear parked => cases pending
    | raised e' parked =>
      obtain rfl : e' = e := Option.some.inj pending
      exact ⟨rfl, rfl⟩
    | stopped first => cases pending
  · intro e ops' pending above t last clear
    rw [parked_status] at above last ⊢
    obtain ⟨depth', resumed⟩ := resume_of_balanced pending above last clear
    have : t.step .resume = (Mode.raised e m.parked).status depth' := resumed
    rw [this]
    exact ⟨rfl, rfl, rfl⟩
  · intro returned
    rw [scriptDepth_status] at counted
    have : nesting ops - 1 = 0 := by
      simpa only [nesting, foldl_append, foldl_cons, foldl_nil] using returned
    exact exitScript_outermost (by omega)

/-- two parked exceptions resume in the reverse order -/
theorem status_of_run_two_parked :
    let first : PendingException := ⟨8, "Error: a", 3⟩
    let second : PendingException := ⟨16, "Error: b", 4⟩
    let s := new.run [.enterScript, .raise first]
    let t := (s.step .park).run [.raise second, .park, .resume, .catch_]
    (t.step .resume).trapFlag = stateException ∧ (t.step .resume).pendingException = some first ∧
      (t.step .resume).parkedExceptions = s.parkedExceptions := by
  intro first second s t
  apply (status_of_run [.enterScript, .raise first]).2.2.2.2.1 first [.raise second, .park, .resume, .catch_] rfl
  · intro pre within
    have every : ∀ pre ∈ List.inits [Op.raise second, .park, .resume, .catch_],
        s.parkedExceptions.length < ((s.step .park).run pre).parkedExceptions.length := by decide
    exact every pre ((mem_inits _ _).2 within)
  · decide
  · decide

end Status

end Subscript.Runtime
