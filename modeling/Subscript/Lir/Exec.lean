import Subscript.Lir.Walk

/-! Executions with values. What an instruction computes, whether it raises and which edge a terminator
takes is left open and given as a list of choices, so that two functions can be run side by side. -/

namespace Subscript.Lir

variable {V : Type*}

inductive Choice (V : Type*) where
  /-- the instruction completes; its result, if it has one, is `x` -/
  | done (x : V)
  | raise
  /-- the terminator takes its target number `k` -/
  | edge (k : Nat)
  /-- the suspension ends; its resume value, if it has one, is `x` -/
  | resume (x : V)

structure Config (V : Type*) where
  point : Point
  env : ValueId → V

def Operand.eval (constant : Constant → V) (env : ValueId → V) : Operand → V
  | .value v => env v
  | .constant c => constant c

/-- the parameters of a block take the passed values at once -/
def assign (env : ValueId → V) (parameters : List ValueId) (values : List V) : ValueId → V :=
  (parameters.zip values).foldl (fun env p => Function.update env p.1 p.2) env

namespace Function

variable (f : Function)

def parametersOf (b : BlockId) : List ValueId := (f.blocks[b]?.map BasicBlock.parameters).getD []

def enter (env : ValueId → V) (b : BlockId) (values : List V) : Config V :=
  ⟨⟨b, 0⟩, assign env (f.parametersOf b) values⟩

end Function

/-- what a suspension passes to its successor: the resume value, then the arguments -/
def Suspend.passed (s : Suspend) (constant : Constant → V) (env : ValueId → V) (x : V) : List V :=
  s.resumeValue.toList.map (fun _ => x) ++ s.arguments.map (Operand.eval constant env)

def storeResult (env : ValueId → V) (result : Option ValueId) (x : V) : ValueId → V :=
  match result with
  | some r => Function.update env r x
  | none => env

/-- one step under a choice, if the choice fits the point -/
def execStep (f : Function) (constant : Constant → V) (c : Config V) : Choice V → Option (Config V)
  | .done x =>
    (f.instructionAt c.point).map fun i =>
      ⟨⟨c.point.block, c.point.index + 1⟩, storeResult c.env i.result x⟩
  | .raise =>
    (f.instructionAt c.point).bind fun i => i.handler.map fun h => f.enter c.env h []
  | .edge k =>
    (f.terminatorAt c.point).bind fun t =>
      match t.resume? with
      | some _ => none
      | none => t.targets[k]?.map fun target =>
        f.enter c.env target.block (target.arguments.map (Operand.eval constant c.env))
  | .resume x =>
    match f.terminatorAt c.point with
    | some (.suspend s) => some (f.enter c.env s.successor (s.passed constant c.env x))
    | _ => none

def exec (f : Function) (constant : Constant → V) (choices : List (Choice V)) (c : Config V) : Option (Config V) :=
  choices.foldlM (execStep f constant) c

/-- the start of a function whose parameters have the values of `env` -/
def Function.initial (f : Function) (env : ValueId → V) : Config V := ⟨⟨f.entry, 0⟩, env⟩

/-- the operands that are read at a point, those of each target by themselves -/
def Terminator.operandGroups : Terminator → List (List Operand)
  | branch target => [target.arguments]
  | conditionalBranch condition thenTarget elseTarget => [[condition], thenTarget.arguments, elseTarget.arguments]
  | switch value arms default => [value] :: (arms.map (·.target.arguments) ++ [default.arguments])
  | «return» value => [value.toList]
  | suspend s => [s.arguments, (suspendUses s.kind).map .value]
  | unreachable | trap _ => []

def Function.operandGroups (f : Function) (p : Point) : List (List Operand) :=
  match f.instructionAt p with
  | some i => [i.operands]
  | none => ((f.terminatorAt p).map Terminator.operandGroups).getD []

/-- Under the same choices both functions come to the same points, and each operand of `f` has the value of
the operand that stands in its place in `g`. -/
def SameReads (f g : Function) : Prop :=
  ∀ (V : Type) (constant : Constant → V) (env : ValueId → V) (choices : List (Choice V)),
    Option.Rel (fun c c' => c'.point = c.point ∧
        ∀ (i j : Nat) (group : List Operand) (o : Operand),
          (f.operandGroups c.point)[i]? = some group → group[j]? = some o →
          ∃ (group' : List Operand) (o' : Operand), (g.operandGroups c.point)[i]? = some group' ∧ group'[j]? = some o' ∧
            o'.eval constant c'.env = o.eval constant c.env)
      (exec f constant choices (f.initial env)) (exec g constant choices (g.initial env))

section Assign

variable {env : ValueId → V} {parameters : List ValueId} {values : List V} {v : ValueId}

theorem assign_cons (p : ValueId) (x : V) : assign env (p :: parameters) (x :: values) =
    assign (Function.update env p x) parameters values := rfl

theorem assign_nil_right : assign env parameters ([] : List V) = env := by simp [assign]

theorem assign_of_notMem (h : v ∉ parameters) : assign env parameters values v = env v := by
  induction parameters generalizing env values with
  | nil => rfl
  | cons p parameters ih =>
    rw [List.mem_cons, not_or] at h
    cases values with
    | nil => rfl
    | cons x values => rw [assign_cons, ih h.2, Function.update_of_ne h.1]

end Assign

section Steps

variable {f : Function} {constant : Constant → V} {c c' : Config V} {choices : List (Choice V)}

theorem exec_append (choices' : List (Choice V)) :
    exec f constant (choices ++ choices') c = (exec f constant choices c).bind (exec f constant choices') := by
  simp only [exec, List.foldlM_append]
  rfl

theorem exec_concat (choice : Choice V) : exec f constant (choices ++ [choice]) c =
    (exec f constant choices c).bind fun c' => execStep f constant c' choice := by
  rw [exec_append]
  congr 1
  funext c'
  simp [exec]

/-- the target of a step that takes an edge is a successor -/
theorem mem_successors_of_target {t : Terminator} {k : Nat} {target : BlockTarget} (h : t.targets[k]? = some target) :
    target.block ∈ t.successors := List.mem_map.mpr ⟨target, List.mem_of_getElem? h, rfl⟩

end Steps

end Subscript.Lir
