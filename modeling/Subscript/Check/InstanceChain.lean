import Subscript.Terms.Free
import Mathlib.Data.Option.NAry

/-! The active chain of generic instances (`check/instance_chain.rs`), the edges of inferred arguments
(`check/inference.rs`), the instantiation of templates with its memo (`check/generics.rs`), and the two phases of it: the
check of each template at opaque parameters, in source order (`check/opaque.rs`), and then the code outside templates.
Types are free terms: what a template writes is a term over its numbered parameters, a type of an instance has no
variables, and two types are equal only if they are built the same way. -/

namespace Subscript.Check

open Terms

/-- the constructors of resolved types -/
inductive TypeCon where
  -- an instance of a generic class or, without arguments, a type that has no components
  | named (name : String)
  | array
  | fixedArray (len : Nat)
  | map
  | set
  | worker
  | inbox
  | outbox
  -- the parameters, then the result
  | func
  | nullable
  | generator
  | asyncHandle
  | iterResult
  -- a parameter of a template in its opaque check, with the number of the check
  | parameter (check position : Nat)
  deriving DecidableEq

abbrev TypeTerm := FreeTerm TypeCon

mutual

def involvesTypeParameter : TypeTerm → Bool
  | .var _ => false
  | .app (.parameter _ _) _ => true
  | .app _ ts => anyInvolves ts

def anyInvolves : List TypeTerm → Bool
  | [] => false
  | t :: ts => involvesTypeParameter t || anyInvolves ts

end

/-- the forms of a type that can be an argument of an instance -/
inductive TypeExpr where
  | keyword (name : String)
  | ref (name : String) (args : List TypeExpr)
  | fixedArray (elem : TypeExpr) (len : Nat)
  | array (elem : TypeExpr)
  | paren (inner : TypeExpr)
  | union (left right : TypeExpr)
  | fn (params : List TypeExpr) (ret : TypeExpr)

/-- an edge from a requesting parameter to one requested argument -/
structure ParameterEdge where
  source : Nat
  expanding : Bool

mutual

/-- the parameters of the requesting instance that a type names -/
def recordParameterEdges (parameters : List String) (expanding : Bool) : TypeExpr → List ParameterEdge
  | .keyword _ => []
  | .ref name args =>
    match parameters.idxOf? name with
    | some source => ⟨source, expanding⟩ :: recordAllEdges parameters args
    | none => recordAllEdges parameters args
  | .fixedArray elem _ => recordParameterEdges parameters true elem
  | .array elem => recordParameterEdges parameters true elem
  | .paren inner => recordParameterEdges parameters expanding inner
  | .union left right => recordParameterEdges parameters true left ++ recordParameterEdges parameters true right
  | .fn params ret => recordParameterEdges parameters true ret ++ recordAllEdges parameters params

def recordAllEdges (parameters : List String) : List TypeExpr → List ParameterEdge
  | [] => []
  | e :: es => recordParameterEdges parameters true e ++ recordAllEdges parameters es

end

def TypeExpr.isNull : TypeExpr → Bool
  | .keyword name => name == "null"
  | _ => false

/-- the ambient generic types -/
def ambientCon (name : String) : Option TypeCon :=
  if name = "Array" then some .array
  else if name = "Map" then some .map
  else if name = "Set" then some .set
  else if name = "Promise" then some .asyncHandle
  else if name = "Generator" then some .generator
  else if name = "Worker" then some .worker
  else if name = "Inbox" then some .inbox
  else if name = "Outbox" then some .outbox
  else none

def TypeCon.arity : TypeCon → Nat
  | .map | .worker => 2
  | _ => 1

/-- a type name that is no parameter, with its resolved arguments -/
def resolveNamed (name : String) (types : List TypeTerm) : Option TypeTerm :=
  match ambientCon name with
  -- the types of a generator's result and of what it is sent are resolved and dropped
  | some .generator => types.head?.map fun y => .app .generator [y]
  | some con => if types.length = con.arity then some (.app con types) else none
  | none => some (.app (.named name) types)

mutual

/-- the type that an expression stands for where the parameters are bound to `args` -/
def resolveType (parameters : List String) (args : List TypeTerm) : TypeExpr → Option TypeTerm
  | .keyword name => some (.app (.named name) [])
  | .ref name targs =>
    match parameters.idxOf? name with
    | some i => args[i]?
    | none => (resolveAll parameters args targs).bind (resolveNamed name)
  | .fixedArray elem len => (resolveType parameters args elem).map fun t => .app (.fixedArray len) [t]
  | .array elem => (resolveType parameters args elem).map fun t => .app .array [t]
  | .paren inner => resolveType parameters args inner
  -- unions are limited to a type and `null`
  | .union left right =>
    match right.isNull, left.isNull, resolveType parameters args left, resolveType parameters args right with
    | true, _, some t, _ => some (.app .nullable [t])
    | false, true, _, some t => some (.app .nullable [t])
    | _, _, _, _ => none
  | .fn params ret =>
    Option.map₂ (fun types t => .app .func (types ++ [t])) (resolveAll parameters args params) (resolveType parameters args ret)

def resolveAll (parameters : List String) (args : List TypeTerm) : List TypeExpr → Option (List TypeTerm)
  | [] => some []
  | e :: es => Option.map₂ List.cons (resolveType parameters args e) (resolveAll parameters args es)

end

mutual

/-- a type that constructors build from parameters: no parameter has arguments, and a generator has its yield type only -/
def TypeExpr.built (parameters : List String) : TypeExpr → Bool
  | .keyword _ => true
  | .ref name args =>
    (parameters.idxOf? name = none || args.isEmpty) && (name != "Generator" || args.length == 1) && allBuilt parameters args
  | .fixedArray elem _ => elem.built parameters
  | .array elem => elem.built parameters
  | .paren inner => inner.built parameters
  | .union left right => left.built parameters && right.built parameters
  | .fn params ret => allBuilt parameters params && ret.built parameters

def allBuilt (parameters : List String) : List TypeExpr → Bool
  | [] => true
  | e :: es => e.built parameters && allBuilt parameters es

end

/-- the constructors whose components the edges of an inferred argument come from -/
def TypeCon.looksThrough : TypeCon → Bool
  | .named _ | .array | .fixedArray _ | .set | .nullable | .asyncHandle | .map | .func => true
  | .worker | .inbox | .outbox | .generator | .iterResult | .parameter _ _ => false

mutual

/-- the arguments of the requesting instance that an inferred type mentions -/
def inferredParameterEdges (args : List TypeTerm) (expanding : Bool) : TypeTerm → List ParameterEdge
  | .var _ => []
  | .app c ts =>
    match args.idxOf? (.app c ts), involvesTypeParameter (.app c ts) with
    | some source, true => [⟨source, expanding⟩]
    | _, _ => if c.looksThrough then inferredAllEdges args ts else []

def inferredAllEdges (args : List TypeTerm) : List TypeTerm → List ParameterEdge
  | [] => []
  | t :: ts => inferredParameterEdges args true t ++ inferredAllEdges args ts

end

/-- the arguments of a request as the requesting template writes them -/
inductive RequestArguments where
  | explicit (types : List TypeExpr)
  -- the types that inference finds, over the parameters of the template
  | inferred (types : List TypeTerm)

structure Request where
  key : String
  arguments : RequestArguments

def Request.isExplicit (r : Request) : Bool :=
  match r.arguments with
  | .explicit _ => true
  | .inferred _ => false

def Request.built (parameters : List String) (r : Request) : Bool :=
  match r.arguments with
  | .explicit types => allBuilt parameters types
  | .inferred types => !anyInvolves types

/-- a generic function, method or class with the requests of its signature, which are explicit, and then of its body -/
structure Template where
  key : String
  parameters : List String
  signature : Nat
  requests : List Request
  built : ∀ r ∈ requests, r.built parameters = true
  explicit : ∀ r ∈ requests.take signature, r.isExplicit = true

/-- resolved arguments with the edges of each position -/
structure InstanceArguments where
  types : List TypeTerm
  edges : List (List ParameterEdge)

/-- an active request with its incoming edges -/
structure InstanceRequest where
  key : String
  args : List TypeTerm
  parameters : List String
  edges : List (List ParameterEdge)

/-- the key of a template, and arguments for it -/
abbrev Instance := String × List TypeTerm

abbrev InstanceRequest.made (x : InstanceRequest) : Instance := (x.key, x.args)

/-- the parameters bound to the arguments of an instance -/
def bound (args : List TypeTerm) (i : Nat) : TypeTerm := args.getD i (.var i)

/-- the edges of the inferred requests that were met at opaque parameters, by the template and the place of the request -/
abbrev EdgeStore := List ((String × Nat) × List (List ParameterEdge))

def resolveInstanceArguments (last : InstanceRequest) (types : List TypeExpr) : Option InstanceArguments :=
  (resolveAll last.parameters last.args types).map fun resolved =>
    ⟨resolved, types.map (recordParameterEdges last.parameters false)⟩

/-- Only types with opaque parameters show their edges, which are stored; other types look them up. -/
def inferArguments (store : EdgeStore) (site : String × Nat) (last : InstanceRequest) (types : List TypeTerm) :
    InstanceArguments × EdgeStore :=
  let resolved := types.map (FreeTerm.subst (bound last.args))
  if anyInvolves resolved then
    let edges := resolved.map (inferredParameterEdges last.args false)
    (⟨resolved, edges⟩, (site, edges) :: store)
  else (⟨resolved, (store.lookup site).getD (resolved.map fun _ => [])⟩, store)

def Request.resolve (store : EdgeStore) (site : String × Nat) (last : InstanceRequest) (r : Request) :
    Option InstanceArguments × EdgeStore :=
  match r.arguments with
  | .explicit types => (resolveInstanceArguments last types, store)
  | .inferred types => ((inferArguments store site last types).1, (inferArguments store site last types).2)

/-- the paths from one position, followed over the edges of one more request: whether one expands -/
def advance (paths : List (Option Bool)) (edges : List (List ParameterEdge)) : List (Option Bool) :=
  edges.map fun es => (es.filterMap fun e => paths[e.source]?.join.map (· || e.expanding)).max?

def pathsFrom (previous : InstanceRequest) (position : Nat) (edges : List (List (List ParameterEdge))) :
    List (Option Bool) :=
  edges.foldl advance ((List.replicate previous.args.length none).set position (some false))

/-- a position of an earlier instance whose argument comes back to it in a larger type -/
def growingPosition (previous : InstanceRequest) (later : List InstanceRequest) (arguments : InstanceArguments) :
    Option Nat :=
  (List.range previous.args.length).find? fun position =>
    (pathsFrom previous position (later.map (·.edges) ++ [arguments.edges]))[position]? == some (some true)

/-- the first instance of the chain from which the request grows -/
def growing (key : String) (arguments : InstanceArguments) : List InstanceRequest → Option (List TypeTerm × Nat)
  | [] => none
  | previous :: later =>
    match if previous.key = key then growingPosition previous later arguments else none with
    | some position => some (previous.args, position)
    | none => growing key arguments later

/-- a request that waits, with the chain of the instances that led to it -/
structure Pending where
  chain : List InstanceRequest
  key : String
  arguments : InstanceArguments

abbrev Pending.target (p : Pending) : Instance := (p.key, p.arguments.types)

/-- a request of the code outside templates, or of a check -/
def Pending.start (i : Instance) : Pending := ⟨[], i.1, i.2, i.2.map fun _ => []⟩

structure Growth where
  key : String
  first : List TypeTerm
  last : List TypeTerm
  position : Nat

/-- what is to do when no request waits -/
inductive Task where
  -- the check of a template at opaque parameters, with its number
  | check (number : Nat) (t : Template)
  -- the request at this place of the template that is checked
  | request (last : InstanceRequest) (place : Nat) (r : Request)
  -- the code outside templates
  | bodies (roots : List Instance)

/-- the instances that exist, the growing requests of this phase and of the opaque checks, the stored edges, the requests
that wait and the tasks -/
structure Session where
  memo : List Instance
  rejected : List Growth
  opaqueRejected : List Growth
  store : EdgeStore
  pending : List Pending
  agenda : List Task

def templateOf (templates : List Template) (key : String) : Option Template := templates.find? (·.key == key)

/-- The body of an instance is checked at concrete arguments, and of the template that an opaque check is about. -/
def instanceBodyIsChecked (args : List TypeTerm) (root : Bool) : Bool := root || !anyInvolves args

/-- the requests that an instance makes -/
def Template.opened (t : Template) (body : Bool) : List Request := if body then t.requests else t.requests.take t.signature

def Template.enter (t : Template) (p : Pending) : InstanceRequest :=
  ⟨p.key, p.arguments.types, t.parameters, p.arguments.edges⟩

/-- the requests of a new instance, whose inferred types have no opaque parameter, so that none is stored -/
def Template.open (store : EdgeStore) (t : Template) (p : Pending) : List Pending :=
  (t.opened (instanceBodyIsChecked p.arguments.types false)).zipIdx.filterMap fun (r, place) =>
    (r.resolve store (t.key, place) (t.enter p)).1.map fun arguments => ⟨p.chain ++ [t.enter p], r.key, arguments⟩

/-- `instantiate_fn`, `instantiate_method` and `instantiate_class`, with `enter_instance` -/
def Session.instantiate (templates : List Template) (s : Session) (p : Pending) : Session :=
  match templateOf templates p.key with
  | none => s
  | some t =>
    if t.parameters.length ≠ p.arguments.types.length then s
    else
      match growing p.key p.arguments p.chain with
      | some (first, position) => { s with rejected := ⟨p.key, first, p.arguments.types, position⟩ :: s.rejected }
      | none =>
        if p.target ∈ s.memo then s
        else { s with memo := p.target :: s.memo, pending := t.open s.store p ++ s.pending }

/-- the parameters of a template in its check, which no other check has -/
def opaqueArguments (number n : Nat) : List TypeTerm := (List.range n).map fun position => .app (.parameter number position) []

def Template.opaqueStart (number : Nat) (t : Template) : Instance :=
  (t.key, opaqueArguments number t.parameters.length)

/-- The body of a template is checked request by request, so that each one finds the edges that those before it stored.
After the checks the instances are dropped and the edges are kept. -/
def Session.perform (s : Session) : Task → Session
  | .check number t =>
    { s with
      memo := t.opaqueStart number :: s.memo
      agenda := (t.requests.zipIdx.map fun (r, place) => .request (t.enter (.start (t.opaqueStart number))) place r) ++
        s.agenda }
  | .request last place r =>
    { s with
      store := (r.resolve s.store (last.key, place) last).2
      pending := ((r.resolve s.store (last.key, place) last).1.map fun arguments => ⟨[last], r.key, arguments⟩).toList }
  | .bodies roots => { s with memo := [], rejected := [], opaqueRejected := s.rejected, pending := roots.map .start }

/-- Bodies are checked at once or deferred, so any request that waits can be the next one. -/
def Session.step (templates : List Template) (s : Session) (pick : Nat) : Session :=
  match s.pending[pick % s.pending.length]?, s.agenda with
  | some p, _ => Session.instantiate templates { s with pending := s.pending.eraseIdx (pick % s.pending.length) } p
  | none, task :: agenda => { s with agenda := agenda }.perform task
  | none, [] => s

def checks (number : Nat) (templates : List Template) : List Task :=
  (templates.zipIdx number).map fun (t, number) => .check number t

/-- the templates, in source order, before the code outside them -/
def Session.start (templates : List Template) (roots : List Instance) : Session :=
  ⟨[], [], [], [], [], checks 0 templates ++ [.bodies roots]⟩

def Session.runFrom (templates : List Template) (s : Session) (picks : Nat → Nat) : Nat → Session
  | 0 => s
  | n + 1 => (Session.runFrom templates s picks n).step templates (picks n)

def Session.run (templates : List Template) (roots : List Instance) (picks : Nat → Nat) (n : Nat) : Session :=
  Session.runFrom templates (Session.start templates roots) picks n

def Session.ended (s : Session) : Prop := s.pending = [] ∧ s.agenda = []

/-- the arguments that a request has in an instance -/
def Request.types (parameters : List String) (args : List TypeTerm) (r : Request) : Option (List TypeTerm) :=
  match r.arguments with
  | .explicit types => resolveAll parameters args types
  | .inferred types => some (types.map (FreeTerm.subst (bound args)))

/-- there is a template with this number of parameters -/
def Fits (templates : List Template) (i : Instance) : Prop :=
  ∃ t, templateOf templates i.1 = some t ∧ t.parameters.length = i.2.length

/-- the instances that exist if every request is accepted -/
inductive Requested (templates : List Template) (roots : List Instance) : Instance → Prop where
  | root {i : Instance} : i ∈ roots → Fits templates i → Requested templates roots i
  | nested {i : Instance} {types : List TypeTerm} {t : Template} {r : Request} : Requested templates roots i →
    templateOf templates i.1 = some t → r ∈ t.requests → r.types t.parameters i.2 = some types →
    Fits templates (r.key, types) → Requested templates roots (r.key, types)

/-- the opaque checks of the templates, as roots -/
def opaqueStarts (templates : List Template) : List Instance :=
  templates.zipIdx.map fun (t, number) => t.opaqueStart number

/-- Instantiation ends, in whatever order requests are taken, and a request was rejected as growing exactly if accepting
every request makes infinitely many instances; one of an opaque check only if accepting all its requests does. -/
def Settles (templates : List Template) (roots : List Instance) : Prop :=
  (∀ picks, ∃ n, (Session.run templates roots picks n).ended) ∧
    ∀ picks n, (Session.run templates roots picks n).ended →
      ((Session.run templates roots picks n).rejected ≠ [] ↔
        {i | Requested templates roots i}.Infinite) ∧
      ((Session.run templates roots picks n).opaqueRejected ≠ [] →
        {i | Requested templates (opaqueStarts templates) i}.Infinite)

end Subscript.Check
