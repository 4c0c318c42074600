import Subscript.Lir.VerifyRaise
import Subscript.Lir.Dominators

/-! The dominance checks of the verifier (`verify_dominance.rs`), and the part of `verify_function`
that constrains control flow and definitions. -/

namespace Subscript.Lir

abbrev Definitions := List (Option DefinitionSite)

def definitions (f : Function) : Definitions :=
  (definitionSites f).foldl (fun table (v, site) => table.set v (some site))
    (List.replicate f.values.length none)

def Definitions.site (definitions : Definitions) (v : ValueId) : Option DefinitionSite :=
  definitions[v]?.join

def definitionDominatesDefinition (dominators : BlockSets) :
    DefinitionSite → DefinitionSite → Bool
  | .entry, _ => true
  | .blockEntry _, .entry | .instruction .., .entry => false
  | .blockEntry definition, .blockEntry target =>
    definition = target || definition ∈ dominators.of target
  | .blockEntry definition, .instruction target _ =>
    definition = target || definition ∈ dominators.of target
  | .instruction definition _, .blockEntry target =>
    definition ≠ target && definition ∈ dominators.of target
  | .instruction definition definitionIndex, .instruction target targetIndex =>
    (definition = target && definitionIndex < targetIndex) ||
    (definition ≠ target && definition ∈ dominators.of target)

def checkDominates (f : Function) (v : ValueId) (useBlock : BlockId) (useIndex : Nat)
    (definitions : Definitions) (dominators : BlockSets) : List VerifyError :=
  match definitions.site v with
  | none => []
  | some definition =>
    require f (definitionDominatesDefinition dominators definition (.instruction useBlock useIndex))
      s!"use of value {v} in block {useBlock} is not dominated by its definition"

def verifyArrayBaseDominance (f : Function) (definitions : Definitions) (dominators : BlockSets) :
    List VerifyError :=
  f.values.flatMap fun value =>
    match value.ty with
    | .address ⟨_, some base⟩ =>
      match f.values[base]? with
      | none => [finding f s!"address value {value.id} names undeclared array base value {base}"]
      | some ⟨_, .data _, _⟩ =>
        match definitions.site value.id with
        | none => []
        | some address =>
          match definitions.site base with
          | none =>
            [finding f
              s!"address value {value.id} names array base value {base} without a definition"]
          | some definition =>
            require f (definitionDominatesDefinition dominators definition address)
              s!"array base value {base} does not dominate address value {value.id}"
      | some _ => [finding f s!"address value {value.id} names non-data base value {base}"]
    | _ => []

/-- whether the definition lies in a block that the resume block dominates -/
def insideResumeRegion (dominators : BlockSets) (successor : BlockId) : DefinitionSite → Bool
  | .entry => false
  | .blockEntry block | .instruction block _ => successor ∈ dominators.of block

def verifySuspendDefinitionBoundaries (f : Function) (definitions : Definitions)
    (dominators : BlockSets) : List VerifyError :=
  f.blocks.flatMap fun suspendBlock =>
    match suspendBlock.terminator.resume? with
    | none => []
    | some successor =>
      f.blocks.flatMap fun block =>
        if successor ∈ dominators.of block.id then
          block.valueUses.flatMap fun v =>
            match definitions.site v with
            | none => []
            | some definition =>
              require f (insideResumeRegion dominators successor definition)
                s!"use of value {v} in block {block.id} crosses suspend in block {suspendBlock.id} without a successor parameter"
        else []

def verifyDominance (f : Function) : List VerifyError :=
  let dominators := dominators f
  let definitions := definitions f
  (f.blocks.flatMap fun block =>
    (block.instructions.zipIdx.flatMap fun (i, index) => i.valueUses.flatMap fun v =>
      checkDominates f v block.id index definitions dominators) ++
    block.terminator.valueUses.flatMap fun v =>
      checkDominates f v block.id block.instructions.length definitions dominators) ++
  verifyArrayBaseDominance f definitions dominators ++
  verifySuspendDefinitionBoundaries f definitions dominators

def verifyFunction (m : Module) (f : Function) : List VerifyError :=
  verifyStructureAndTypes m f ++ verifyRaiseEdges m f ++ verifyDominance f

end Subscript.Lir
