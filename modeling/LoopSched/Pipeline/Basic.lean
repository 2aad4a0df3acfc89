import LoopSched.LoopTree.Printer
import LoopSched.Schedule.Apply

/-!
# Pipelines

The description of a scheduling run as a user writes it: nests, the transformations to apply, and
how to print the code.  Building it checks what the description cannot express.
-/

namespace LoopSched.Pipeline

/-- A bound, extent or tile size: a number or an expression. -/
inductive Expr where
  | int (value : Int)
  | text (value : String)
deriving DecidableEq, Repr

def Expr.render : Expr → String
  | int value => toString value
  | text value => value

structure DataspaceSpec where
  name : String
  reads : List (List Int) := []
  writes : List (List Int) := []
  /-- Width of the accesses, needed when there are none. -/
  dimensions : Option Nat := none
deriving DecidableEq, Repr

structure NestSpec where
  bounds : List (Expr × Expr)
  symbols : List String := []
  dataspaces : List DataspaceSpec := []
deriving DecidableEq, Repr

inductive Step where
  | identity
  | shift (loop : Nat) (extents : List Expr) (symbols : List String)
  | fusion (loops : List Nat)
  | tile (loop : Nat) (size : Option Expr) (sizes : Option (List Expr)) (outer inner : List Step)
  | wavefront
  | parallel (additionalDepth : Nat)
  | automaticShift (includeZero : Bool) (nodeLimit : Option Nat)
deriving Repr

structure Description where
  statementPrefix : String := ""
  iteratorPrefix : String := Schedule.defaultIteratorPrefix
  nests : List NestSpec := []
  transformations : List Step := []
  codegen : PrintOptions := {}
deriving Repr

/-! ### Building -/

/-- Width of the accesses: as given, or that of the first access. -/
def DataspaceSpec.width? (d : DataspaceSpec) : Option Nat :=
  d.dimensions.or ((d.reads ++ d.writes).head?.map List.length)

def DataspaceSpec.build (d : DataspaceSpec) : Except Failure Dataspace :=
  match d.width? with
  | none => .error (.config ⟨.accessWidthUnknown d.name, none⟩)
  | some width => Except.mapError .dimension do
    let reads ← Collection.ofWidth (d.reads.map Tuple.mk) width
    let writes ← Collection.ofWidth (d.writes.map Tuple.mk) width
    Dataspace.make d.name reads writes

def NestSpec.build (n : NestSpec) : Except Failure Nest := do
  let bounds := n.bounds.map fun (lower, upper) => (lower.render, upper.render)
  let domain ← (Domain.make bounds n.symbols).mapError .dimension
  let dataspaces ← n.dataspaces.mapM (·.build)
  return { domain, dataspaces }

/-- Nests of a chain. -/
def buildChain (nests : List NestSpec) : Except Failure Chain := do
  return ⟨← nests.mapM (·.build)⟩

/-- The sizes of a tile, given in exactly one of the two ways. -/
def tileSizes (size : Option Expr) (sizes : Option (List Expr)) : Except Failure TileSizes :=
  match size, sizes with
  | some size, none => .ok (.uniform size.render)
  | none, some sizes => .ok (.perDimension (sizes.map Expr.render))
  | _, _ => .error (.ofCause .tileSizeChoice "tile")

mutual

def Step.build : Step → Except Failure Transformation
  | .identity => .ok .identity
  | .shift loop extents symbols => .ok (.shift ⟨loop, extents.map Expr.render, symbols⟩)
  | .fusion loops => .ok (.fusion loops)
  | .tile loop size sizes outer inner => do
    let sizes ← tileSizes size sizes
    let outer ← buildSteps outer
    let inner ← buildSteps inner
    return .tile loop sizes outer inner
  | .wavefront => .ok .wavefront
  | .parallel additionalDepth => .ok (.parallel additionalDepth)
  | .automaticShift includeZero nodeLimit =>
    .ok (.automaticShift includeZero (nodeLimit.getD Linear.BranchAndBound.defaultNodeLimit))

def buildSteps : List Step → Except Failure (List Transformation)
  | [] => .ok []
  | s :: steps => do
    let t ← s.build
    return t :: (← buildSteps steps)

end

namespace Description

def chain (d : Description) : Except Failure Chain := buildChain d.nests

def steps (d : Description) : Except Failure (List Transformation) := buildSteps d.transformations

/-- The schedule with all transformations applied. -/
def schedule (d : Description) : Except Failure Schedule := do
  let steps ← d.steps
  let start := Schedule.make (← d.chain) d.statementPrefix d.iteratorPrefix
  match Schedule.applyAll steps start with
  | .ok _ s => return s
  | .error failure _ => throw failure

end Description

end LoopSched.Pipeline
