import LoopSched.Access.Tuple.Basic
import LoopSched.Linear.Solver

/-!
# Transformations

What can be done to a schedule.  A tile carries two lists of further transformations: `outer` is for
the tile coordinates, `inner` for the coordinates inside a tile.
-/

namespace LoopSched

/-- Moves every iteration of one nest by an expression in each dimension. -/
structure Shift where
  loop : Nat
  extents : List String
  /-- Names that the extents use. -/
  symbols : List String := []
deriving DecidableEq, Repr

/-- Shift by a constant offset. -/
def Shift.ofTuple (loop : Nat) (t : Tuple) : Shift := { loop, extents := t.extents }

inductive TileSizes where
  /-- One size for every dimension. -/
  | uniform (size : String)
  /-- A size for each dimension, the outermost first. -/
  | perDimension (sizes : List String)
deriving DecidableEq, Repr

def TileSizes.get? : TileSizes → Nat → Option String
  | uniform size, _ => some size
  | perDimension sizes, d => sizes[d]?

inductive Transformation where
  | identity
  | shift (shift : Shift)
  | fusion (loops : List Nat)
  | tile (loop : Nat) (sizes : TileSizes) (outer inner : List Transformation)
  | wavefront
  | parallel (additionalDepth : Nat)
  | automaticShift (includeZero : Bool) (nodeLimit : Nat)
deriving Repr

def Transformation.name : Transformation → String
  | identity => "identity"
  | shift .. => "shift"
  | fusion .. => "fusion"
  | tile .. => "tile"
  | wavefront => "wavefront"
  | parallel .. => "parallel"
  | automaticShift .. => "automatic_shift"

end LoopSched
