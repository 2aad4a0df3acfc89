import LoopSched.Access.Dataspace
import LoopSched.Domain

/-!
# Loop chains

A chain is a sequence of loop nests that run one after another.  A nest has an iteration domain and
the dataspaces its statement touches.
-/

namespace LoopSched

structure Nest where
  domain : Domain
  dataspaces : List Dataspace := []
deriving DecidableEq, Repr

namespace Nest

def dimensions (n : Nest) : Nat := n.domain.dimensions

/-- The first dataspace with the name. -/
def dataspace? (n : Nest) (name : String) : Option Dataspace :=
  n.dataspaces.find? (·.name = name)

/-- Every access of the nest moved by the extent. -/
def shift (n : Nest) (extent : Tuple) : Except DimensionError Nest := do
  let dataspaces ← n.dataspaces.mapM (·.shift extent)
  return { n with dataspaces }

/-- Move every access in place.  The nest is replaced when all of its dataspaces are moved. -/
def shiftAll (extent : Tuple) : EStateM DimensionError Nest Unit := do
  set (← MonadExcept.ofExcept ((← get).shift extent))

end Nest

structure Chain where
  nests : List Nest := []
deriving DecidableEq, Repr

namespace Chain

def append (c : Chain) (n : Nest) : Chain := ⟨c.nests ++ [n]⟩

def size (c : Chain) : Nat := c.nests.length

def isEmpty (c : Chain) : Bool := c.nests.isEmpty

def nest? (c : Chain) (i : Nat) : Option Nest := c.nests[i]?

/-- The nest with this number, or the error that there is none. -/
def nest (c : Chain) (i : Nat) : Except ConfigError Nest :=
  match c.nests[i]? with
  | some n => .ok n
  | none => .error ⟨.unknownLoop i c.size, none⟩

/-- Put another nest in place of one that is there. -/
def setNest (c : Chain) (i : Nat) (n : Nest) : Chain := ⟨c.nests.set i n⟩

/-- Width of the widest nest, zero without nests. -/
def maxDimension (c : Chain) : Nat := (c.nests.map Nest.dimensions).foldl max 0

end Chain

end LoopSched
