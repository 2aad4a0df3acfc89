import LoopSched.Access.Collection

/-!
# Dataspaces

What one statement reads and writes of one named array, as offsets from its own iteration.
-/

namespace LoopSched

structure Dataspace where
  name : String
  reads : Collection
  writes : Collection
deriving DecidableEq, Repr

namespace Dataspace

/-- Reads and writes of one array; they have to agree in width. -/
def make (name : String) (reads writes : Collection) : Except DimensionError Dataspace :=
  if reads.width ≠ writes.width then .error (.accessWidths name reads.width writes.width)
  else .ok ⟨name, reads, writes⟩

def width (d : Dataspace) : Nat := d.reads.width

/-- Every access moved by the extent. -/
def shift (d : Dataspace) (extent : Tuple) : Except DimensionError Dataspace := do
  let reads ← d.reads.shift extent
  let writes ← d.writes.shift extent
  return { d with reads, writes }

def render (d : Dataspace) : String :=
  d.name ++ ": \n\tReads: " ++ d.reads.render ++ "\n\tWrites: " ++ d.writes.render

end Dataspace

end LoopSched
