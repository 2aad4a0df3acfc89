import LoopSched.Data.Total
import LoopSched.Dependence
import LoopSched.Schedule.Transformation

/-!
# Shifts for fusion

Finds the least non-negative shifts with which all nests of a chain are fused.  The shifts of two
dependent nests differ by exactly their distance; an integer program with one variable for each nest
and dimension finds them.
-/

namespace LoopSched.AutoShift

open Dependence Linear

/-- Number of the first variable of a nest. -/
def firstVariable (c : Chain) (k : Nat) : Nat :=
  total ((c.nests.take k).map Nest.dimensions)

/-- Variables of all nests, nest by nest. -/
def shiftVars (c : Chain) : List Variable :=
  c.nests.zipIdx.flatMap fun (nest, k) =>
    (List.range nest.dimensions).map fun d =>
      { name := s!"shift_{k}_{d}", bounds := { lower := some 0 } }

/-- Number of the variable for a dimension of a nest, if there is such a dimension. -/
def number? (c : Chain) (k d : Nat) : Option Nat := do
  let nest ← c.nests[k]?
  guard (d < nest.dimensions)
  return firstVariable c k + d

/-- The shifts of the two nests differ by the distance. -/
def constraint? (c : Chain) (entry : Link × Int) : Option Constraint := do
  let (link, distance) := entry
  let later ← number? c link.later link.dimension
  let earlier ← number? c link.earlier link.dimension
  let form ← Form.ofTerms? [(later, 1), (earlier, -1)]
  return ⟨form, .eq, distance⟩

/-- Minimize the sum of all shifts. -/
def program? (c : Chain) (ds : Distances) : Option Program := do
  let vs := shiftVars c
  let objective ← Form.ofTerms? ((List.range vs.length).map ((·, 1)))
  let constraints ← ds.mapM (constraint? c)
  return { direction := .minimize, vars := vs, constraints, objective }

/-- Keep a shift unless it is zero and zero shifts are not wanted. -/
def keep (includeZero : Bool) (entry : Nat × Tuple) : Bool := includeZero || !entry.2.isZero

/-- The shift of each nest in a solution. -/
def readTuples (c : Chain) (s : Solution) : Except SolverError (List (Nat × Tuple)) :=
  c.nests.zipIdx.mapM fun (nest, k) => do
    let values ← (List.range nest.dimensions).mapM fun d =>
      match s.intValue? (firstVariable c k + d) with
      | some v => .ok v
      | none => .error (.shiftNotIntegral k s.status)
    return (k, ⟨values⟩)

/-- Ask the solver for the shifts of a chain with dependences. -/
def solveTuples (c : Chain) (ds : Distances) (solver : Solver) :
    Except Failure (List (Nat × Tuple)) :=
  match (program? c ds).bind solver.solve with
  | none => .error .aborted
  | some s =>
    if s.isOptimal then (readTuples c s).mapError .solver
    else .error (.solver (.shiftsNotFound solver.name s.status))

/-- The shift of each nest, by its number. -/
def tuples (c : Chain) (includeZero : Bool) (solver : Solver) :
    Except Failure (List (Nat × Tuple)) := do
  let ds ← (distances c).mapError .dimension
  let all ←
    if ds.isEmpty then .ok (c.nests.zipIdx.map fun (nest, k) => (k, Tuple.zeros nest.dimensions))
    else solveTuples c ds solver
  return all.filter (keep includeZero)

/-- A shift for each nest that has to move. -/
def shifts (c : Chain) (includeZero : Bool) (solver : Solver) : Except Failure (List Shift) := do
  return (← tuples c includeZero solver).map fun (k, t) => .ofTuple k t

end LoopSched.AutoShift
