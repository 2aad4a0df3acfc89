import LoopSched.LoopTree.Parser
import LoopSched.LoopTree.Printer
import LoopSched.Schedule.Basic

/-!
# Code of a schedule

The script that makes the polyhedral engine generate code, and what is done with its output: loops
over parallel coordinates are marked, iterators get the prefix of the schedule, and the tree is
written as code.
-/

namespace LoopSched

/-- The polyhedral engine: from a script to the code it prints. -/
abbrev Engine := String → Except EngineError String

/-- The engine where none is installed. -/
def Engine.absent : Engine := fun _ => .error .notFound

namespace Schedule

/-- The script that generates the code of the schedule. -/
def script (s : Schedule) : String :=
  Polyhedral.scriptText (s.domains.map (·.render)) (s.maps.map (·.render))
    s.layout.inputIterators (((s.layout.get? Layout.nest).map (·.constant)).getD "")

/-- The loop tree in the engine's output, with parallel loops marked. -/
def treeOf (s : Schedule) (output : String) : Except Failure LoopTree := do
  let tree ← (LoopTree.parse output).mapError .engine
  match s.parallelDimensions? with
  | none => throw .aborted
  | some dimensions => return tree.markParallel dimensions

/-- The loop tree that the engine makes of the schedule; without nests there is nothing to ask. -/
def tree (s : Schedule) (engine : Engine) : Except Failure LoopTree :=
  if s.domains.isEmpty then .ok (.block [])
  else do s.treeOf (← (engine s.script).mapError .engine)

/-- Write a tree as code with the schedule's names. -/
def print (s : Schedule) (options : PrintOptions) (t : LoopTree) : String :=
  (t.renameIterators s.iteratorPrefix).print options

/-- Code from the engine's output. -/
def codeOf (s : Schedule) (output : String) (options : PrintOptions) : Except Failure String := do
  return s.print options (← s.treeOf output)

/-- Code of the schedule. -/
def code (s : Schedule) (engine : Engine) (options : PrintOptions) : Except Failure String := do
  return s.print options (← s.tree engine)

end Schedule

end LoopSched
