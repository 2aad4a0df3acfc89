import LoopSched.AutoShift
import LoopSched.Schedule.Fragment

/-!
# Applying transformations

A transformation gets a target subspace and yields maps, changing the layout on the way.
`Schedule.applyTo` appends the maps and goes on to the next stage; a failure leaves the schedule as
it was.
-/

namespace LoopSched

open Polyhedral
open Schedule (Action)
open Schedule.Action

namespace Transformation

/-- The subspace a transformation is meant for when none is named. -/
def defaultTarget (t : Transformation) (s : Schedule) : Except Failure Nat :=
  match t with
  | fusion _ => .ok Layout.loops
  | tile .. => .ok Layout.nest
  | _ =>
    match s.layout.next? Layout.loops with
    | some id => .ok id
    | none => .error (.ofCause .nothingAfterLoops t.name)

mutual

/-- The maps of a transformation; they are not appended yet. -/
def run (t : Transformation) (id : Nat) : Action (List UnionMap) :=
  match t with
  | identity => pure []
  | shift sh => do return [← Fragment.shift sh id]
  | fusion loops => do return [← Fragment.fusion loops id]
  | wavefront => do return [← Fragment.wavefront id]
  | parallel extra => do
    let _ ← targetOf id "parallel"
    modify (·.addParallel id extra)
    return []
  | automaticShift includeZero nodeLimit => do
    let shifts ← require
      (AutoShift.shifts (← get).chain includeZero (Linear.BranchAndBound.solver nodeLimit))
    shifts.mapM fun sh => Fragment.shift sh id
  | tile loop sizes outer inner => do
    let tiling ← Fragment.tile loop sizes id
    let maps ← nested do
      let outerMaps ← runEach outer tiling.tile
      let innerMaps ← runEach inner id
      return outerMaps ++ innerMaps
    return tiling.map :: maps

/-- Run transformations on one target, each in a stage of its own. -/
def runEach (ts : List Transformation) (id : Nat) : Action (List UnionMap) :=
  match ts with
  | [] => pure []
  | t :: ts => do
    modifyLayout (·.nextStage)
    let maps ← run t id
    let rest ← runEach ts id
    return maps ++ rest

end

end Transformation

namespace Schedule

/-- Append the maps of a transformation and go on to the next stage.  The text of a map has at least
its braces, so there are no empty ones to leave out. -/
def append (maps : List UnionMap) : Action Unit :=
  modify fun s => { s with maps := s.maps ++ maps, layout := s.layout.nextStage }

/-- Apply a transformation to a subspace. -/
def applyTo (t : Transformation) (id : Nat) : Action Unit := do
  append (← undoing (t.run id))

/-- Apply a transformation to its default subspace. -/
def apply (t : Transformation) : Action Unit := do
  applyTo t (← require (t.defaultTarget (← get)))

/-- Apply transformations until one fails; those before it stay applied. -/
def applyAll (ts : List Transformation) : Action Unit := ts.forM apply

end Schedule

end LoopSched
