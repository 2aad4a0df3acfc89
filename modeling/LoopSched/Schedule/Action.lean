import LoopSched.Schedule.Basic

/-!
# Actions

A transformation works on a schedule step by step and can fail on the way.  An action keeps what was
done to the schedule before the failure; `undoing` puts the coordinate state back that was there at
the start.
-/

namespace LoopSched.Schedule

/-- A computation on a schedule.  If it fails, what it did before stays done. -/
abbrev Action := EStateM Failure Schedule

/-- The part of a schedule that transformations work on. -/
structure Checkpoint where
  layout : Layout
  depth : Nat
  lengthDelta : Int
  parallel : List (Nat × Nat)
deriving DecidableEq, Repr

def checkpoint (s : Schedule) : Checkpoint where
  layout := s.layout
  depth := s.depth
  lengthDelta := s.lengthDelta
  parallel := s.parallel

/-- The schedule with the saved part in place of its own. -/
def restore (s : Schedule) (c : Checkpoint) : Schedule :=
  { s with
    layout := c.layout
    depth := c.depth
    lengthDelta := c.lengthDelta
    parallel := c.parallel }

namespace Action

/-- Go on with a result, or fail with its failure; the schedule is left alone. -/
def require {α : Type} : Except Failure α → Action α
  | .ok a => pure a
  | .error e => throw e

/-- Change the layout. -/
def modifyLayout (f : Layout → Layout) : Action Unit :=
  modify fun s => { s with layout := f s.layout }

/-- The nest with this number, for the named transformation. -/
def nestOf (loop : Nat) (transform : String) : Action Nest := do
  require (((← get).chain.nest loop).mapError fun e => .config (e.within transform))

/-- The target subspace, for the named transformation. -/
def targetOf (id : Nat) (transform : String) : Action Subspace := do
  require (((← get).layout.find id).mapError fun e => .config (e.within transform))

/-- A subspace that has a place in the layout. -/
def subspace (id : Nat) : Action Subspace := do
  require (((← get).layout.find id).mapError .config)

/-- Set or clear the alias of a subspace. -/
def setAlias (id : Nat) (on : Bool) : Action Unit := do
  let _ ← subspace id
  modifyLayout (·.setAlias id on)

/-- Take a stem that was not handed out before. -/
def freshStem (base : String) : Action String := do
  let layout := (← get).layout
  modifyLayout fun _ => (layout.freshStem base).2
  return (layout.freshStem base).1

/-- Put a new subspace directly to the left of another. -/
def insertLeft (fresh : Subspace) (cursor : Nat) : Action Nat := do
  let placed ← require (((← get).layout.insertLeft fresh cursor).mapError .config)
  modifyLayout fun _ => placed.2
  return placed.1

/-- Run an action one level deeper; the level is left again whether it fails or not. -/
def nested {α : Type} (x : Action α) : Action α := fun s =>
  match x s.deeper with
  | .ok a s => .ok a s.shallower
  | .error e s => .error e s.shallower

/-- Run an action; when it fails, the coordinate state is the one from before. -/
def undoing {α : Type} (x : Action α) : Action α := fun s =>
  match x s with
  | .ok a after => .ok a after
  | .error e after => .error e (after.restore s.checkpoint)

end Action

/-- Correct the length of the vector, which cannot drop below zero. -/
def modifyLength (delta : Int) : Action Nat := fun s =>
  let length := s.layout.size + s.lengthDelta
  if ¬ Word.Fits length ∨ ¬ Word.Fits (length + delta) then .error .aborted s
  else if length + delta < 0 then
    .error (.config ⟨.negativeLength (max length 0) delta, none⟩) s
  else .ok (length + delta).toNat { s with lengthDelta := s.lengthDelta + delta }

end LoopSched.Schedule
