import LoopSched.Data.Total
import LoopSched.Layout.Subspace

/-!
# Layouts

A layout is the coordinate system of a schedule: subspaces from left to right.  Subspaces are
numbered in the order in which they were added and never removed.  The first two are `loops`, which
tells the nests apart, and `nest`, the iterators of the nests themselves.

A map goes from the coordinates of the current stage to those of the next one, so a subspace that is
inserted now has no place on the near side of the next map.
-/

namespace LoopSched

structure Layout where
  /-- All subspaces by number. -/
  arena : List Subspace
  /-- The numbers from left to right. -/
  order : List Nat
  stage : Stage
  /-- How often a stem was handed out. -/
  stems : List (String × Nat) := []
deriving DecidableEq, Repr

namespace Layout

/-- Number of the subspace that tells the nests apart. -/
def loops : Nat := 0

/-- Number of the subspace of the nests' own iterators. -/
def nest : Nat := 1

/-- Stage of the two first subspaces. -/
def baseStage : Stage := 0

def make (loops nest : Subspace) : Layout where
  arena := [{ loops with stage := baseStage }, { nest with stage := baseStage }]
  order := [Layout.loops, Layout.nest]
  stage := baseStage

/-! ### Finding subspaces -/

def get? (l : Layout) (id : Nat) : Option Subspace := l.arena[id]?

/-- Place of a subspace, counted from the left. -/
def position? (l : Layout) (id : Nat) : Option Nat := l.order.findIdx? (· = id)

/-- The subspace with this number, or the error that it has no place here. -/
def find (l : Layout) (id : Nat) : Except ConfigError Subspace :=
  match l.position? id, l.arena[id]? with
  | some _, some s => .ok s
  | _, _ => .error ⟨.unmanagedSubspace id, none⟩

/-- The subspaces from left to right. -/
def spaces (l : Layout) : List Subspace := l.order.filterMap (l.arena[·]?)

/-- The subspace to the right of one. -/
def next? (l : Layout) (id : Nat) : Option Nat := do l.order[(← l.position? id) + 1]?

/-- The subspaces to the left of one, the nearest first. -/
def leftOf (l : Layout) (id : Nat) : List Nat :=
  match l.position? id with
  | some p => (l.order.take p).reverse
  | none => []

/-- Number of coordinates. -/
def size (l : Layout) : Nat := total (l.spaces.map Subspace.completeSize)

/-- Coordinate of the first iterator of a subspace. -/
def offset? (l : Layout) (id : Nat) : Option Nat := do
  let p ← l.position? id
  return total (((l.order.take p).filterMap (l.arena[·]?)).map Subspace.completeSize)

/-! ### Names -/

/-- Names of the coordinates at a stage. -/
def namesAt (l : Layout) (stage : Stage) (useAliases : Bool) : List String :=
  l.spaces.flatMap (·.namesAt stage useAliases)

def iterators (l : Layout) (stage : Stage) (useAliases : Bool) : String :=
  ",".intercalate (l.namesAt stage useAliases)

/-- Stage on the far side of the next map. -/
def outputStage (l : Layout) : Stage := l.stage + 1

/-- Coordinates on the near side of the next map. -/
def inputNames (l : Layout) : List String := l.namesAt l.stage false

/-- Coordinates on the far side of the next map. -/
def outputNames (l : Layout) : List String := l.namesAt l.outputStage true

def currentIterators (l : Layout) : String := l.iterators l.stage true

def inputIterators (l : Layout) : String := l.iterators l.stage false

def outputIterators (l : Layout) : String := l.iterators l.outputStage true

/-! ### Changes -/

/-- Apply a function to one subspace. -/
def modify (l : Layout) (id : Nat) (f : Subspace → Subspace) : Layout :=
  { l with arena := l.arena.modify id f }

/-- Set or clear the alias of a subspace. -/
def setAlias (l : Layout) (id : Nat) (on : Bool) : Layout :=
  l.modify id ({ · with aliased := on })

/-- Put a new subspace at a place; it exists from the next stage on. -/
def insertAt (l : Layout) (s : Subspace) (position : Nat) : Nat × Layout :=
  let id := l.arena.length
  (id, { l with
    arena := l.arena ++ [{ s with stage := l.outputStage }]
    order := l.order.insertIdx position id })

/-- Put a new subspace directly to the left of another. -/
def insertLeft (l : Layout) (s : Subspace) (cursor : Nat) : Except ConfigError (Nat × Layout) :=
  match l.position? cursor with
  | some p => .ok (l.insertAt s p)
  | none => .error ⟨.unmanagedSubspace cursor, none⟩

/-- Put a new subspace directly to the right of another. -/
def insertRight (l : Layout) (s : Subspace) (cursor : Nat) : Except ConfigError (Nat × Layout) :=
  match l.position? cursor with
  | some p => .ok (l.insertAt s (p + 1))
  | none => .error ⟨.unmanagedSubspace cursor, none⟩

/-- A text repeated. -/
def repeated (base : String) (n : Nat) : String := String.join (List.replicate n base)

/-- A stem that was not handed out before for this base: the base once, then twice, and so on. -/
def freshStem (l : Layout) (base : String) : String × Layout :=
  let n := (l.stems.lookup base).getD 0 + 1
  (repeated base n, { l with stems := (base, n) :: l.stems.filter (·.1 ≠ base) })

/-- Go on to the next stage. -/
def advance (l : Layout) : Layout := { l with stage := l.stage + 1 }

/-- Clear all aliases and go on to the next stage. -/
def nextStage (l : Layout) : Layout :=
  { l with
    arena := l.arena.map ({ · with aliased := false })
    stage := l.stage + 1 }

end Layout

end LoopSched
