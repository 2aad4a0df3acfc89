import LoopSched.Access.Tuple.Arith
import LoopSched.Data.SortedList

/-!
# Collections of tuples

A collection is a sorted set of tuples of one width.  The width belongs to the collection, also
when it has no members, and is at least one.
-/

namespace LoopSched

structure Collection where
  tuples : List Tuple
  width : Nat
deriving DecidableEq, Repr

namespace Collection

/-- A collection of the given width. -/
def ofWidth (tuples : List Tuple) (width : Nat) : Except DimensionError Collection :=
  if width = 0 then .error .widthZero
  else
    let tuples := SortedList.ofList Tuple.cmp tuples
    match tuples.find? (·.width ≠ width) with
    | some bad => .error (.memberWidth bad width)
    | none => .ok ⟨tuples, width⟩

/-- A collection as wide as its least member. -/
def ofTuples (tuples : List Tuple) : Except DimensionError Collection :=
  match SortedList.ofList Tuple.cmp tuples with
  | [] => .error .widthUnknown
  | first :: rest => ofWidth (first :: rest) first.width

def empty (width : Nat) : Except DimensionError Collection := ofWidth [] width

def size (c : Collection) : Nat := c.tuples.length

def isEmpty (c : Collection) : Bool := c.tuples.isEmpty

def contains (c : Collection) (t : Tuple) : Bool := c.tuples.contains t

/-- Members of either collection. -/
def union (a b : Collection) : Except DimensionError Collection :=
  if a.width ≠ b.width then .error (.unionWidths a.width b.width)
  else .ok ⟨b.tuples.foldl (fun s t => SortedList.insert Tuple.cmp t s) a.tuples, a.width⟩

/-- In each component, what `pick` chooses among the values of the members that have it.  A component
that no member has stays at the start. -/
def extremes? (pick : List Int → Option Int) (start : Int) (c : Collection) : Option Tuple :=
  if c.isEmpty then none
  else some ⟨(List.range c.width).map fun i => (pick (c.tuples.filterMap (·.get? i))).getD start⟩

/-- Greatest value of each component over the members. -/
def maxima? : Collection → Option Tuple := extremes? List.max? Word.lo

/-- Least value of each component over the members. -/
def minima? : Collection → Option Tuple := extremes? List.min? Word.hi

/-- Every member moved by the extent. -/
def shift (c : Collection) (extent : Tuple) : Except DimensionError Collection := do
  if extent.width ≠ c.width then throw (.extentWidth extent.width c.width)
  let tuples ← c.tuples.mapM (·.add extent)
  return { c with tuples := SortedList.ofList Tuple.cmp tuples }

/-- Move every member in place.  The collection is replaced when all of its members are moved. -/
def shiftAll (extent : Tuple) : EStateM DimensionError Collection Unit := do
  set (← MonadExcept.ofExcept ((← get).shift extent))

def render (c : Collection) : String :=
  "\x7b " ++ ", ".intercalate (c.tuples.map Tuple.render) ++ " \x7d"

end Collection

end LoopSched
