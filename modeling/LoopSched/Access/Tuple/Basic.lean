/-!
# Offset tuples

A tuple is an offset in an array, one word for each dimension.  Shorter tuples come before longer
ones, and tuples of one width are ordered lexicographically.
-/

namespace LoopSched

structure Tuple where
  values : List Int
deriving DecidableEq, Repr

namespace Tuple

def zeros (n : Nat) : Tuple := ⟨List.replicate n 0⟩

/-- Number of components. -/
def width (t : Tuple) : Nat := t.values.length

def isZero (t : Tuple) : Bool := t.values.all (· = 0)

def get? (t : Tuple) (i : Nat) : Option Int := t.values[i]?

/-- Lexicographic comparison; a list comes after its own beginnings. -/
def compareValues : List Int → List Int → Ordering
  | [], [] => .eq
  | [], _ :: _ => .lt
  | _ :: _, [] => .gt
  | a :: as, b :: bs => if a < b then .lt else if b < a then .gt else compareValues as bs

/-- Width first, then values. -/
def cmp (a b : Tuple) : Ordering := (compare a.width b.width).then (compareValues a.values b.values)

/-- The greater of two tuples. -/
def max (a b : Tuple) : Tuple := if cmp a b = .gt then a else b

/-- The components as expressions. -/
def extents (t : Tuple) : List String := t.values.map toString

def render (t : Tuple) : String := "(" ++ ", ".intercalate t.extents ++ ")"

end Tuple

end LoopSched
