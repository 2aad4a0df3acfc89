import LoopSched.Data.SortedList
import LoopSched.Error
import LoopSched.Text.Blank

/-!
# Iteration domains

A domain is a box with a lower and an upper bound for each dimension.  Bounds are affine expressions
that only the polyhedral engine looks into; the names they use are listed as symbols.
-/

namespace LoopSched

structure Domain where
  bounds : List (String × String)
  /-- Names in the bounds, a sorted set. -/
  symbols : List String
deriving DecidableEq, Repr

namespace Domain

/-- A bound is missing in this dimension. -/
def isBlankBound (b : String × String) : Bool :=
  (Text.trim b.1).isEmpty || (Text.trim b.2).isEmpty

/-- A domain with at least one dimension and no blank bounds. -/
def make (bounds : List (String × String)) (symbols : List String) :
    Except DimensionError Domain :=
  if bounds.isEmpty then .error .domainEmpty
  else
    match bounds.findIdx? isBlankBound with
    | some d => .error (.boundBlank d)
    | none => .ok ⟨bounds, SortedList.ofStrings symbols⟩

def dimensions (d : Domain) : Nat := d.bounds.length

/-- The dimensions of `b` after those of `a`. -/
def append (a b : Domain) : Domain :=
  ⟨a.bounds ++ b.bounds, SortedList.ofStrings (a.symbols ++ b.symbols)⟩

def lower? (d : Domain) (i : Nat) : Option String := d.bounds[i]?.map (·.1)

def upper? (d : Domain) (i : Nat) : Option String := d.bounds[i]?.map (·.2)

end Domain

end LoopSched
