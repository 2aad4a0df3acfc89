import LoopSched.Polyhedral.Text

/-!
# Sets and maps

The maps that schedules are made of, as data.  A clause relates a near tuple of coordinates to a far
one: coordinates with one name on both sides are equal, and the conditions say the rest.  Extents,
tile sizes and bounds are expressions of the user and stay text.
-/

namespace LoopSched.Polyhedral

/-- One dimension of a tiling: the tiled coordinate, the tile coordinate, and the tile size. -/
structure Split where
  base : String
  tile : String
  size : String
deriving DecidableEq, Repr

inductive Condition where
  /-- The coordinate has the value. -/
  | is (name : String) (value : Nat)
  /-- The coordinate has another value. -/
  | isNot (name : String) (value : Nat)
  /-- The coordinate has one of the values. -/
  | oneOf (name : String) (values : List Nat)
  /-- Two coordinates are equal. -/
  | same (out base : String)
  /-- A coordinate moved by an extent. -/
  | moved (out base extent : String)
  /-- The sum of some coordinates. -/
  | sum (out : String) (terms : List String)
  /-- Each coordinate is its tile times the size plus a remainder below the size. -/
  | tiled (splits : List Split)
deriving DecidableEq, Repr

namespace Condition

/-- `name = value`. -/
def isText (name : String) (value : Nat) : String := s!"{name} = {value}"

/-- Text of one dimension of a tiling with remainder `r`. -/
def splitText (r : String) (s : Split) : String :=
  s!"0 <= {r} < {s.size} and {s.base} = {s.tile} * {s.size} + {r}"

/-- Names of the remainders of a tiling. -/
def remainders (count : Nat) : List String := (List.range count).map fun d => s!"r_{d}"

def render : Condition → String
  | is name value => isText name value
  | isNot name value => s!"{name} != {value}"
  | oneOf name values => "(" ++ " or ".intercalate (values.map (isText name)) ++ ")"
  | same out base => s!"{out} = {base}"
  | moved out base extent => s!"{out} = {base}+({extent})"
  | sum out terms => out ++ " = " ++ " + ".intercalate terms
  | tiled splits =>
    let rs := remainders splits.length
    "exists (" ++ ", ".intercalate rs ++ " : " ++
      " and ".intercalate (List.zipWith splitText rs splits) ++ ")"

end Condition

/-- The iterator lies between the bounds, and the bounds do not cross. -/
structure Bound where
  iterator : String
  lower : String
  upper : String
deriving DecidableEq, Repr

def Bound.render (b : Bound) : String := boundText b.iterator b.lower b.upper

/-- The points of one statement: its name, its iterators and their bounds. -/
structure StatementSet where
  symbols : List String
  name : String
  iterators : List String
  bounds : List Bound
deriving DecidableEq, Repr

/-- `name[x,y]`, or `[x,y]` without a name. -/
def tupleText (name : String) (coordinates : List String) : String :=
  name ++ "[" ++ ",".intercalate coordinates ++ "]"

def StatementSet.render (s : StatementSet) : String :=
  unionText s.symbols
    [tupleText s.name s.iterators ++ " : " ++ " and ".intercalate (s.bounds.map (·.render))]

/-- Relates a near tuple, which may be the points of a statement, to a far one. -/
structure Clause where
  source : String := ""
  input : List String
  output : List String
  conditions : List Condition
deriving DecidableEq, Repr

def Clause.render (c : Clause) : String :=
  c.source ++ clauseText (",".intercalate c.input) (",".intercalate c.output)
    (c.conditions.map (·.render))

/-- A union of clauses with the symbols they use. -/
structure UnionMap where
  symbols : List String := []
  clauses : List Clause
deriving DecidableEq, Repr

def UnionMap.render (m : UnionMap) : String := unionText m.symbols (m.clauses.map (·.render))

end LoopSched.Polyhedral
