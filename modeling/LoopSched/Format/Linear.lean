import LoopSched.Json.Decode
import LoopSched.Linear.Solver

/-!
# JSON form of program data

Directions, relations and statuses by name.
-/

namespace LoopSched.Linear

open Json Json.Decode

/-- The name that stands for a value. -/
def nameOf {α : Type} [DecidableEq α] (names : List (String × α)) (a : α) : String :=
  ((names.find? (·.2 = a)).map (·.1)).getD ""

namespace Direction

def names : List (String × Direction) := [("Minimize", minimize), ("Maximize", maximize)]

def toJson (d : Direction) : Json := .ofString (nameOf names d)

def decoder : Decoder Direction := name names

end Direction

namespace Relation

def names : List (String × Relation) :=
  [("LessEq", lessEq), ("Eq", eq), ("GreaterEq", greaterEq)]

def toJson (r : Relation) : Json := .ofString (nameOf names r)

def decoder : Decoder Relation := name names

end Relation

namespace Status

def names : List (String × Status) :=
  [("Optimal", optimal), ("Feasible", feasible), ("Infeasible", infeasible),
    ("Unbounded", unbounded), ("Abnormal", abnormal), ("ModelInvalid", modelInvalid),
    ("NotSolved", notSolved)]

def toJson (s : Status) : Json := .ofString (nameOf names s)

def decoder : Decoder Status := name names

end Status

end LoopSched.Linear
