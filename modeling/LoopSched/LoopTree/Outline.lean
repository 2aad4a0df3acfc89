import LoopSched.LoopTree.Basic
import LoopSched.Text.Quoted

/-!
# Outlines of loop trees

Shows the structure of a tree: every node with its fields, one a line, nested by indentation.
-/

namespace LoopSched.LoopTree

open Text (quoted)

def margin (depth : Nat) : String := String.ofList (List.replicate (4 * depth) ' ')

/-- `Name { field: value, … }`, a field a line. -/
def fieldLines (depth : Nat) (name : String) (fields : List (String × String)) : String :=
  name ++ " \x7b\n" ++
    String.join (fields.map fun (k, v) => margin (depth + 1) ++ k ++ ": " ++ v ++ ",\n") ++
    margin depth ++ "\x7d"

/-- A value in parentheses, on lines of its own. -/
def wrapped (depth : Nat) (name value : String) : String :=
  name ++ "(\n" ++ margin (depth + 1) ++ value ++ ",\n" ++ margin depth ++ ")"

mutual

def outlineAt (depth : Nat) : LoopTree → String
  | block [] => wrapped depth "Block" "[]"
  | block (t :: ts) =>
    wrapped depth "Block" ("[\n" ++ outlineEach (depth + 2) (t :: ts) ++ margin (depth + 1) ++ "]")
  | loop h parallel body =>
    fieldLines depth "For" [("iterator", quoted h.iterator), ("init", quoted h.start),
      ("cond", quoted h.guard), ("inc", quoted h.step), ("body", body.outlineAt (depth + 1)),
      ("parallel", if parallel then "true" else "false")]
  | ifThen test body =>
    fieldLines depth "If" [("cond", quoted test), ("then", body.outlineAt (depth + 1)),
      ("otherwise", "None")]
  | ifElse test body otherwise =>
    fieldLines depth "If" [("cond", quoted test), ("then", body.outlineAt (depth + 1)),
      ("otherwise", wrapped (depth + 1) "Some" (otherwise.outlineAt (depth + 2)))]
  | call text => fieldLines depth "User" [("call", quoted text)]
  | mark label body =>
    fieldLines depth "Mark" [("id", quoted label), ("body", body.outlineAt (depth + 1))]

def outlineEach (depth : Nat) : List LoopTree → String
  | [] => ""
  | t :: ts => margin depth ++ t.outlineAt depth ++ ",\n" ++ outlineEach depth ts

end

/-- The structure of a tree as text. -/
def outline (t : LoopTree) : String := t.outlineAt 0

end LoopSched.LoopTree
