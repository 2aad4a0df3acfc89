import LoopSched.Arith.Word

/-!
# Loop trees

Loop code as a tree.  Headers, conditions and calls stay text.  The polyhedral engine names the
iterator of a loop over coordinate `d` of the schedule `c` followed by `d`, which is how loops are
found again that have to run in parallel, and how iterators get another prefix.
-/

namespace LoopSched

/-- `for (int iterator = start; guard; step)`. -/
structure Header where
  iterator : String
  start : String
  guard : String
  step : String
deriving DecidableEq, Repr

inductive LoopTree where
  | block (children : List LoopTree)
  | loop (header : Header) (parallel : Bool) (body : LoopTree)
  | ifThen (test : String) (body : LoopTree)
  | ifElse (test : String) (body otherwise : LoopTree)
  | call (text : String)
  /-- A comment on a subtree. -/
  | mark (label : String) (body : LoopTree)
deriving Repr

namespace LoopTree

instance : Inhabited LoopTree := ⟨.block []⟩

/-- The tree is a block without children. -/
def isEmpty : LoopTree → Bool
  | block [] => true
  | _ => false

/-! ### What is in a tree -/

mutual

/-- Iterators of all loops with their marks, in the order of the text. -/
def loops : LoopTree → List (String × Bool)
  | block children => loopsEach children
  | loop header parallel body => (header.iterator, parallel) :: body.loops
  | ifThen _ body => body.loops
  | ifElse _ body otherwise => body.loops ++ otherwise.loops
  | call _ => []
  | mark _ body => body.loops

def loopsEach : List LoopTree → List (String × Bool)
  | [] => []
  | t :: ts => t.loops ++ loopsEach ts

end

def loopCount (t : LoopTree) : Nat := t.loops.length

/-- Iterators of the parallel loops, outermost first. -/
def parallelIterators (t : LoopTree) : List String := (t.loops.filter (·.2)).map (·.1)

mutual

/-- Statement calls in the order of the text. -/
def calls : LoopTree → List String
  | block children => callsEach children
  | loop _ _ body => body.calls
  | ifThen _ body => body.calls
  | ifElse _ body otherwise => body.calls ++ otherwise.calls
  | call text => [text]
  | mark _ body => body.calls

def callsEach : List LoopTree → List String
  | [] => []
  | t :: ts => t.calls ++ callsEach ts

end

/-! ### Coordinates -/

/-- First letter of the iterators that the engine makes up. -/
def coordinateLetter : Char := 'c'

/-- The coordinate an iterator scans: the digits after its letter, if it has that form. -/
def coordinate? (name : List Char) : Option Nat :=
  match name with
  | [] => none
  | letter :: digits =>
    if letter = coordinateLetter && !digits.isEmpty && digits.all Char.isDigit then
      let n := digits.foldl (fun n c => 10 * n + (c.toNat - '0'.toNat)) 0
      if n < Word.count then some n else none
    else none

/-! ### Parallel loops -/

/-- The loop scans one of the coordinates. -/
def scans (dimensions : List Nat) (iterator : String) : Bool :=
  match coordinate? iterator.toList with
  | some d => dimensions.contains d
  | none => false

mutual

/-- Mark the loops over the given coordinates as parallel. -/
def markParallel (dimensions : List Nat) : LoopTree → LoopTree
  | block children => .block (markParallelEach dimensions children)
  | loop header parallel body =>
    .loop header (parallel || scans dimensions header.iterator) (body.markParallel dimensions)
  | ifThen test body => .ifThen test (body.markParallel dimensions)
  | ifElse test body otherwise =>
    .ifElse test (body.markParallel dimensions) (otherwise.markParallel dimensions)
  | call text => .call text
  | mark label body => .mark label (body.markParallel dimensions)

def markParallelEach (dimensions : List Nat) : List LoopTree → List LoopTree
  | [] => []
  | t :: ts => t.markParallel dimensions :: markParallelEach dimensions ts

end

/-! ### Other names for the iterators -/

/-- Characters of names and numbers. -/
def isWordChar (c : Char) : Bool := c.isAlphanum || c = '_'

/-- The new name of a word: coordinates that a loop in scope binds get the new first part. -/
def renameWord (stem : String) (bound : List String) (word : List Char) : List Char :=
  match coordinate? word with
  | some d => if bound.contains (String.ofList word) then (stem ++ toString d).toList else word
  | none => word

/-- Rename the words of a text and keep all that is between them. -/
def renameText (stem : String) (bound : List String) (text : String) : String :=
  String.ofList ((text.toList.splitBy fun a b => isWordChar a == isWordChar b).flatMap fun run =>
    if run.all isWordChar then renameWord stem bound run else run)

mutual

/-- Rename in a tree; `bound` are the iterators of the loops around it.  The start value of a loop
is outside the scope of its own iterator. -/
def renameIn (stem : String) (bound : List String) : LoopTree → LoopTree
  | block children => .block (renameInEach stem bound children)
  | loop header parallel body =>
    let inner := header.iterator :: bound
    .loop ⟨renameText stem inner header.iterator, renameText stem bound header.start,
      renameText stem inner header.guard, renameText stem inner header.step⟩
      parallel (body.renameIn stem inner)
  | ifThen test body => .ifThen (renameText stem bound test) (body.renameIn stem bound)
  | ifElse test body otherwise =>
    .ifElse (renameText stem bound test) (body.renameIn stem bound)
      (otherwise.renameIn stem bound)
  | call text => .call (renameText stem bound text)
  | mark label body => .mark label (body.renameIn stem bound)

def renameInEach (stem : String) (bound : List String) : List LoopTree → List LoopTree
  | [] => []
  | t :: ts => t.renameIn stem bound :: renameInEach stem bound ts

end

/-- Give the iterators of the loops another first part. -/
def renameIterators (stem : String) (t : LoopTree) : LoopTree :=
  if stem = coordinateLetter.toString then t else t.renameIn stem []

end LoopTree

end LoopSched
