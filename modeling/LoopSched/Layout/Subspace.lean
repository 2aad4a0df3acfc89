import LoopSched.Error

/-!
# Subspaces

A subspace is a group of neighbouring coordinates of the iteration vector: some variable iterators
and one constant iterator after them, which orders statements that share the variables.  While a
subspace is aliased its iterators also have a second name, for the far side of a map.
-/

namespace LoopSched

/-- Version of the coordinate system.  A subspace exists from its own stage on.  Every step adds one:
it is assumed that fewer than 2^31 steps are taken, so that a stage has 32 bits. -/
abbrev Stage := Int

structure Subspace where
  vars : List String
  constant : String
  stage : Stage
  aliased : Bool := false
deriving DecidableEq, Repr

namespace Subspace

/-- Stage of a subspace that has no place in a layout yet. -/
def unstaged : Stage := -1

/-- Iterators `stem_0 … stem_(count-1)` and `stem_c`. -/
def make (stem : String) (count : Nat) : Subspace where
  vars := (List.range count).map fun i => s!"{stem}_{i}"
  constant := stem ++ "_c"
  stage := unstaged

/-- Iterators named after the first `count` of another subspace. -/
def derived (stem : String) (count : Nat) (source : Subspace) : Except DimensionError Subspace :=
  if source.vars.length < count then
    .error (.tooFewIterators source.vars.length count)
  else
    .ok { vars := (source.vars.take count).map fun v => s!"{stem}_{v}"
          constant := s!"{stem}_{source.constant}"
          stage := unstaged }

/-- Number of variable iterators. -/
def size (s : Subspace) : Nat := s.vars.length

/-- Number of iterators with the constant one. -/
def completeSize (s : Subspace) : Nat := s.size + 1

/-- The second name of an iterator. -/
def aliasOf (name : String) : String := "alias_" ++ name

/-- Name of an iterator; with `useAliases` the second one while the subspace is aliased. -/
def decorate (s : Subspace) (useAliases : Bool) (name : String) : String :=
  if useAliases && s.aliased then aliasOf name else name

/-- Plain names of all iterators, the constant one last. -/
def baseNames (s : Subspace) : List String := s.vars ++ [s.constant]

/-- Names of all iterators. -/
def names (s : Subspace) (useAliases : Bool) : List String :=
  s.baseNames.map (s.decorate useAliases)

/-- Names of the variable iterators, as the subspace is aliased. -/
def variableNames (s : Subspace) : List String := s.vars.map (s.decorate true)

/-- Name of the constant iterator, as the subspace is aliased. -/
def constantName (s : Subspace) : String := s.decorate true s.constant

def name? (s : Subspace) (i : Nat) (useAliases : Bool) : Option String :=
  (s.names useAliases)[i]?

/-- Names of the iterators, none before the subspace exists. -/
def namesAt (s : Subspace) (stage : Stage) (useAliases : Bool) : List String :=
  if stage < s.stage then [] else s.names useAliases

def iterators (s : Subspace) (stage : Stage) (useAliases : Bool) : String :=
  ",".intercalate (s.namesAt stage useAliases)

/-- Two subspaces are the same when their plain names are, whatever their stage and alias. -/
def same (a b : Subspace) : Bool := a.vars = b.vars && a.constant = b.constant

def render (s : Subspace) : String := "[" ++ ",".intercalate (s.names true) ++ "]"

end Subspace

end LoopSched
