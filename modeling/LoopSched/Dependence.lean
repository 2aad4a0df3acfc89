import LoopSched.Chain

/-!
# Dependence distances

Two nests depend on each other when they touch one array and at least one of the two accesses
writes.  The distance of a pair of nests in a dimension is the greatest difference of offsets, later
minus earlier, over the accesses of each dataspace of the earlier nest and of the first one with the
same name in the later nest.
-/

namespace LoopSched.Dependence

/-- A pair of nests and a dimension. -/
structure Link where
  earlier : Nat
  later : Nat
  dimension : Nat
deriving DecidableEq, Repr

def Link.cmp (a b : Link) : Ordering :=
  (compare a.earlier b.earlier).then
    ((compare a.later b.later).then (compare a.dimension b.dimension))

/-- Distances by link, in the order of the links. -/
abbrev Distances := List (Link × Int)

/-- The greatest difference in each dimension, if both collections have members. -/
def maxDifference? (later earlier : Collection) : Except DimensionError (Option Tuple) :=
  match later.maxima?, earlier.minima? with
  | some hi, some lo => (hi.sub lo).map some
  | _, _ => .ok none

/-- A dataspace has to be as wide as its nest. -/
def checkWidth (d : Dataspace) (loop dimensions : Nat) : Except DimensionError Unit :=
  if d.width ≠ dimensions then .error (.dataspaceWidth d.name loop d.width dimensions)
  else .ok ()

/-- Take the components of a difference into account, numbered from `d`. -/
def record (p n : Nat) : Nat → List Int → Distances → Distances
  | _, [], ds => ds
  | d, v :: vs, ds => record p n (d + 1) vs (SortedList.upsert Link.cmp max ⟨p, n, d⟩ v ds)

/-- Distances of one pair of access sets. -/
def addAccesses (p n : Nat) (ds : Distances) (accesses : Collection × Collection) :
    Except DimensionError Distances := do
  match ← maxDifference? accesses.1 accesses.2 with
  | none => return ds
  | some diff => return record p n 0 diff.values ds

/-- Distances of one dataspace of the earlier nest and its partner in the later one. -/
def addDataspace (p n : Nat) (earlier later : Nest) (ds : Distances) (dp : Dataspace) :
    Except DimensionError Distances :=
  match later.dataspace? dp.name with
  | none => .ok ds
  | some dn => do
    checkWidth dp p earlier.dimensions
    checkWidth dn n later.dimensions
    [(dn.writes, dp.writes), (dn.reads, dp.writes), (dn.writes, dp.reads)].foldlM
      (addAccesses p n) ds

/-- Distances of one pair of nests. -/
def addPair (ds : Distances) (pair : (Nest × Nat) × (Nest × Nat)) :
    Except DimensionError Distances :=
  let ((earlier, p), (later, n)) := pair
  earlier.dataspaces.foldlM (addDataspace p n earlier later) ds

/-- All pairs of an element and a later one. -/
def pairs {α : Type} : List α → List (α × α)
  | [] => []
  | x :: xs => xs.map ((x, ·)) ++ pairs xs

/-- Distances of all pairs of nests of a chain. -/
def distances (c : Chain) : Except DimensionError Distances :=
  (pairs c.nests.zipIdx).foldlM addPair []

end LoopSched.Dependence
