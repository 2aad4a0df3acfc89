import LoopSched.Schedule.Action
import LoopSched.Schedule.Transformation
import LoopSched.Text.Decimal

/-!
# Maps of the transformations

The map that each transformation adds to a schedule, for a target subspace.  Subspaces that change
are aliased while the map is written: plain names are the coordinates before it, aliases those after
it.  Only a tiling changes the layout for good, when it inserts a subspace.
-/

namespace LoopSched.Fragment

open Polyhedral
open Schedule (Action)
open Schedule.Action

/-- The clause of the layout as it is now, with the given conditions. -/
def clause (conditions : List Condition) : Action Clause := do
  let layout := (← get).layout
  return { input := layout.inputNames, output := layout.outputNames, conditions }

/-- Two lists of coordinates are equal, one by one. -/
def identities (outs bases : List String) : List Condition := List.zipWith .same outs bases

/-! ### Shift -/

/-- A shift of the nests' own subspace has an extent for each dimension of the nest, one of another
subspace has an extent for each of its variables. -/
def checkExtents (sh : Shift) (nest : Nest) (target : Subspace) (id : Nat) :
    Except Failure Unit :=
  let expected := if id = Layout.nest then nest.dimensions else target.size
  let given := sh.extents.length
  if given ≠ expected ∨ target.size < given then
    .error (.dimension (.shiftExtents sh.loop given expected))
  else .ok ()

/-- Coordinates moved by the extents, those behind the extents unchanged. -/
def movedBy : List String → List (String × String) → List Condition
  | _, [] => []
  | [], (out, base) :: rest => .same out base :: movedBy [] rest
  | e :: es, (out, base) :: rest => .moved out base e :: movedBy es rest

/-- Move one nest and leave the others alone. -/
def shift (sh : Shift) (id : Nat) : Action UnionMap := do
  let nest ← nestOf sh.loop "shift"
  let target ← targetOf id "shift"
  require (checkExtents sh nest target id)
  let loops := (← get).loopsConstant
  setAlias id true
  let out ← subspace id
  let moved ← clause
    (.is loops sh.loop :: movedBy sh.extents ((out.names true).zip out.baseNames))
  setAlias id false
  let others ← clause [.isNot loops sh.loop]
  return { symbols := sh.symbols, clauses := [moved, others] }

/-! ### Fusion -/

/-- The loop that stands for all fused ones. -/
def firstLoop : List Nat → Except Failure Nat
  | [] => .error (.ofCause .fusionOfNothing "fusion")
  | first :: _ => .ok first

/-- The subspace whose constant orders the fused statements. -/
def innerOf (l : Layout) (id : Nat) : Except Failure Nat :=
  match l.next? id with
  | none => .error (.ofCause .nothingToFuseInto "fusion")
  | some next => .ok next

/-- Run the listed nests as one: the first number stands for all, and the number a nest had orders
the statements in the next subspace.  Both subspaces are left aliased. -/
def fusion (loops : List Nat) (id : Nat) : Action UnionMap := do
  let first ← require (firstLoop loops)
  loops.forM fun loop => do let _ ← nestOf loop "fusion"
  let _ ← targetOf id "fusion"
  let next ← require (innerOf (← get).layout id)
  setAlias id true
  setAlias next true
  let outer ← subspace id
  let inner ← subspace next
  let fused ← clause (
    .is outer.constantName first ::
    .same inner.constantName outer.constant ::
    .oneOf outer.constant loops ::
    (identities outer.variableNames outer.vars ++ identities inner.variableNames inner.vars))
  let others ← clause (
    loops.map (.isNot outer.constant ·) ++
    identities (outer.names true) outer.baseNames ++
    identities (inner.names true) inner.baseNames)
  return { clauses := [fused, others] }

/-! ### Wavefront -/

/-- A subspace without variables cannot be skewed. -/
def checkVariables (target : Subspace) : Except Failure Unit :=
  if target.size = 0 then .error (.ofCause .nothingToSkew "wavefront") else .ok ()

/-- The first coordinate is the sum of the variables, the others stay. -/
def skewed (target : Subspace) : List Condition :=
  match target.names true with
  | [] => []
  | out :: outs => .sum out target.vars :: identities outs (target.baseNames.drop 1)

/-- Replace the first coordinate of the target by the sum of all its variables. -/
def wavefront (id : Nat) : Action UnionMap := do
  let target ← targetOf id "wavefront"
  require (checkVariables target)
  setAlias id true
  let out ← subspace id
  let all ← clause (skewed out)
  setAlias id false
  return { clauses := [all] }

/-! ### Tile -/

/-- A tile size is missing or not positive.  Sizes that are no numbers are left to the polyhedral
engine. -/
def sizeFault? (size : String) (d : Nat) : Option ConfigCause :=
  let size := Text.trim size
  match Text.word? size with
  | some n => if n ≤ 0 then some (.tileNotPositive n) else none
  | none => if size.isEmpty then some (.tileSizeBlank d) else none

/-- How many dimensions of a subspace the sizes cover.  On the nests' own subspace the sizes have to
match the nest, on any other there may be fewer sizes than dimensions. -/
def coveredDimensions (loop : Nat) (sizes : TileSizes) (size : Nat) (nestDimensions : Option Nat) :
    Except ConfigCause Nat :=
  match sizes with
  | .uniform _ => .ok size
  | .perDimension sizes =>
    match nestDimensions.filter (sizes.length ≠ ·) with
    | some dims => .error (.tileSizeCount sizes.length loop dims)
    | none => if size < sizes.length then .error .tileTooWide else .ok sizes.length

/-- A tiling covers something, and no size in it is at fault. -/
def checkSizes (sizes : TileSizes) (count : Nat) : Except ConfigCause Unit :=
  if count = 0 then .error .tileNothing
  else
    match (List.range count).findSome? fun d => sizeFault? ((sizes.get? d).getD "") d with
    | some fault => .error fault
    | none => .ok ()

/-- How many dimensions of a subspace are tiled. -/
def tileCount (loop : Nat) (sizes : TileSizes) (size : Nat) (nestDimensions : Option Nat) :
    Except ConfigCause Nat := do
  let count ← coveredDimensions loop sizes size nestDimensions
  checkSizes sizes count
  return count

/-- The tile subspace of an earlier tiling at the same depth, to the left of the target. -/
def existingTile? (l : Layout) (candidate : Subspace) (id : Nat) : Option Nat :=
  (l.leftOf id).find? fun other => ((l.get? other).map (·.same candidate)).getD false

/-- The tile subspace for a target and whether it is new.  An earlier one is aliased; a new one is
on the far side of the map only and needs no alias. -/
def tileSubspace (count : Nat) (target : Subspace) (id : Nat) : Action (Nat × Bool) := do
  let s ← get
  let candidate ← require
    ((Subspace.derived (Layout.repeated "t" (s.depth + 1)) count target).mapError .dimension)
  match existingTile? s.layout candidate id with
  | some tile =>
    setAlias tile true
    return (tile, false)
  | none =>
    let stem ← freshStem "t"
    let fresh ← require ((Subspace.derived stem count target).mapError .dimension)
    let tile ← insertLeft fresh id
    return (tile, true)

/-- The tiled coordinates with their tile coordinates and sizes. -/
def splits (sizes : TileSizes) (count : Nat) (target tiles : Subspace) : List Split :=
  (List.range count).zipWith (fun d (base, tile) => ⟨base, tile, (sizes.get? d).getD ""⟩)
    (target.vars.zip tiles.variableNames)

/-- The map of a tiling and the tile subspace. -/
structure Tiling where
  map : UnionMap
  tile : Nat
deriving DecidableEq, Repr

/-- Split the first coordinates of the target into tiles for one nest.  Other nests get zeros in a
new tile subspace. -/
def tile (loop : Nat) (sizes : TileSizes) (id : Nat) : Action Tiling := do
  let nest ← nestOf loop "tile"
  let loops := (← get).loopsConstant
  let target ← targetOf id "tile"
  let count ← require ((tileCount loop sizes target.size
    (if id = Layout.nest then some nest.dimensions else none)).mapError
      fun cause => .ofCause cause "tile")
  let (tile, isNew) ← tileSubspace count target id
  setAlias id true
  let tiled ← subspace id
  let tiles ← subspace tile
  let mapped ← clause (
    .is loops loop ::
    .same tiled.constantName tiled.constant ::
    .is tiles.constantName 0 ::
    .tiled (splits sizes count tiled tiles) ::
    identities tiled.variableNames tiled.vars)
  setAlias id false
  setAlias tile false
  let others ← clause (
    .isNot loops loop ::
    (if isNew then tiles.baseNames.map (.is · 0) else []))
  return { map := { clauses := [mapped, others] }, tile }

end LoopSched.Fragment
