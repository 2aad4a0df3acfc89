import LoopSched.Json.Decode
import LoopSched.Pipeline.Basic

/-!
# JSON form of pipelines

Descriptions and their parts as records.  A transformation is a record with the name of its kind
among the members, or in front of the fields when it is written as an array.  Its members are looked
at only when the kind is known, so all of it has to be readable, unknown members too.
-/

namespace LoopSched

open Json Json.Decode

namespace Shift

def toJson (s : Shift) : Json :=
  .ofMembers [("loop_id", .ofNat s.loop), ("extents", .ofList .ofString s.extents),
    ("symbols", .ofList .ofString s.symbols)]

def decoder : Decoder Shift :=
  record ["loop_id", "extents", "symbols"] fun room fields =>
    match fields with
    | [loop, extents, symbols] => do
      return ⟨← required nat room loop, ← required (list string) room extents,
        ← required (list string) room symbols⟩
    | _ => none

end Shift

namespace TileSizes

def toJson : TileSizes → Json
  | uniform size => .ofMembers [("Uniform", .ofString size)]
  | perDimension sizes => .ofMembers [("PerDimension", .ofList .ofString sizes)]

/-- An object with the way the sizes are given as its only member. -/
def decoder : Decoder TileSizes
  | room + 1, .object [(some "Uniform", j)] => (string room j).map .uniform
  | room + 1, .object [(some "PerDimension", j)] => (list string room j).map .perDimension
  | _, _ => none

end TileSizes

namespace PrintOptions

def toJson (o : PrintOptions) : Json :=
  .ofMembers [("indent", .ofString o.indent), ("parallel_pragma", .ofString o.pragma)]

def decoder : Decoder PrintOptions :=
  record ["indent", "parallel_pragma"] fun room fields =>
    match fields with
    | [indent, pragma] => do
      let base : PrintOptions := {}
      return ⟨← orDefault string base.indent room indent,
        ← orDefault string base.pragma room pragma⟩
    | _ => none

end PrintOptions

namespace Pipeline

namespace Expr

def toJson : Expr → Json
  | int value => .ofInt value
  | text value => .ofString value

def decoder : Decoder Expr
  | room, .number n => (word room (.number n)).map .int
  | room, j => (string room j).map .text

end Expr

namespace DataspaceSpec

def toJson (d : DataspaceSpec) : Json :=
  .ofMembers [("name", .ofString d.name),
    ("reads", .ofList (.ofList .ofInt) d.reads), ("writes", .ofList (.ofList .ofInt) d.writes),
    ("dimensions", .ofOption .ofNat d.dimensions)]

def decoder : Decoder DataspaceSpec :=
  record ["name", "reads", "writes", "dimensions"] fun room fields =>
    match fields with
    | [name, reads, writes, dimensions] => do
      return ⟨← required string room name, ← orDefault (list (list word)) [] room reads,
        ← orDefault (list (list word)) [] room writes,
        ← orDefault (option nat) none room dimensions⟩
    | _ => none

end DataspaceSpec

namespace NestSpec

def toJson (n : NestSpec) : Json :=
  .ofMembers [("bounds", .ofList (fun b => .array [b.1.toJson, b.2.toJson]) n.bounds),
    ("symbols", .ofList .ofString n.symbols),
    ("dataspaces", .ofList DataspaceSpec.toJson n.dataspaces)]

def decoder : Decoder NestSpec :=
  record ["bounds", "symbols", "dataspaces"] fun room fields =>
    match fields with
    | [bounds, symbols, dataspaces] => do
      return ⟨← required (list (pair Expr.decoder Expr.decoder)) room bounds,
        ← orDefault (list string) [] room symbols,
        ← orDefault (list DataspaceSpec.decoder) [] room dataspaces⟩
    | _ => none

end NestSpec

namespace Step

/-- Kinds of transformations, without their data. -/
inductive Kind where
  | identity
  | shift
  | fusion
  | tile
  | wavefront
  | parallel
  | automaticShift
deriving DecidableEq, Repr

namespace Kind

def names : List (String × Kind) :=
  [("identity", identity), ("shift", shift), ("fusion", fusion), ("tile", tile),
    ("wavefront", wavefront), ("parallel", parallel), ("automatic_shift", automaticShift)]

/-- Fields of each kind, in order. -/
def fields : Kind → List String
  | identity => []
  | shift => ["loop_id", "extents", "symbols"]
  | fusion => ["loops"]
  | tile => ["loop_id", "size", "sizes", "over", "within"]
  | wavefront => []
  | parallel => ["additional_depth"]
  | automaticShift => ["include_zero", "node_limit"]

/-- A kind by its name.  Inside another transformation its number will do. -/
def decode? (nested : Bool) : Json → Option Kind
  | .string s => do names.lookup (← s)
  | .number n =>
    if nested then do
      let i ← n.toInt?
      if 0 ≤ i then names[i.toNat]?.map (·.2) else none
    else none
  | _ => none

end Kind

/-- The kind of a transformation and the rest of it. -/
def kindOf (nested : Bool) : Json → Option (Kind × Json)
  | .array (k :: rest) => do return (← Kind.decode? nested k, .array rest)
  | .object ms => do
    let found ← select ["kind"] (← named ms)
    let kind ← Kind.decode? nested (← found.head?.join)
    return (kind, .object (ms.filter (·.1 ≠ some "kind")))
  | _ => none

/-- Data of a transformation of a known kind; `steps` reads the lists of a tile. -/
def ofFields (steps : Decoder (List Step)) (room : Nat) :
    Kind → List (Option Json) → Option Step
  | .identity, _ => some .identity
  | .wavefront, _ => some .wavefront
  | .shift, [loop, extents, symbols] => do
    return .shift (← required nat room loop) (← required (list Expr.decoder) room extents)
      (← orDefault (list string) [] room symbols)
  | .fusion, [loops] => do return .fusion (← required (list nat) room loops)
  | .tile, [loop, size, sizes, outer, inner] => do
    return .tile (← required nat room loop)
      (← orDefault (option Expr.decoder) none room size)
      (← orDefault (option (list Expr.decoder)) none room sizes)
      (← orDefault steps [] room outer) (← orDefault steps [] room inner)
  | .parallel, [depth] => do return .parallel (← orDefault nat 0 room depth)
  | .automaticShift, [includeZero, nodeLimit] => do
    return .automaticShift (← orDefault bool false room includeZero)
      (← orDefault (option nat) none room nodeLimit)
  | _, _ => none

/-- Transformations nested in each other use up room, which bounds the recursion. -/
def decodeAt (nested : Bool) : Decoder Step
  | 0, _ => none
  | 1, j => do
    let (kind, rest) ← kindOf nested j
    ofFields (fun _ _ => none) 0 kind (← Decode.fields kind.fields rest)
  | room + 2, j => do
    let (kind, rest) ← kindOf nested j
    ofFields (fun _ list =>
      match list with
      | .array xs => xs.mapM (decodeAt true room)
      | _ => none) (room + 1) kind (← Decode.fields kind.fields rest)

/-- A transformation. -/
def decoder : Decoder Step := fun room j =>
  if readable room j then decodeAt false room j else none

/-- A record of the given kind. -/
def recordOf (kind : String) (members : List (String × Json)) : Json :=
  .ofMembers (("kind", .ofString kind) :: members)

mutual

def toJson : Step → Json
  | identity => recordOf "identity" []
  | shift loop extents symbols =>
    recordOf "shift" [("loop_id", .ofNat loop), ("extents", .ofList Expr.toJson extents),
      ("symbols", .ofList .ofString symbols)]
  | fusion loops => recordOf "fusion" [("loops", .ofList .ofNat loops)]
  | tile loop size sizes outer inner =>
    recordOf "tile" [("loop_id", .ofNat loop), ("size", .ofOption Expr.toJson size),
      ("sizes", .ofOption (.ofList Expr.toJson) sizes),
      ("over", .array (toJsonEach outer)), ("within", .array (toJsonEach inner))]
  | wavefront => recordOf "wavefront" []
  | parallel additionalDepth =>
    recordOf "parallel" [("additional_depth", .ofNat additionalDepth)]
  | automaticShift includeZero nodeLimit =>
    recordOf "automatic_shift" [("include_zero", .bool includeZero),
      ("node_limit", .ofOption .ofNat nodeLimit)]

def toJsonEach : List Step → List Json
  | [] => []
  | s :: steps => s.toJson :: toJsonEach steps

end

end Step

namespace Description

def toJson (d : Description) : Json :=
  .ofMembers [("statement_prefix", .ofString d.statementPrefix),
    ("iterator_prefix", .ofString d.iteratorPrefix),
    ("nests", .ofList NestSpec.toJson d.nests),
    ("transformations", .ofList Step.toJson d.transformations),
    ("codegen", d.codegen.toJson)]

def decoder : Decoder Description :=
  record ["statement_prefix", "iterator_prefix", "nests", "transformations", "codegen"]
    fun room fields =>
      match fields with
      | [statementPrefix, iteratorPrefix, nests, transformations, codegen] => do
        let base : Description := {}
        return {
          statementPrefix := ← orDefault string base.statementPrefix room statementPrefix
          iteratorPrefix := ← orDefault string base.iteratorPrefix room iteratorPrefix
          nests := ← required (list NestSpec.decoder) room nests
          transformations := ← orDefault (list Step.decoder) [] room transformations
          codegen := ← orDefault PrintOptions.decoder base.codegen room codegen }
      | _ => none

/-- Read a description from text. -/
def parse? (text : String) : Option Description := decode? decoder text

/-- Write a description as text. -/
def render (d : Description) : String := d.toJson.render

end Description

end Pipeline

end LoopSched
