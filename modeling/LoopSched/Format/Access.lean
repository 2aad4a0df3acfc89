import LoopSched.Chain
import LoopSched.Json.Decode

/-!
# JSON form of chains

Tuples, collections, dataspaces, domains, nests and chains as records.  Reading checks the form
only, not what the constructors of these types check.
-/

namespace LoopSched

open Json Json.Decode

namespace Tuple

def toJson (t : Tuple) : Json := .ofMembers [("values", .ofList .ofInt t.values)]

def decoder : Decoder Tuple :=
  record ["values"] fun room fields =>
    match fields with
    | [values] => do return ⟨← required (list word) room values⟩
    | _ => none

end Tuple

namespace Collection

def toJson (c : Collection) : Json :=
  .ofMembers [("tuples", .ofList Tuple.toJson c.tuples), ("dimensions", .ofNat c.width)]

def decoder : Decoder Collection :=
  record ["tuples", "dimensions"] fun room fields =>
    match fields with
    | [tuples, dimensions] => do
      let tuples ← required (list Tuple.decoder) room tuples
      return ⟨SortedList.ofList Tuple.cmp tuples, ← required nat room dimensions⟩
    | _ => none

end Collection

namespace Dataspace

def toJson (d : Dataspace) : Json :=
  .ofMembers [("name", .ofString d.name), ("reads", d.reads.toJson), ("writes", d.writes.toJson)]

def decoder : Decoder Dataspace :=
  record ["name", "reads", "writes"] fun room fields =>
    match fields with
    | [name, reads, writes] => do
      return ⟨← required string room name, ← required Collection.decoder room reads,
        ← required Collection.decoder room writes⟩
    | _ => none

end Dataspace

namespace Domain

def toJson (d : Domain) : Json :=
  .ofMembers [
    ("bounds", .ofList (fun b => .array [.ofString b.1, .ofString b.2]) d.bounds),
    ("symbols", .ofList .ofString d.symbols)]

def decoder : Decoder Domain :=
  record ["bounds", "symbols"] fun room fields =>
    match fields with
    | [bounds, symbols] => do
      let bounds ← required (list (pair string string)) room bounds
      return ⟨bounds, SortedList.ofStrings (← required (list string) room symbols)⟩
    | _ => none

end Domain

namespace Nest

def toJson (n : Nest) : Json :=
  .ofMembers [("domain", n.domain.toJson), ("dataspaces", .ofList Dataspace.toJson n.dataspaces)]

def decoder : Decoder Nest :=
  record ["domain", "dataspaces"] fun room fields =>
    match fields with
    | [domain, dataspaces] => do
      return ⟨← required Domain.decoder room domain,
        ← required (list Dataspace.decoder) room dataspaces⟩
    | _ => none

end Nest

namespace Chain

def toJson (c : Chain) : Json := .ofMembers [("nests", .ofList Nest.toJson c.nests)]

def decoder : Decoder Chain :=
  record ["nests"] fun room fields =>
    match fields with
    | [nests] => do return ⟨← required (list Nest.decoder) room nests⟩
    | _ => none

end Chain

end LoopSched
