import LoopSched.Arith.Word
import LoopSched.Json.Basic

/-!
# Reading typed data from JSON

A `Decoder` turns a value into data of one type, or refuses it.  It also gets the room that is left
for nested arrays and objects: a text may nest them `nestingLimit` deep.

Records are written as objects, or as arrays of their fields in order with optional fields at the
end left out.  Unknown members are skipped whatever they hold; a known member may stand only once.
-/

namespace LoopSched.Json

/-- Reads a value, given how many more levels of arrays and objects it may have. -/
abbrev Decoder (α : Type) := Nat → Json → Option α

/-- How deep arrays and objects may be nested. -/
def nestingLimit : Nat := 127

/-- Read a whole text. -/
def decode? {α : Type} (d : Decoder α) (text : String) : Option α := do
  d nestingLimit (← parse? text)

namespace Decode

/-- The integer a value stands for, of any size. -/
def integer? : Json → Option Int
  | .number n => n.toInt?
  | _ => none

/-- A signed 64-bit word. -/
def word : Decoder Int := fun _ j => do
  let n ← integer? j
  Word.fit? n

/-- A count or an index. -/
def nat : Decoder Nat := fun _ j => do
  let n ← integer? j
  if 0 ≤ n ∧ n < Word.count then some n.toNat else none

def bool : Decoder Bool
  | _, .bool b => some b
  | _, _ => none

def string : Decoder String
  | _, .string s => s
  | _, _ => none

def null : Decoder Unit
  | _, .null => some ()
  | _, _ => none

def list {α : Type} (d : Decoder α) : Decoder (List α)
  | room + 1, .array xs => xs.mapM (d room)
  | _, _ => none

/-- An array of exactly two values. -/
def pair {α β : Type} (d : Decoder α) (e : Decoder β) : Decoder (α × β)
  | room + 1, .array [x, y] => do return (← d room x, ← e room y)
  | _, _ => none

/-- A value that may be `null`. -/
def option {α : Type} (d : Decoder α) : Decoder (Option α)
  | _, .null => some none
  | room, j => (d room j).map some

/-! ### Records -/

/-- Members of an object with their names, if all names can be read. -/
def named : List (Option String × Json) → Option (List (String × Json))
  | [] => some []
  | (k, v) :: rest => do return (← k, v) :: (← named rest)

/-- The value of each known member, in the order of the names; no known name may stand twice. -/
def select (names : List String) (members : List (String × Json)) : Option (List (Option Json)) :=
  if names.all fun k => (members.filter (·.1 = k)).length ≤ 1 then
    some (names.map fun k => members.lookup k)
  else none

/-- Values in the order of the names, absent ones at the end. -/
def pad : List String → List Json → Option (List (Option Json))
  | names, [] => some (names.map fun _ => none)
  | [], _ :: _ => none
  | _ :: names, x :: xs => (pad names xs).map (some x :: ·)

/-- The fields of a record, written either way. -/
def fields (names : List String) : Json → Option (List (Option Json))
  | .object ms => do select names (← named ms)
  | .array xs => pad names xs
  | _ => none

/-- A record; the builder gets one entry for each name. -/
def record {α : Type} (names : List String) (build : Nat → List (Option Json) → Option α) :
    Decoder α
  | room + 1, j => do build room (← fields names j)
  | 0, _ => none

/-- A field that has to be there. -/
def required {α : Type} (d : Decoder α) (room : Nat) (field : Option Json) : Option α :=
  field.bind (d room)

/-- A field that may be left out. -/
def orDefault {α : Type} (d : Decoder α) (default : α) (room : Nat) : Option Json → Option α
  | none => some default
  | some j => d room j

/-- One of a list of names: the name as a string, or as the only member of an object with the value
`null`. -/
def name {α : Type} (choices : List (String × α)) : Decoder α
  | _, .string s => do choices.lookup (← s)
  | _ + 1, .object [(k, .null)] => do choices.lookup (← k)
  | _, _ => none

/-! ### Values that are read twice -/

mutual

/-- Every string of the value can be read, every number is in range, and the value is nested no
deeper than the room allows. -/
def readable : Nat → Json → Bool
  | _, .null => true
  | _, .bool _ => true
  | _, .number n => n.finite
  | _, .string s => s.isSome
  | room, .array xs => 0 < room && itemsReadable (room - 1) xs
  | room, .object ms => 0 < room && membersReadable (room - 1) ms

def itemsReadable : Nat → List Json → Bool
  | _, [] => true
  | room, x :: xs => readable room x && itemsReadable room xs

def membersReadable : Nat → List (Option String × Json) → Bool
  | _, [] => true
  | room, (k, x) :: ms => k.isSome && readable room x && membersReadable room ms

end

end Decode

end LoopSched.Json
