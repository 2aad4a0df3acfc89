import LoopSched.Json.Token

/-!
# JSON values

`Json.parse?` reads exactly one value, and `Json.render` writes one.  Members of an object keep
their order and their repetitions: what repeated names mean is for the reader of the value to say.
-/

namespace LoopSched

inductive Json where
  | null
  | bool (value : Bool)
  | number (value : Json.Numeral)
  | string (text : Option String)
  | array (items : List Json)
  | object (members : List (Option String × Json))
deriving Repr

namespace Json

instance : Inhabited Json := ⟨.null⟩

def ofInt (n : Int) : Json := .number (.ofInt n)

def ofNat (n : Nat) : Json := .number (.ofInt n)

def ofString (s : String) : Json := .string (some s)

/-- An object with the given members. -/
def ofMembers (members : List (String × Json)) : Json :=
  .object (members.map fun (k, v) => (some k, v))

/-- The value, or `null` when there is none. -/
def ofOption {α : Type} (f : α → Json) : Option α → Json
  | none => .null
  | some a => f a

def ofList {α : Type} (f : α → Json) (xs : List α) : Json := .array (xs.map f)

/-! ### Writing -/

mutual

def tokens : Json → List Token
  | null => [.null]
  | bool b => [.bool b]
  | number n => [.number n]
  | string s => [.string s]
  | array xs => .openArray :: itemTokens xs ++ [.closeArray]
  | object ms => .openObject :: memberTokens ms ++ [.closeObject]

def itemTokens : List Json → List Token
  | [] => []
  | [x] => x.tokens
  | x :: y :: xs => x.tokens ++ .comma :: itemTokens (y :: xs)

def memberTokens : List (Option String × Json) → List Token
  | [] => []
  | [(k, x)] => .string k :: .colon :: x.tokens
  | (k, x) :: m :: ms => .string k :: .colon :: x.tokens ++ .comma :: memberTokens (m :: ms)

end

/-- The value as text without blanks. -/
def render (j : Json) : String := String.join (j.tokens.map Token.text)

/-! ### Reading -/

mutual

/-- One value at the start of the tokens. -/
def value : Nat → List Token → Option (Json × List Token)
  | 0, _ => none
  | n + 1, ts =>
    match ts with
    | .null :: rest => some (.null, rest)
    | .bool b :: rest => some (.bool b, rest)
    | .number m :: rest => some (.number m, rest)
    | .string s :: rest => some (.string s, rest)
    | .openArray :: .closeArray :: rest => some (.array [], rest)
    | .openArray :: rest => (items n rest).map fun (xs, rest) => (.array xs, rest)
    | .openObject :: .closeObject :: rest => some (.object [], rest)
    | .openObject :: rest => (members n rest).map fun (ms, rest) => (.object ms, rest)
    | _ => none

/-- Values separated by commas, with the closing bracket. -/
def items : Nat → List Token → Option (List Json × List Token)
  | 0, _ => none
  | n + 1, ts => do
    let (x, rest) ← value n ts
    match rest with
    | .closeArray :: rest => some ([x], rest)
    | .comma :: rest => (items n rest).map fun (xs, rest) => (x :: xs, rest)
    | _ => none

/-- Members separated by commas, with the closing brace. -/
def members : Nat → List Token → Option (List (Option String × Json) × List Token)
  | 0, _ => none
  | n + 1, .string k :: .colon :: ts => do
    let (x, rest) ← value n ts
    match rest with
    | .closeObject :: rest => some ([(k, x)], rest)
    | .comma :: rest => (members n rest).map fun (ms, rest) => ((k, x) :: ms, rest)
    | _ => none
  | _ + 1, _ => none

end

/-- The value that makes up all of the tokens. -/
def ofTokens? (ts : List Token) : Option Json :=
  match value (2 * ts.length + 1) ts with
  | some (j, []) => some j
  | _ => none

/-- The value a text stands for, if it is JSON. -/
def parse? (text : String) : Option Json := do ofTokens? (← Token.scan text.toList)

end Json

end LoopSched
