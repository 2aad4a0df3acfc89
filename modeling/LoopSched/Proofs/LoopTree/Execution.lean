import LoopSched.Proofs.LoopTree.Words

/-!
# Running loop code

What a loop tree does when it runs: the statement instances in order, with the values of their
arguments.  Before it runs, each name is replaced by the loop that binds it, so that a run does not
depend on the names of iterators.  Texts are integer expressions with sums, products, `min`, `max`
and `floord`; conditions are comparisons joined by `&&`, and a step adds to the iterator of its loop.
A tree with other texts gets stuck where it reads them.
-/

namespace LoopSched.LoopTree

/-! ### Names and their binders -/

inductive Lexeme where
  | number (n : ℕ)
  /-- The iterator of a loop around the text, counted from the innermost loop. -/
  | bound (depth : ℕ)
  /-- A parameter, a function or a statement. -/
  | free (name : String)
  | sign (text : String)
deriving DecidableEq, Repr

/-- A word of digits is a number; any other word names the innermost iterator that is so called. -/
def lexeme (scope : List String) (word : List Char) : Lexeme :=
  let depth := scope.idxOf (String.ofList word)
  if word.all Char.isDigit then .number (Nat.ofDigitChars 10 word 0)
  else if depth < scope.length then .bound depth
  else .free (String.ofList word)

def wideSigns : List String := ["<=", ">=", "==", "&&", "+="]

/-- The signs of a gap, without its blanks. -/
def signs : List Char → List Lexeme
  | [] => []
  | [c] => if c.isWhitespace then [] else [.sign c.toString]
  | c :: d :: cs =>
    if wideSigns.contains (String.ofList [c, d]) then .sign (String.ofList [c, d]) :: signs cs
    else if c.isWhitespace then signs (d :: cs)
    else .sign c.toString :: signs (d :: cs)

def lexemes (scope : List String) (text : String) : List Lexeme :=
  (runs text.toList).flatMap fun run =>
    if run.all isWordChar then [lexeme scope run] else signs run

/-- A tree whose names are replaced by their binders. -/
inductive Nameless where
  | block (children : List Nameless)
  | loop (iterator start guard step : List Lexeme) (body : Nameless)
  | ifThen (test : List Lexeme) (body : Nameless)
  | ifElse (test : List Lexeme) (body otherwise : Nameless)
  | call (text : List Lexeme)

mutual

def nameless (scope : List String) : LoopTree → Nameless
  | block children => .block (namelessEach scope children)
  | loop header _ body =>
    let inner := header.iterator :: scope
    .loop (lexemes inner header.iterator) (lexemes scope header.start)
      (lexemes inner header.guard) (lexemes inner header.step) (body.nameless inner)
  | ifThen test body => .ifThen (lexemes scope test) (body.nameless scope)
  | ifElse test body otherwise =>
    .ifElse (lexemes scope test) (body.nameless scope) (otherwise.nameless scope)
  | call text => .call (lexemes scope text)
  | mark _ body => body.nameless scope

def namelessEach (scope : List String) : List LoopTree → List Nameless
  | [] => []
  | t :: ts => t.nameless scope :: namelessEach scope ts

end

/-! ### Expressions -/

/-- The part of an expression after an open parenthesis: the function in front of it and the
arguments before the last comma, then the terms before the last sum sign and the factors before the
last product sign. -/
structure Level where
  function : Option String
  arguments : List ℤ
  sum : ℤ
  factor : ℤ

/-- An expression that is read from left to right. -/
structure Calculation where
  level : Level
  outer : List Level
  /-- The last term so far; nothing where an operand has to come next. -/
  term : Option ℤ

namespace Calculation

def start (function : Option String) : Calculation := ⟨⟨function, [], 0, 1⟩, [], none⟩

def operand (c : Calculation) (x : ℤ) : Option Calculation :=
  match c.term with
  | none => some { c with term := some (c.level.factor * x) }
  | some _ => none

/-- A sum sign, or the sign of the next operand. -/
def signed (c : Calculation) (sign : ℤ) : Option Calculation :=
  match c.term with
  | some x => some ⟨{ c.level with sum := c.level.sum + x, factor := sign }, c.outer, none⟩
  | none =>
    if sign = -1 then some { c with level := { c.level with factor := -c.level.factor } } else none

def times (c : Calculation) : Option Calculation :=
  c.term.map fun x => ⟨{ c.level with factor := x }, c.outer, none⟩

def enter (c : Calculation) (function : Option String) : Option Calculation :=
  match c.term with
  | none => some ⟨⟨function, [], 0, 1⟩, c.level :: c.outer, none⟩
  | some _ => none

/-- The arguments up to here, the last one complete. -/
def complete (c : Calculation) : Option (List ℤ) :=
  c.term.map fun x => c.level.arguments ++ [c.level.sum + x]

def comma (c : Calculation) : Option Calculation :=
  if c.level.function.isNone then none
  else c.complete.map fun args => ⟨⟨c.level.function, args, 0, 1⟩, c.outer, none⟩

def apply : Option String → List ℤ → Option ℤ
  | none, [a] => some a
  | some "min", [a, b] => some (min a b)
  | some "max", [a, b] => some (max a b)
  | some "floord", [a, b] => if b = 0 then none else some (a / b)
  | _, _ => none

def leave (c : Calculation) : Option Calculation := do
  let value ← apply c.level.function (← c.complete)
  match c.outer with
  | level :: outer => operand ⟨level, outer, none⟩ value
  | [] => none

def press (value : Lexeme → Option ℤ) (c : Calculation) : Lexeme → Option Calculation
  | .sign "+" => c.signed 1
  | .sign "-" => c.signed (-1)
  | .sign "*" => c.times
  | .sign "(" => c.enter none
  | .sign "," => c.comma
  | .sign ")" => c.leave
  | l => do c.operand (← value l)

/-- A free name in front of a parenthesis is a function. -/
def pressAll (value : Lexeme → Option ℤ) : Calculation → List Lexeme → Option Calculation
  | c, [] => some c
  | c, .free name :: .sign "(" :: rest => do pressAll value (← c.enter (some name)) rest
  | c, l :: rest => do pressAll value (← c.press value l) rest

/-- The expressions between the commas of a text. -/
def values (value : Lexeme → Option ℤ) (function : Option String) (text : List Lexeme) :
    Option (List ℤ) := do
  let c ← pressAll value (start function) text
  if c.outer.isEmpty then c.complete else none

end Calculation

/-! ### Conditions, steps and calls -/

namespace Lexeme

def value (parameters : String → Option ℤ) (iterators : List ℤ) : Lexeme → Option ℤ
  | number n => some n
  | bound depth => iterators[depth]?
  | free name => parameters name
  | sign _ => none

def comparison? : Lexeme → Option (ℤ → ℤ → Bool)
  | sign "<=" => some fun a b => a ≤ b
  | sign ">=" => some fun a b => b ≤ a
  | sign "==" => some fun a b => a = b
  | sign "<" => some fun a b => a < b
  | sign ">" => some fun a b => b < a
  | _ => none

end Lexeme

namespace Nameless

section Texts

variable (value : Lexeme → Option ℤ)

def expression (text : List Lexeme) : Option ℤ := do (← Calculation.values value none text).head?

def comparison (clause : List Lexeme) : Option Bool :=
  match clause.span fun l => l.comparison?.isNone with
  | (left, sign :: right) => do
    return (← sign.comparison?) (← expression value left) (← expression value right)
  | (_, []) => none

/-- Clauses after one that fails are not read. -/
def condition (test : List Lexeme) : Option Bool :=
  (test.splitOn (.sign "&&")).foldr
    (fun clause rest => do if ← comparison value clause then rest else return false) (some true)

def increment : List Lexeme → Option ℤ
  | .bound 0 :: .sign "+=" :: text => expression value text
  | _ => none

def statement : List Lexeme → Option (String × List ℤ)
  | .free name :: .sign "(" :: [.sign ")"] => some (name, [])
  | .free name :: .sign "(" :: text =>
    if text.getLast? = some (.sign ")") then do
      return (name, ← Calculation.values value (some name) text.dropLast)
    else none
  | _ => none

end Texts

end Nameless

/-! ### Runs -/

inductive Ending where
  | finished
  /-- A text has no value. -/
  | stuck
  /-- A loop has used up its rounds. -/
  | suspended
deriving DecidableEq, Repr

structure Trace where
  instances : List (String × List ℤ)
  ending : Ending
deriving DecidableEq, Repr

def Trace.andThen (first second : Trace) : Trace :=
  match first.ending with
  | .finished => ⟨first.instances ++ second.instances, second.ending⟩
  | _ => first

namespace Nameless

/-- At most `limit` rounds of a loop. -/
def iterate (guard : ℤ → Option Bool) (step : ℤ → Option ℤ) (body : ℤ → Trace) :
    (limit : ℕ) → ℤ → Trace
  | 0, _ => ⟨[], .suspended⟩
  | limit + 1, i =>
    match guard i with
    | none => ⟨[], .stuck⟩
    | some false => ⟨[], .finished⟩
    | some true =>
      (body i).andThen <|
        match step i with
        | none => ⟨[], .stuck⟩
        | some k => iterate guard step body limit (i + k)

mutual

/-- Run a tree whose loops around it have reached the given values, innermost first. -/
def run (parameters : String → Option ℤ) (limit : ℕ) (iterators : List ℤ) : Nameless → Trace
  | block children => runEach parameters limit iterators children
  | loop iterator start guard step body =>
    match iterator, expression (Lexeme.value parameters iterators) start with
    | [.bound 0], some first =>
      iterate (fun i => condition (Lexeme.value parameters (i :: iterators)) guard)
        (fun i => increment (Lexeme.value parameters (i :: iterators)) step)
        (fun i => body.run parameters limit (i :: iterators)) limit first
    | _, _ => ⟨[], .stuck⟩
  | ifThen test body =>
    match condition (Lexeme.value parameters iterators) test with
    | some true => body.run parameters limit iterators
    | some false => ⟨[], .finished⟩
    | none => ⟨[], .stuck⟩
  | ifElse test body otherwise =>
    match condition (Lexeme.value parameters iterators) test with
    | some true => body.run parameters limit iterators
    | some false => otherwise.run parameters limit iterators
    | none => ⟨[], .stuck⟩
  | call text =>
    match statement (Lexeme.value parameters iterators) text with
    | some inst => ⟨[inst], .finished⟩
    | none => ⟨[], .stuck⟩

def runEach (parameters : String → Option ℤ) (limit : ℕ) (iterators : List ℤ) :
    List Nameless → Trace
  | [] => ⟨[], .finished⟩
  | c :: cs =>
    (c.run parameters limit iterators).andThen (runEach parameters limit iterators cs)

end

end Nameless

def execute (parameters : String → Option ℤ) (limit : ℕ) (t : LoopTree) : Trace :=
  (t.nameless []).run parameters limit []

end LoopSched.LoopTree
