import LoopSched.Format.Pipeline
import LoopSched.LoopTree.Outline
import LoopSched.Schedule.Code
import LoopSched.Text.Quoted

/-!
# Command line

What the command line asks for, and what the run produces from the text of the pipeline file.
Reading and writing files is left to the caller.
-/

namespace LoopSched.Cli

/-! ### Arguments -/

/-- What to write. -/
inductive Emit where
  | code
  | script
  | tree
  | shifts
deriving DecidableEq, Repr

def Emit.names : List (String × Emit) :=
  [("code", code), ("iscc", script), ("ast", tree), ("shifts", shifts)]

structure Options where
  input : String
  output : Option String := none
  emit : Emit := .code
deriving DecidableEq, Repr

/-- What the arguments ask for. -/
inductive Request where
  | run (options : Options)
  | version
  | help
  | misuse
deriving DecidableEq, Repr

/-- What the arguments so far have said. -/
structure Seen where
  input : Option String := none
  output : Option String := none
  emit : Option Emit := none
  quiet : Bool := false
deriving DecidableEq, Repr

/-- Options that take a value. -/
inductive Valued where
  | output
  | emit
deriving DecidableEq, Repr

/-- Effect of one argument: go on, wait for the value of an option, or stop. -/
inductive Reading where
  | seen (seen : Seen)
  | pending (seen : Seen) (option : Valued)
  | stop (request : Request)

namespace Seen

/-- Give an option its value; an option is given once, and a path is not empty. -/
def setValue (s : Seen) (option : Valued) (value : String) : Reading :=
  match option with
  | .output =>
    if s.output.isSome || value.isEmpty then .stop .misuse else .seen { s with output := value }
  | .emit =>
    match s.emit, Emit.names.lookup value with
    | none, some emit => .seen { s with emit := some emit }
    | _, _ => .stop .misuse

def setQuiet (s : Seen) : Reading :=
  if s.quiet then .stop .misuse else .seen { s with quiet := true }

/-- Take a file name; there is one, and it is not empty. -/
def setInput (s : Seen) (value : String) : Reading :=
  if s.input.isSome || value.isEmpty then .stop .misuse else .seen { s with input := value }

/-- An argument that starts with two hyphens. -/
def long (s : Seen) (name : String) (value : Option String) : Reading :=
  let valued (option : Valued) : Reading :=
    match value with
    | none => .pending s option
    | some v => s.setValue option v
  let flag (r : Reading) : Reading := if value.isSome then .stop .misuse else r
  match name with
  | "output" => valued .output
  | "emit" => valued .emit
  | "verbose" => flag (.seen s)
  | "quiet" => flag s.setQuiet
  | "version" => flag (.stop .version)
  | "help" => flag (.stop .help)
  | _ => .stop .misuse

/-- Letters after one hyphen; the first that takes a value takes all that follows it. -/
def short (s : Seen) : List Char → Reading
  | [] => .seen s
  | 'o' :: [] => .pending s .output
  | 'o' :: '=' :: value => s.setValue .output (String.ofList value)
  | 'o' :: value => s.setValue .output (String.ofList value)
  | 'v' :: rest => s.short rest
  | 'q' :: rest => if s.quiet then .stop .misuse else { s with quiet := true : Seen }.short rest
  | 'V' :: _ => .stop .version
  | 'h' :: _ => .stop .help
  | _ => .stop .misuse

/-- One argument before `--`. -/
def argument (s : Seen) (arg : List Char) : Reading :=
  match arg with
  | '-' :: '-' :: rest =>
    match LoopTree.Parser.cutAt? '=' rest with
    | none => s.long (String.ofList rest) none
    | some (name, value) => s.long (String.ofList name) (some (String.ofList value))
  | '-' :: c :: rest => s.short (c :: rest)
  | arg => s.setInput (String.ofList arg)

/-- The request when all arguments are read: a file is needed. -/
def request (s : Seen) : Request :=
  match s.input with
  | none => .misuse
  | some input => .run { input, output := s.output, emit := s.emit.getD .code }

end Seen

/-- An argument that can stand as the value of an option: it does not look like an option. -/
def isValue (arg : String) : Bool :=
  match arg.toList with
  | '-' :: _ :: _ => false
  | _ => true

/-- Arguments behind `--`, which are file names. -/
def readFiles (s : Seen) : List String → Request
  | [] => s.request
  | arg :: args =>
    match s.setInput arg with
    | .seen s => readFiles s args
    | _ => .misuse

/-- Read the arguments from left to right; `pending` is an option that waits for its value. -/
def readArguments (s : Seen) (pending : Option Valued) : List String → Request
  | [] => if pending.isSome then .misuse else s.request
  | arg :: args =>
    match pending with
    | some option =>
      if isValue arg then
        match s.setValue option arg with
        | .seen s => readArguments s none args
        | _ => .misuse
      else .misuse
    | none =>
      if arg = "--" then readFiles s args
      else
        match s.argument arg.toList with
        | .seen s => readArguments s none args
        | .pending s option => readArguments s (some option) args
        | .stop request => request

/-- What the arguments ask for. -/
def request (args : List String) : Request := readArguments {} none args

/-! ### Running -/

/-- Where a run failed. -/
inductive Stage where
  | load (path : String)
  | chain
  | shifting
  | scheduling
  | code
  | write (path : String)
deriving DecidableEq, Repr

def Stage.message : Stage → String
  | load path => "Failed to load pipeline: " ++ Text.quoted path
  | chain => "Invalid loop chain"
  | shifting => "Automatic shifting failed"
  | scheduling => "Scheduling failed"
  | code => "Code generation failed"
  | write path => "Failed to write output file: " ++ Text.quoted path

/-- A failed run: the stage and what went wrong in it. -/
structure Trouble where
  stage : Stage
  failure : Failure
deriving DecidableEq, Repr

def Trouble.message (t : Trouble) : String := "Error: " ++ t.stage.message

/-- Exit code of a failed run; broken arithmetic has one of its own. -/
def Trouble.exitCode (t : Trouble) : Nat := if t.failure = .aborted then 101 else 1

/-- What is reported beyond the first line. -/
def Trouble.details (t : Trouble) : String := "Caused by:\n    " ++ t.failure.message

/-- Least shifts of the nests, one a line. -/
def shiftLines (shifts : List (Nat × Tuple)) : String :=
  "\n".intercalate (shifts.map fun (k, t) => s!"loop {k}: {t.render}")

/-- What a description gives rise to. -/
def produce (d : Pipeline.Description) (emit : Emit) (engine : Engine) : Except Trouble String :=
  let schedule := d.schedule.mapError (Trouble.mk .scheduling)
  match emit with
  | .shifts => do
    let chain ← d.chain.mapError (Trouble.mk .chain)
    let solver := Linear.BranchAndBound.solver Linear.BranchAndBound.defaultNodeLimit
    let shifts ← (AutoShift.tuples chain true solver).mapError (Trouble.mk .shifting)
    return shiftLines shifts
  | .script => do return (← schedule).script
  | .tree => do
    let tree ← ((← schedule).tree engine).mapError (Trouble.mk .code)
    return tree.outline
  | .code => do ((← schedule).code engine d.codegen).mapError (Trouble.mk .code)

/-- The output of a run; `text` is what the input file holds, if it can be read. -/
def Options.run (o : Options) (text : Option String) (engine : Engine) : Except Trouble String :=
  match text with
  | none => .error ⟨.load o.input, .missingPath⟩
  | some text =>
    match Pipeline.Description.parse? text with
    | none => .error ⟨.load o.input, .malformed⟩
    | some d => produce d o.emit engine

/-- Name and version of the program. -/
def versionLine : String := "loopchain 0.1.0"

def usage : String :=
  "Usage: loopchain [-o FILE] [--emit code|iscc|ast|shifts] [-v] [-q] FILE"

end LoopSched.Cli
