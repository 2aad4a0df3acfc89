import LoopSched.Access.Tuple.Basic
import LoopSched.Linear.Solver

/-!
# Failures

Every way in which building or transforming a schedule fails, as a cause with the numbers and names
that belong to it.  `kind` sorts the causes into families and `message` is the text for the user.
-/

namespace LoopSched

/-! ### Dimensions -/

/-- Families of dimension errors. -/
inductive DimensionKind where
  | tupleMismatch
  | collectionMismatch
  | dataspaceMismatch
  | invalidDomain
  | extentMismatch
  | subspaceMismatch
  | overflow
deriving DecidableEq, Repr

/-- Two things of different width met, or something has no width at all. -/
inductive DimensionError where
  | tupleWidths (left right : Nat)
  | combineOverflow (tuple : Tuple)
  | negateOverflow (tuple : Tuple)
  | widthUnknown
  | widthZero
  | memberWidth (member : Tuple) (width : Nat)
  | unionWidths (left right : Nat)
  | extentWidth (extent collection : Nat)
  | shiftExtents (loop given expected : Nat)
  | accessWidths (name : String) (reads writes : Nat)
  | dataspaceWidth (name : String) (loop width dimensions : Nat)
  | domainEmpty
  | boundBlank (dimension : Nat)
  | tooFewIterators (available needed : Nat)
deriving DecidableEq, Repr

namespace DimensionError

def kind : DimensionError → DimensionKind
  | tupleWidths .. => .tupleMismatch
  | combineOverflow .. | negateOverflow .. => .overflow
  | widthUnknown | widthZero | memberWidth .. | unionWidths .. => .collectionMismatch
  | extentWidth .. | shiftExtents .. => .extentMismatch
  | accessWidths .. | dataspaceWidth .. => .dataspaceMismatch
  | domainEmpty | boundBlank .. => .invalidDomain
  | tooFewIterators .. => .subspaceMismatch

def message : DimensionError → String
  | tupleWidths left right => s!"Tuples are of different dimensionality {left} {right}"
  | combineOverflow tuple => s!"Overflow combining tuple {tuple.render}"
  | negateOverflow tuple => s!"Overflow negating tuple {tuple.render}"
  | widthUnknown => "Dimensionality must be specified for collection with no initial set."
  | widthZero => "Collections must have one or more dimensions."
  | memberWidth member width =>
    s!"Not all tuples are of the same dimensionality: {member.render} is not {width}-dimensional"
  | unionWidths left right => s!"Cannot union collections of dimensionality {left} and {right}"
  | extentWidth extent collection =>
    s!"Shift extent dimensionality ({extent}) differs from collection ({collection})"
  | shiftExtents loop given expected =>
    s!"Dimensionality of extent of shift on loop {loop} is not equal ({given}) " ++
      s!"to the dimensionality of the loop ({expected})"
  | accessWidths name reads writes =>
    s!"Read/Write sets of {name} are of different dimensionality ({reads} vs {writes})"
  | dataspaceWidth name loop width dimensions =>
    s!"Dataspace {name} of loop {loop} has {width} dimensions, the loop has {dimensions}"
  | domainEmpty => "Cannot have domain with fewer than one dimension"
  | boundBlank dimension => s!"Bound of dimension {dimension} is empty"
  | tooFewIterators available needed =>
    s!"There are fewer iterators in that subspace ({available}) than needed by count ({needed})."

end DimensionError

/-! ### Configuration -/

/-- Families of configuration errors. -/
inductive ConfigKind where
  | unknownLoop
  | invalidTileSize
  | emptyFusion
  | invalidSubspace
  | negativeIteratorLength
  | invalidPipeline
deriving DecidableEq, Repr

/-- What a transformation or a schedule was told to do cannot be done. -/
inductive ConfigCause where
  | unknownLoop (loop count : Nat)
  | tileSizeCount (given loop dimensions : Nat)
  | tileTooWide
  | tileNothing
  | tileNotPositive (size : Int)
  | tileSizeBlank (dimension : Nat)
  | fusionOfNothing
  | unmanagedSubspace (id : Nat)
  | nothingAfterLoops
  | nothingToFuseInto
  | nothingToSkew
  | negativeLength (length delta : Int)
  | accessWidthUnknown (dataspace : String)
  | tileSizeChoice
deriving DecidableEq, Repr

namespace ConfigCause

def kind : ConfigCause → ConfigKind
  | unknownLoop .. => .unknownLoop
  | tileSizeCount .. | tileTooWide | tileNothing | tileNotPositive .. | tileSizeBlank .. =>
    .invalidTileSize
  | fusionOfNothing => .emptyFusion
  | unmanagedSubspace .. | nothingAfterLoops | nothingToFuseInto | nothingToSkew =>
    .invalidSubspace
  | negativeLength .. => .negativeIteratorLength
  | accessWidthUnknown .. | tileSizeChoice => .invalidPipeline

def message : ConfigCause → String
  | unknownLoop loop count => s!"Loop {loop} is not part of a chain of {count} loops"
  | tileSizeCount given loop dimensions =>
    s!"{given} tile sizes given for loop {loop} of {dimensions} dimensions"
  | tileTooWide => "Tiling more dimensions than exist in the subspace."
  | tileNothing => "Nothing to tile"
  | tileNotPositive size => s!"Tile size {size} is not positive"
  | tileSizeBlank dimension => s!"Tile size of dimension {dimension} is empty"
  | fusionOfNothing => "Must fuse one or more loops"
  | unmanagedSubspace id => s!"Subspace #{id} is not managed by this schedule"
  | nothingAfterLoops => "No subspace follows the loops subspace"
  | nothingToFuseInto => "Given subspace is the last subspace. Cannot form fusion."
  | nothingToSkew => "Cannot skew a subspace without variables"
  | negativeLength length delta => s!"Cannot change iterator length {length} by {delta}"
  | accessWidthUnknown dataspace => s!"Dataspace {dataspace} has no accesses and no dimensions"
  | tileSizeChoice => "A tile takes exactly one of size or sizes"

end ConfigCause

/-- A cause and the transformation it arose in, if any. -/
structure ConfigError where
  cause : ConfigCause
  transform : Option String := none
deriving DecidableEq, Repr

namespace ConfigError

/-- The same error, as raised by the named transformation. -/
def within (e : ConfigError) (transform : String) : ConfigError :=
  { e with transform := some transform }

def message (e : ConfigError) : String :=
  match e.transform with
  | none => e.cause.message
  | some transform => e.cause.message ++ " in " ++ transform

end ConfigError

/-! ### Solver and engine -/

/-- The solver left the shifts for a fusion open. -/
inductive SolverError where
  | shiftsNotFound (solver : String) (status : Linear.Status)
  | shiftNotIntegral (loop : Nat) (status : Linear.Status)
deriving DecidableEq, Repr

namespace SolverError

def status : SolverError → Linear.Status
  | shiftsNotFound _ status => status
  | shiftNotIntegral _ status => status

def message (e : SolverError) : String :=
  let text := match e with
    | shiftsNotFound solver _ => s!"{solver} could not find the shifts for fusion"
    | shiftNotIntegral loop _ => s!"shift of loop {loop} is not integral"
  s!"{text} (status: {e.status.text})"

end SolverError

/-- What is wrong with loop code. -/
inductive SyntaxFault where
  | expected (c : Char)
  | unbalancedParenthesis
  | unexpectedEnd
  | unterminatedBlock
  | malformedHeader
  | noInitializer
  | noIterator
  | unterminatedStatement
deriving DecidableEq, Repr

def SyntaxFault.message : SyntaxFault → String
  | expected c => "expected '" ++ c.toString ++ "'"
  | unbalancedParenthesis => "unbalanced parenthesis"
  | unexpectedEnd => "unexpected end of input"
  | unterminatedBlock => "unterminated block"
  | malformedHeader => "malformed for header"
  | noInitializer => "for loop without initializer"
  | noIterator => "for loop without iterator"
  | unterminatedStatement => "statement without terminating ';'"

/-- The polyhedral engine is missing, or its output cannot be read. -/
inductive EngineError where
  | notFound
  | syntaxError (fault : SyntaxFault) (line : Nat)
deriving DecidableEq, Repr

def EngineError.message : EngineError → String
  | notFound =>
    "ISL not found. Install with: brew install isl (macOS) or apt install isl-utils (Linux)"
  | syntaxError fault line => s!"Failed to parse ISL output: {fault.message} at line {line}"

/-! ### All together -/

/-- Why a scheduling step failed. -/
inductive Failure where
  | dimension (error : DimensionError)
  | config (error : ConfigError)
  | solver (error : SolverError)
  | engine (error : EngineError)
  /-- A file or its directory does not exist. -/
  | missingPath
  /-- A description is not the JSON it has to be. -/
  | malformed
  /-- Word arithmetic left its range in a step that cannot report it. -/
  | aborted
deriving DecidableEq, Repr

def Failure.message : Failure → String
  | dimension e => "Dimensionality error: " ++ e.message
  | config e => "Configuration error: " ++ e.message
  | solver e => "Solver error: " ++ e.message
  | engine e => "Polyhedral engine error: " ++ e.message
  | missingPath => "I/O error: No such file or directory (os error 2)"
  | malformed => "Pipeline description error"
  | aborted => "Arithmetic overflow"

instance : Coe DimensionError Failure := ⟨.dimension⟩

instance : Coe ConfigError Failure := ⟨.config⟩

instance : Coe SolverError Failure := ⟨.solver⟩

instance : Coe EngineError Failure := ⟨.engine⟩

/-- A configuration error of the named transformation. -/
def Failure.ofCause (cause : ConfigCause) (transform : String) : Failure :=
  .config ⟨cause, some transform⟩

end LoopSched
