import LoopSched.Access.Collection
import LoopSched.Access.Dataspace
import LoopSched.Access.Tuple.Arith
import LoopSched.Access.Tuple.Basic
import LoopSched.Arith.Binary64
import LoopSched.Arith.Ratio
import LoopSched.Arith.Word
import LoopSched.AutoShift
import LoopSched.Chain
import LoopSched.Cli
import LoopSched.Data.SortedList
import LoopSched.Data.Total
import LoopSched.Dependence
import LoopSched.Domain
import LoopSched.Error
import LoopSched.Format.Access
import LoopSched.Format.Linear
import LoopSched.Format.Pipeline
import LoopSched.Json.Basic
import LoopSched.Json.Decode
import LoopSched.Json.Token
import LoopSched.Layout.Basic
import LoopSched.Layout.Subspace
import LoopSched.Linear.Form
import LoopSched.Linear.Program
import LoopSched.Linear.Relaxation
import LoopSched.Linear.Simplex
import LoopSched.Linear.Solver
import LoopSched.Linear.Tableau
import LoopSched.LoopTree.Basic
import LoopSched.LoopTree.Outline
import LoopSched.LoopTree.Parser
import LoopSched.LoopTree.Printer
import LoopSched.Main
import LoopSched.Pipeline.Basic
import LoopSched.Polyhedral.Map
import LoopSched.Polyhedral.Text
import LoopSched.Schedule.Action
import LoopSched.Schedule.Apply
import LoopSched.Schedule.Basic
import LoopSched.Schedule.Code
import LoopSched.Schedule.Fragment
import LoopSched.Schedule.Transformation
import LoopSched.Text.Blank
import LoopSched.Text.Decimal
import LoopSched.Text.Formatter
import LoopSched.Text.Hidden
import LoopSched.Text.Quoted
import LoopSched.Proofs.Checked
import LoopSched.Proofs.Linear.Dot
import LoopSched.Proofs.Linear.Pivot
import LoopSched.Proofs.Linear.Basis
import LoopSched.Proofs.Linear.Moves
import LoopSched.Proofs.Linear.Start
import LoopSched.Proofs.Linear.Phases
import LoopSched.Proofs.Linear.Relaxation
import LoopSched.Proofs.Linear.Search
import LoopSched.Proofs.AutoShift
import LoopSched.Proofs.Access
import LoopSched.Proofs.SortedList
import LoopSched.Proofs.Dependence
import LoopSched.Proofs.Fusion
import LoopSched.Proofs.Schedule.Rollback
import LoopSched.Proofs.Layout.Arrangement
import LoopSched.Proofs.Layout.Sound
import LoopSched.Proofs.Layout.Frame
import LoopSched.Proofs.Polyhedral.Meaning
import LoopSched.Proofs.Polyhedral.Token
import LoopSched.Proofs.Polyhedral.Grammar
import LoopSched.Proofs.Polyhedral.MapText
import LoopSched.Proofs.Polyhedral.Reading
import LoopSched.Proofs.Polyhedral.Rendering
import LoopSched.Proofs.Schedule.Moves
import LoopSched.Proofs.Schedule.Operation
import LoopSched.Proofs.Schedule.Placement
import LoopSched.Proofs.Schedule.Scope
import LoopSched.Proofs.Schedule.Evolution
import LoopSched.Proofs.Schedule.Coordinates
import LoopSched.Proofs.Schedule.Tilings
import LoopSched.Proofs.Schedule.Spelling
import LoopSched.Proofs.Schedule.Decomposition
import LoopSched.Proofs.Schedule.Order
import LoopSched.Proofs.Linear.Bland
import LoopSched.Proofs.Linear.Answers
import LoopSched.Proofs.Linear.Overflow
import LoopSched.Proofs.Solvability
import LoopSched.Proofs.Text.Formatter
import LoopSched.Proofs.LoopTree.Code
import LoopSched.Proofs.LoopTree.Scan
import LoopSched.Proofs.LoopTree.RoundTrip
import LoopSched.Proofs.Linear.Nodes
import LoopSched.Proofs.Linear.Exact
import LoopSched.Proofs.Linear.Termination
import LoopSched.Proofs.Linear.Substitution
import LoopSched.Proofs.Linear.Unbounded
import LoopSched.Proofs.Linear.Words
import LoopSched.Proofs.Linear.Aborts
import LoopSched.Proofs.Aborts
import LoopSched.Proofs.Linear.NodeLimit
import LoopSched.Proofs.Schedule.Growth
import LoopSched.Proofs.Schedule.Bijection
import LoopSched.Proofs.Linear.Signs
import LoopSched.Proofs.Translation
import LoopSched.Proofs.Shifting
import LoopSched.Proofs.Idempotence
import LoopSched.Proofs.Schedule.Annotations
import LoopSched.Proofs.LoopTree.Words
import LoopSched.Proofs.LoopTree.Renaming
import LoopSched.Proofs.LoopTree.Execution
import LoopSched.Proofs.LoopTree.Capture
import LoopSched.Proofs.LoopTree.Runs
import LoopSched.Proofs.LoopTree.Progress
import LoopSched.Proofs.LoopTree.Lines
import LoopSched.Proofs.Schedule.Pragmas
import LoopSched.Proofs.Distances
import LoopSched.Proofs.Linear.Visits
import LoopSched.Proofs.Layout.Places
import LoopSched.Proofs.Json.Token
import LoopSched.Proofs.Json.Value
import LoopSched.Proofs.Json.Decode
import LoopSched.Proofs.Format.Chain
import LoopSched.Proofs.Format.Pipeline
