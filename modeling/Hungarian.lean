import Hungarian.Arithmetic
import Hungarian.Arithmetic.Double
import Hungarian.Arithmetic.Exact
import Hungarian.Assignment
import Hungarian.Decimal.Positional
import Hungarian.Demo
import Hungarian.Document.Basic
import Hungarian.Document.Decode
import Hungarian.Document.Numeral
import Hungarian.Error
import Hungarian.Event
import Hungarian.Forbidden
import Hungarian.Main
import Hungarian.Matching
import Hungarian.Matrix.Basic
import Hungarian.Matrix.Build
import Hungarian.Matrix.ColumnMajor
import Hungarian.Matrix.Table
import Hungarian.Memory
import Hungarian.Options
import Hungarian.Potentials
import Hungarian.Problem.Basic
import Hungarian.Problem.Normalize
import Hungarian.Search.Run
import Hungarian.Search.Tree
import Hungarian.Solve
import Hungarian.Solver
import Hungarian.Square
import Hungarian.Stage
import Hungarian.Proofs.Matching.Augment
import Hungarian.Proofs.Matching.Perfect
import Hungarian.Proofs.Search.Trace
import Hungarian.Proofs.Search.Steps
import Hungarian.Proofs.Search.Reuse
import Hungarian.Proofs.Problem.Normalize
import Hungarian.Proofs.Problem.Refusal
import Hungarian.Proofs.Stage.Growth
import Hungarian.Proofs.Assignment.Extract
import Hungarian.Proofs.Assignment.Soundness
import Hungarian.Proofs.Search.Ending
import Hungarian.Proofs.Search.Spanning
import Hungarian.Proofs.Search.Paths
import Hungarian.Proofs.Search.Alternating
import Hungarian.Proofs.Arithmetic.Exact
import Hungarian.Proofs.Arithmetic.Whole
import Hungarian.Proofs.Potentials.Feasible
import Hungarian.Proofs.Assignment.Certificate
import Hungarian.Proofs.Potentials.Range
import Hungarian.Proofs.Search.Balanced
import Hungarian.Proofs.Search.Rescan
import Hungarian.Proofs.Search.Slack
import Hungarian.Proofs.Stage.Visits
import Hungarian.Proofs.Stage.Simulation
import Hungarian.Proofs.Stage.Tightenings
import Hungarian.Proofs.Stage.Failure
import Hungarian.Proofs.Stage.Balanced
import Hungarian.Proofs.Stage.Slackness
import Hungarian.Proofs.Stage.Range
import Hungarian.Proofs.Stage.Course
import Hungarian.Proofs.Stage.Shifted
import Hungarian.Proofs.Problem.Sentinel
import Hungarian.Proofs.Problem.Exact
import Hungarian.Proofs.Problem.Counted
import Hungarian.Proofs.Assignment.Padding
import Hungarian.Proofs.Optimum.Matchings
import Hungarian.Proofs.Optimum.Totals
import Hungarian.Proofs.Optimum.Answer
import Hungarian.Proofs.Optimum.Gap
import Hungarian.Proofs.Optimum.Rise
import Hungarian.Proofs.Optimum.Invariance
import Hungarian.Proofs.Double.Layout
import Hungarian.Proofs.Double.Order
import Hungarian.Proofs.Double.Rounding
import Hungarian.Proofs.Double.Value
import Hungarian.Proofs.Double.Exact
import Hungarian.Proofs.Double.Whole
import Hungarian.Proofs.Double.Progress
import Hungarian.Proofs.Double.Termination
import Hungarian.Proofs.Double.Answer
import Hungarian.Proofs.Double.Success
import Hungarian.Proofs.Double.Finite
import Hungarian.Proofs.Assignment.Stored
import Hungarian.Proofs.Document.Shape
import Hungarian.Proofs.Flat.Access
import Hungarian.Proofs.Flat.Problem
import Hungarian.Proofs.Flat.Potentials
import Hungarian.Proofs.Flat.Matching
import Hungarian.Proofs.Flat.Search
import Hungarian.Proofs.Matrix.Built
import Hungarian.Proofs.Matrix.Scan
import Hungarian.Proofs.Matrix.Faults
import Hungarian.Proofs.Double.Normalize
import Hungarian.Proofs.Assignment.Log
import Hungarian.Proofs.Flat.Solve
import Hungarian.Proofs.Integral.Potentials
import Hungarian.Proofs.Integral.Problem
import Hungarian.Proofs.Integral.Run
import Hungarian.Proofs.Integral.Simulation
import Hungarian.Proofs.Integral.Normalize
import Hungarian.Proofs.Integral.Certificate
import Hungarian.Proofs.Integral.Answer
import Hungarian.Proofs.Integral.Stripped
import Hungarian.Proofs.Potentials.Reduced
import Hungarian.Proofs.Potentials.Furthest
import Hungarian.Proofs.Double.Signs
import Hungarian.Proofs.Double.Reduced
import Hungarian.Proofs.Options.Disallow
import Hungarian.Proofs.Matrix.Views
import Hungarian.Proofs.Matrix.Exchange
