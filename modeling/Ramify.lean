import Ramify.Algebra.Operand
import Ramify.Gallery
import Ramify.Proofs.Action
import Ramify.Proofs.Algebra.Coefficients
import Ramify.Proofs.Algebra.Derivative
import Ramify.Proofs.Algebra.Fraction
import Ramify.Proofs.Algebra.Substitution
import Ramify.Proofs.Algebra.Value
import Ramify.Proofs.Branches
import Ramify.Proofs.Branches.Operations
import Ramify.Proofs.Judge
import Ramify.Proofs.Powers
import Ramify.Proofs.Scalar.Exact
import Ramify.Proofs.Scalar.Rational
import Ramify.Proofs.Scalar.Real
import Ramify.Proofs.Solver.Denial
import Ramify.Proofs.Solver.Elimination
import Ramify.Proofs.Solver.Linear
import Ramify.Proofs.Solver.PurePower
import Ramify.Proofs.Solver.RealRoots
import Ramify.Proofs.Solver.Search
import Ramify.Proofs.Solver.Sound
import Ramify.Proofs.SortedMap
import Ramify.Proofs.Worksheet.Agreement
import Ramify.Proofs.Worksheet.Failures
import Ramify.Proofs.Worksheet.Gather
import Ramify.Proofs.Worksheet.Look
import Ramify.Proofs.Worksheet.Lossless
import Ramify.Proofs.Worksheet.Pass
import Ramify.Proofs.Worksheet.Rational
import Ramify.Proofs.Worksheet.Record
import Ramify.Proofs.Worksheet.Repeat
import Ramify.Proofs.Worksheet.Resolve
import Ramify.Proofs.Worksheet.Settle
import Ramify.Proofs.Worksheet.Unsolvable
import Ramify.Scalar.Binary64
import Ramify.Solver.Methods
import Ramify.Worksheet.Report
import Ramify.Worksheet.Solve
import Ramify.Proofs.Solver.Candidates
import Ramify.Proofs.Worksheet.Adopt
import Ramify.Proofs.Worksheet.Reading
import Ramify.Proofs.Worksheet.Course
import Ramify.Proofs.Worksheet.FixedPoint
import Ramify.Proofs.Worksheet.Shrink
import Ramify.Proofs.Worksheet.Sweep
import Ramify.Proofs.Worksheet.Termination
import Ramify.Proofs.Algebra.Normal
import Ramify.Proofs.Worksheet.Stable
import Ramify.Proofs.Worksheet.Reachable
import Ramify.Proofs.Worksheet.Distinct
import Ramify.Proofs.Worksheet.Isolation
import Ramify.Proofs.Algebra.Symbols
import Ramify.Proofs.Solver.SolvedForm
import Ramify.Proofs.Solver.Echelon
import Ramify.Proofs.Solver.Shape
import Ramify.Proofs.Algebra.Generic
import Ramify.Proofs.Solver.Every
import Ramify.Proofs.Solver.Moves
import Ramify.Proofs.Solver.Zeros
import Ramify.Proofs.Algebra.Canonical
import Ramify.Proofs.Algebra.Promotion
import Ramify.Proofs.Solver.Verbosity
import Ramify.Proofs.Worksheet.Lockstep
import Ramify.Proofs.Worksheet.Turns
import Ramify.Proofs.Worksheet.Hidden
import Ramify.Proofs.Worksheet.Discard
import Ramify.Proofs.Worksheet.Fork
import Ramify.Proofs.Solver.GaussJordan
import Ramify.Proofs.Algebra.Equality
import Ramify.Proofs.Algebra.Evaluation
import Ramify.Proofs.Algebra.Constants
import Ramify.Proofs.Units.Conversion
import Ramify.Proofs.Verdict
import Ramify.Proofs.Algebra.Ring
import Ramify.Proofs.Algebra.Homomorphism
import Ramify.Proofs.Algebra.Overriding
import Ramify.Proofs.Units.Scaling
import Ramify.Proofs.Algebra.Split
import Ramify.Proofs.Units.Homogeneous
import Ramify.Proofs.Solver.UnitRoots
import Ramify.Proofs.Verdict.Symmetry
import Ramify.Proofs.Worksheet.Declare
import Ramify.Proofs.Worksheet.Evidence
import Ramify.Proofs.Units.Draws
import Ramify.Proofs.Solver.Refinement
