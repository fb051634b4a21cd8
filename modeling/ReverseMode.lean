import ReverseMode.Argument.Array
import ReverseMode.Argument.Basic
import ReverseMode.Argument.Call
import ReverseMode.Argument.Initializer
import ReverseMode.Argument.Operator
import ReverseMode.Argument.Seeds
import ReverseMode.Argument.Settings
import ReverseMode.Decimal.Digits
import ReverseMode.Decimal.Shortest
import ReverseMode.Element.Algebra
import ReverseMode.Element.Half
import ReverseMode.Element.Kind
import ReverseMode.Element.Promotion
import ReverseMode.Element.Scalar
import ReverseMode.Element.Text
import ReverseMode.Expression.Arithmetic
import ReverseMode.Expression.Basic
import ReverseMode.Expression.Functions
import ReverseMode.Expression.Layout
import ReverseMode.Expression.Reduction
import ReverseMode.Fault
import ReverseMode.Graph.Backward
import ReverseMode.Graph.Basic
import ReverseMode.Graph.Build
import ReverseMode.Graph.Episode
import ReverseMode.Graph.Export
import ReverseMode.Graph.Forward
import ReverseMode.Graph.Index
import ReverseMode.Graph.Node
import ReverseMode.Graph.Pending
import ReverseMode.Graph.Report
import ReverseMode.Graph.Tape
import ReverseMode.Graph.Written
import ReverseMode.Layer.Apply
import ReverseMode.Layer.Basic
import ReverseMode.Leaf.Counter
import ReverseMode.Leaf.Initializer
import ReverseMode.Leaf.Random
import ReverseMode.Literal.Basic
import ReverseMode.Memory.Allocator
import ReverseMode.Number.Binary
import ReverseMode.Number.Rounding
import ReverseMode.Operator.Basic
import ReverseMode.Operator.Fibres
import ReverseMode.Operator.Gradient
import ReverseMode.Operator.Inference
import ReverseMode.Operator.Pointwise
import ReverseMode.Operator.Rules
import ReverseMode.Operator.Selection
import ReverseMode.Operator.Text
import ReverseMode.Operator.Value
import ReverseMode.Optimizer.Basic
import ReverseMode.Optimizer.Named
import ReverseMode.Plain.Functions
import ReverseMode.Plain.Loose
import ReverseMode.Plain.Trial
import ReverseMode.Proofs.Accounting
import ReverseMode.Proofs.Additions
import ReverseMode.Proofs.Alike
import ReverseMode.Proofs.AllocatorRuns
import ReverseMode.Proofs.ArithmeticDerivatives
import ReverseMode.Proofs.ArrayTypes
import ReverseMode.Proofs.Assignment
import ReverseMode.Proofs.Assurance
import ReverseMode.Proofs.BackwardChecks
import ReverseMode.Proofs.BackwardPass
import ReverseMode.Proofs.BackwardSweep
import ReverseMode.Proofs.Balance
import ReverseMode.Proofs.Blocks
import ReverseMode.Proofs.Broadcast
import ReverseMode.Proofs.Builders
import ReverseMode.Proofs.ChainRule
import ReverseMode.Proofs.Change
import ReverseMode.Proofs.Clearance
import ReverseMode.Proofs.Collapse
import ReverseMode.Proofs.CommonShape
import ReverseMode.Proofs.Comparisons
import ReverseMode.Proofs.Compute
import ReverseMode.Proofs.Construction
import ReverseMode.Proofs.Consumers
import ReverseMode.Proofs.Counts
import ReverseMode.Proofs.CrossEntropy
import ReverseMode.Proofs.Deduplication
import ReverseMode.Proofs.Denotation
import ReverseMode.Proofs.Deposits
import ReverseMode.Proofs.DescentSums
import ReverseMode.Proofs.Digraphs
import ReverseMode.Proofs.Directions
import ReverseMode.Proofs.Draws
import ReverseMode.Proofs.EarlyDrop
import ReverseMode.Proofs.Exact
import ReverseMode.Proofs.ExactUpdates
import ReverseMode.Proofs.FailedComputation
import ReverseMode.Proofs.Faithful
import ReverseMode.Proofs.Fibres
import ReverseMode.Proofs.Filling
import ReverseMode.Proofs.FloatNumbers
import ReverseMode.Proofs.FloatOperations
import ReverseMode.Proofs.FloatOrder
import ReverseMode.Proofs.ForwardPass
import ReverseMode.Proofs.Fractions
import ReverseMode.Proofs.Growth
import ReverseMode.Proofs.Idle
import ReverseMode.Proofs.Inference
import ReverseMode.Proofs.IntegerArithmetic
import ReverseMode.Proofs.IntegerArrays
import ReverseMode.Proofs.Invariant
import ReverseMode.Proofs.Kinds
import ReverseMode.Proofs.LeafExtents
import ReverseMode.Proofs.Ledger
import ReverseMode.Proofs.LiteralIndices
import ReverseMode.Proofs.LiteralSizes
import ReverseMode.Proofs.Lockstep
import ReverseMode.Proofs.LoneParameters
import ReverseMode.Proofs.Lookups
import ReverseMode.Proofs.Matrices
import ReverseMode.Proofs.MatrixProduct
import ReverseMode.Proofs.Moments
import ReverseMode.Proofs.Movement
import ReverseMode.Proofs.Narrowing
import ReverseMode.Proofs.NoRecomputation
import ReverseMode.Proofs.Normalization
import ReverseMode.Proofs.OpenExtents
import ReverseMode.Proofs.OperatorTypes
import ReverseMode.Proofs.Orderly
import ReverseMode.Proofs.Outcome
import ReverseMode.Proofs.PassHistory
import ReverseMode.Proofs.Picks
import ReverseMode.Proofs.Places
import ReverseMode.Proofs.Policy
import ReverseMode.Proofs.Preservation
import ReverseMode.Proofs.Programs
import ReverseMode.Proofs.Ranking
import ReverseMode.Proofs.Reachable
import ReverseMode.Proofs.Reading
import ReverseMode.Proofs.RealElements
import ReverseMode.Proofs.Rearrangement
import ReverseMode.Proofs.Recall
import ReverseMode.Proofs.ReductionDerivatives
import ReverseMode.Proofs.Refusal
import ReverseMode.Proofs.Relocation
import ReverseMode.Proofs.Representation
import ReverseMode.Proofs.Residency
import ReverseMode.Proofs.RingElements
import ReverseMode.Proofs.RingReading
import ReverseMode.Proofs.Rules
import ReverseMode.Proofs.SampleTexts
import ReverseMode.Proofs.ScalarProduct
import ReverseMode.Proofs.Schedule
import ReverseMode.Proofs.SelectionTotals
import ReverseMode.Proofs.Shares
import ReverseMode.Proofs.ShiftInvariance
import ReverseMode.Proofs.Slicing
import ReverseMode.Proofs.Slot
import ReverseMode.Proofs.Sound
import ReverseMode.Proofs.Storage
import ReverseMode.Proofs.StoredLiterals
import ReverseMode.Proofs.Subtraction
import ReverseMode.Proofs.SummingBack
import ReverseMode.Proofs.Sweep
import ReverseMode.Proofs.Tally
import ReverseMode.Proofs.TapeLookups
import ReverseMode.Proofs.TopEntries
import ReverseMode.Proofs.Trace
import ReverseMode.Proofs.Trajectories
import ReverseMode.Proofs.TypedCalls
import ReverseMode.Proofs.TypedPasses
import ReverseMode.Proofs.TypedSessions
import ReverseMode.Proofs.TypedState
import ReverseMode.Proofs.TypedSteps
import ReverseMode.Proofs.Typing
import ReverseMode.Proofs.UpdateFormulas
import ReverseMode.Proofs.UpdateRules
import ReverseMode.Proofs.ValueShapes
import ReverseMode.Proofs.Values
import ReverseMode.Proofs.Visiting
import ReverseMode.Proofs.Walk
import ReverseMode.Proofs.WeightedAverage
import ReverseMode.Proofs.WeightedMoments
import ReverseMode.Proofs.WellFormed
import ReverseMode.Proofs.WholeFloats
import ReverseMode.Proofs.Worklist
import ReverseMode.Proofs.Zeros
import ReverseMode.Session.Basic
import ReverseMode.Shape.Axis
import ReverseMode.Shape.Basic
import ReverseMode.Shape.Broadcast
import ReverseMode.Shape.Resolve
import ReverseMode.Tensor.Basic
import ReverseMode.Tensor.Combine
import ReverseMode.Tensor.Fibre
import ReverseMode.Tensor.Pick
import ReverseMode.Tensor.Product
import ReverseMode.Tensor.Sum
import ReverseMode.Tensor.Text
import ReverseMode.Text.Numeral
import ReverseMode.Text.Quoted
import ReverseMode.Text.Unprintable
