import Autodiff.Scalar
import Autodiff.Decimal
import Autodiff.Handle
import Autodiff.Failure
import Autodiff.Operation
import Autodiff.Graph
import Autodiff.Builder
import Autodiff.TermVector
import Autodiff.Reachability
import Autodiff.Binding
import Autodiff.Sweep
import Autodiff.Substitution
import Autodiff.Recording
import Autodiff.Tape
import Autodiff.TapeEvaluation
import Autodiff.Problem
import Autodiff.Document
import Autodiff.DocumentText
import Autodiff.Dialogue
import Autodiff.Rehearsal
import Autodiff.Points
import Autodiff.Stopping
import Autodiff.LineSearch
import Autodiff.QuasiNewton
import Autodiff.Iterates
import Autodiff.Lagrangian
import Autodiff.PenaltyMethod
import Autodiff.MultiplierMethod
import Autodiff.Multistage
import Autodiff.Minimizer
import Autodiff.Proofs.Storage
import Autodiff.Proofs.Binding
import Autodiff.Proofs.Reachability
import Autodiff.Proofs.Meaning
import Autodiff.Proofs.Adjoints
import Autodiff.Proofs.TapeLayout
import Autodiff.Proofs.TapeForward
import Autodiff.Proofs.TapeReverse
import Autodiff.Proofs.ExactArithmetic
import Autodiff.Proofs.TapeAgreement
import Autodiff.Proofs.Gradient
import Autodiff.Proofs.Dialogue
import Autodiff.Proofs.Rounds
import Autodiff.Proofs.Descent
import Autodiff.Proofs.Counters
import Autodiff.Proofs.DescentDirections
import Autodiff.Proofs.InverseHessian
import Autodiff.Proofs.MonotoneDescent
import Autodiff.Proofs.BinaryRounding
import Autodiff.Proofs.BinaryFloats
import Autodiff.Proofs.BinaryArithmetic
import Autodiff.Proofs.FloatArithmetic
import Autodiff.Proofs.ReturnedPoints
import Autodiff.Proofs.Growing
import Autodiff.Proofs.Building
import Autodiff.Proofs.Keeping
import Autodiff.Proofs.WellFormed
import Autodiff.Proofs.GraphHistory
import Autodiff.Proofs.GrownValues
import Autodiff.Proofs.Rebuilding
import Autodiff.Proofs.Definedness
import Autodiff.Proofs.Substitution
import Autodiff.Proofs.SubstitutionMeaning
import Autodiff.Proofs.SubstitutionAgreement
import Autodiff.Proofs.AugmentedGraph
import Autodiff.Proofs.NewVariables
import Autodiff.Proofs.Operations
import Autodiff.Proofs.Folding
import Autodiff.Proofs.Scripts
import Autodiff.Proofs.ExactBuilding
import Autodiff.Proofs.OrderedArithmetic
import Autodiff.Proofs.InnerProduct
import Autodiff.Proofs.RoundedArithmetic
import Autodiff.Proofs.LagrangianDomain
import Autodiff.Proofs.LagrangianGradient
import Autodiff.Proofs.CompiledObjective
import Autodiff.Proofs.Subproblems
import Autodiff.Proofs.Sequences
import Autodiff.Proofs.SolverSequences
import Autodiff.Proofs.StageSequences
import Autodiff.Proofs.Certificates
import Autodiff.Proofs.Refusals
import Autodiff.Proofs.SafeSolving
import Autodiff.Proofs.LagrangianFailures
import Autodiff.Proofs.LagrangianValues
import Autodiff.Proofs.SharedBuffers
import Autodiff.Proofs.SavedGraphs
import Autodiff.Proofs.StoppingReasons
import Autodiff.Proofs.RecordedSearches
import Autodiff.Proofs.StepArithmetic
import Autodiff.Proofs.BinaryHalving
import Autodiff.Proofs.RangedFloats
import Autodiff.Proofs.SuccessfulSearches
import Autodiff.Proofs.AbandonedSearches
import Autodiff.Proofs.Brackets
import Autodiff.Proofs.StoppedBuilding
import Autodiff.Proofs.ForeignHandles
import Autodiff.Proofs.UnreachedNodes
import Autodiff.Proofs.Outcomes
import Autodiff.Proofs.AcceptedGradients
import Autodiff.Proofs.StageStarts
import Autodiff.Proofs.Preserving
import Autodiff.Proofs.RecordedInvariants
import Autodiff.Proofs.ReducedGraphs
import Autodiff.Proofs.BoundExpressions
import Autodiff.Proofs.ExactReachability
import Autodiff.Proofs.BindingOrder
import Autodiff.Proofs.CheckedLengths
import Autodiff.Proofs.BinaryScaling
import Autodiff.Proofs.ScalingArithmetic
import Autodiff.Proofs.OuterRounds
import Autodiff.Proofs.KeptAnswers
import Autodiff.Proofs.TapeShape
import Autodiff.Proofs.TapeBounds
import Autodiff.Proofs.Denotations
import Autodiff.Proofs.VectorMeaning
import Autodiff.Proofs.MeasuredObjective
