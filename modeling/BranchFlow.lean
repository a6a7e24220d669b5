import BranchFlow.Failure
import BranchFlow.Binary64
import BranchFlow.Binary64.Value
import BranchFlow.Order
import BranchFlow.Ratio
import BranchFlow.Probability.Basic
import BranchFlow.Probability.Terms
import BranchFlow.Probability.Value
import BranchFlow.Frequency.Basic
import BranchFlow.Frequency.Scale
import BranchFlow.Frequency.InPlace
import BranchFlow.Frequency.Chain
import BranchFlow.Frequency.SideBySide
import BranchFlow.Frequency.SumTree
import BranchFlow.Text
import BranchFlow.BranchTree
import BranchFlow.Expr
import BranchFlow.Program.State
import BranchFlow.Program.Step
import BranchFlow.Program.Effect
import BranchFlow.Program.Run
import BranchFlow.Program.Footprint
import BranchFlow.Program.Ideal
import BranchFlow.Proofs.Sum
import BranchFlow.Proofs.Scale
import BranchFlow.Proofs.TotalOrder
import BranchFlow.Proofs.Widths
import BranchFlow.Proofs.Refinement
import BranchFlow.Proofs.TreeFlow
import BranchFlow.Proofs.ScalingRun
import BranchFlow.Proofs.ExprValue
import BranchFlow.Proofs.OrderOfEffects
import BranchFlow.Proofs.ValidTerms
import BranchFlow.Proofs.Erasure
import BranchFlow.Proofs.SumTree
import BranchFlow.Proofs.Commutation
import BranchFlow.Proofs.ScaleContract
import BranchFlow.Proofs.EqualRatios
import BranchFlow.Proofs.RoundTrip
import BranchFlow.Proofs.MultiplicationChain
import BranchFlow.Proofs.MultiwayBranch
import BranchFlow.Proofs.Merging
import BranchFlow.Proofs.Repetition
import BranchFlow.Proofs.Rounding
import BranchFlow.Proofs.Percentage
import BranchFlow.Proofs.Sorting
import BranchFlow.Proofs.Complement
import BranchFlow.Proofs.Bounds
import BranchFlow.Proofs.NestedDivision
import BranchFlow.Proofs.SignificantBits
import BranchFlow.Proofs.Decoding
import BranchFlow.Proofs.EntryRelative
import BranchFlow.Proofs.Constructions
