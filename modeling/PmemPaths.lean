import PmemPaths.Config.Document
import PmemPaths.Config.Settings
import PmemPaths.Config.Strategy
import PmemPaths.Execution.Merge
import PmemPaths.Execution.ProcessTree
import PmemPaths.Execution.Scheduling
import PmemPaths.Execution.State
import PmemPaths.Execution.ThreadUid
import PmemPaths.Graph.Components
import PmemPaths.Ir.Id
import PmemPaths.Ir.Listing
import PmemPaths.Ir.Module
import PmemPaths.Mapping.Fault
import PmemPaths.Mapping.File
import PmemPaths.Mapping.Host
import PmemPaths.Mapping.Model
import PmemPaths.Memory.AddressSpace
import PmemPaths.Memory.Object
import PmemPaths.Nvm.Activation
import PmemPaths.Nvm.Checked
import PmemPaths.Nvm.Context
import PmemPaths.Nvm.Dynamic
import PmemPaths.Nvm.Facts
import PmemPaths.Nvm.Heuristic
import PmemPaths.Nvm.Priority
import PmemPaths.Nvm.Session
import PmemPaths.Nvm.Static
import PmemPaths.Outcome
import PmemPaths.PointsTo.Constraint
import PmemPaths.PointsTo.Solution
import PmemPaths.Proofs.Execution.ArrayNames
import PmemPaths.Proofs.Execution.Frames
import PmemPaths.Proofs.Execution.Lineage
import PmemPaths.Proofs.Ir.Closed
import PmemPaths.Proofs.Mapping.Bounds
import PmemPaths.Proofs.Mapping.Counts
import PmemPaths.Proofs.Mapping.Failing
import PmemPaths.Proofs.Mapping.Mirror
import PmemPaths.Proofs.Mapping.Release
import PmemPaths.Proofs.Memory.Merging
import PmemPaths.Proofs.Nvm.CallStack
import PmemPaths.Proofs.Nvm.Desk
import PmemPaths.Proofs.Nvm.Entering
import PmemPaths.Proofs.Nvm.Equations
import PmemPaths.Proofs.Nvm.InSync
import PmemPaths.Proofs.Nvm.Learning
import PmemPaths.Proofs.Nvm.Outline
import PmemPaths.Proofs.Nvm.Queries
import PmemPaths.Proofs.Nvm.Recursion
import PmemPaths.Proofs.Nvm.Resolved
import PmemPaths.Proofs.Nvm.Transfer
import PmemPaths.Proofs.PointsTo.Dangling
import PmemPaths.Proofs.PointsTo.Least
import PmemPaths.Proofs.RootCause.Bookkeeping
import PmemPaths.Proofs.RootCause.Hiding
import PmemPaths.Proofs.Symbolic.Ending
import PmemPaths.Proofs.Symbolic.Settled
import PmemPaths.RootCause.Ledger
import PmemPaths.RootCause.Location
import PmemPaths.Symbolic.Fold
import PmemPaths.Symbolic.PathCondition
import PmemPaths.Symbolic.Replace
import PmemPaths.Symbolic.Term
import PmemPaths.Text.Blank
import PmemPaths.Text.Column
import PmemPaths.Text.Percent
import PmemPaths.Yaml.Cell
import PmemPaths.Yaml.Node
import PmemPaths.Yaml.Plain
import PmemPaths.Yaml.Scalar
import PmemPaths.Yaml.Style
