import Milp.Config
import Milp.Constraint
import Milp.Expression.Formula
import Milp.Model.Text
import Milp.Mps.Read
import Milp.Proofs.Constraint
import Milp.Proofs.Formula
import Milp.Proofs.Model.Operations
import Milp.Proofs.Mps.Blocks
import Milp.Proofs.Mps.Cards
import Milp.Proofs.Mps.Layout
import Milp.Proofs.Mps.Meaning
import Milp.Proofs.Mps.Refusals
import Milp.Proofs.Search.Accounts
import Milp.Proofs.Search.AlongPath
import Milp.Proofs.Search.BestFirst
import Milp.Proofs.Search.Configured
import Milp.Proofs.Search.Optimality
import Milp.Proofs.Search.Status
import Milp.Proofs.Simplex.Certificate
import Milp.Proofs.Simplex.Overstep
import Milp.Proofs.Simplex.Upkeep
import Milp.Proofs.Solve
import Milp.Proofs.Solve.Commit
import Milp.Proofs.Solve.Corner
import Milp.Proofs.Solve.Ends
import Milp.Proofs.Solve.History
import Milp.Proofs.Solve.MatrixForm
import Milp.Proofs.Solve.Relaxed
import Milp.Proofs.Solve.Restated
import Milp.Proofs.Solve.Schedule
import Milp.Proofs.Solve.Snapping
import Milp.Proofs.Solve.Truncated
import Milp.Proofs.Solve.Within
import Milp.Proofs.Validation
import Milp.Proofs.Validation.Report
import Milp.Simplex.Lists
import Milp.Solve
import Milp.Validation
