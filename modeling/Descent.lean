import Descent.Acceptance.Annealing
import Descent.Acceptance.Cooling
import Descent.Acceptance.Keystream
import Descent.Acceptance.Misconfiguration
import Descent.Acceptance.Tabu
import Descent.Acceptance.TabuList
import Descent.Arithmetic.Binary
import Descent.Arithmetic.Distance
import Descent.Arithmetic.Fault
import Descent.Arithmetic.Hypotenuse
import Descent.Arithmetic.Magnitude
import Descent.Arithmetic.Position
import Descent.Arithmetic.Signed
import Descent.Order.AscendingSet
import Descent.Order.KeyedList
import Descent.Order.Vertex
import Descent.Proofs.Acceptance.Ban
import Descent.Proofs.Acceptance.Cooling
import Descent.Proofs.Acceptance.Latest
import Descent.Proofs.Acceptance.Notices
import Descent.Proofs.Acceptance.Positive
import Descent.Proofs.Acceptance.Ranges
import Descent.Proofs.Acceptance.Stack
import Descent.Proofs.Acceptance.TabuList
import Descent.Proofs.Acceptance.Unsigned
import Descent.Proofs.Comparison
import Descent.Proofs.Exact
import Descent.Proofs.Extended
import Descent.Proofs.Outcome
import Descent.Proofs.Restart
import Descent.Proofs.Room
import Descent.Proofs.Runs
import Descent.Proofs.Search.Commit
import Descent.Proofs.Search.Pass
import Descent.Proofs.Search.Replacement
import Descent.Proofs.Search.Return
import Descent.Proofs.Search.Run
import Descent.Proofs.Search.Tally
import Descent.Proofs.Search.Transcript
import Descent.Proofs.Search.Window
import Descent.Proofs.Siting.Agreement
import Descent.Proofs.Siting.Bookkeeping
import Descent.Proofs.Siting.Coverage
import Descent.Proofs.Siting.Medians
import Descent.Proofs.Siting.Moves
import Descent.Proofs.Siting.Objective
import Descent.Proofs.Siting.Optimum
import Descent.Proofs.Siting.Partition
import Descent.Proofs.Siting.Plan
import Descent.Proofs.Siting.Progress
import Descent.Proofs.Siting.Refusals
import Descent.Proofs.Siting.Room
import Descent.Proofs.Siting.Roster
import Descent.Proofs.Siting.Termination
import Descent.Proofs.Siting.Trail
import Descent.Proofs.Space.Table
import Descent.Proofs.Tour.Edges
import Descent.Proofs.Tour.Exchange
import Descent.Proofs.Tour.Moves
import Descent.Proofs.Tour.Optimum
import Descent.Proofs.Tour.Pairs
import Descent.Proofs.Tour.Rounding
import Descent.Proofs.Tour.Safety
import Descent.Proofs.Tour.Savings
import Descent.Proofs.Voronoi.Changes
import Descent.Proofs.Voronoi.Cost
import Descent.Proofs.Voronoi.History
import Descent.Proofs.Voronoi.Index
import Descent.Proofs.Voronoi.Nearest
import Descent.Proofs.Voronoi.Positions
import Descent.Proofs.Voronoi.Progress
import Descent.Proofs.Voronoi.Queries
import Descent.Proofs.Voronoi.Reachable
import Descent.Proofs.Voronoi.Room
import Descent.Proofs.Voronoi.Turns
import Descent.Proofs.Voronoi.Unbounded
import Descent.Refusal
import Descent.Restart
import Descent.Search.Component
import Descent.Search.Engine
import Descent.Search.Landscape
import Descent.Siting.Medians
import Descent.Siting.Moves
import Descent.Siting.Plan
import Descent.Siting.Roster
import Descent.Siting.Run
import Descent.Siting.Update
import Descent.Space.Basic
import Descent.Space.Plane
import Descent.Space.Table
import Descent.Text.Positional
import Descent.Text.Quoted
import Descent.Tour.Basic
import Descent.Tour.Run
import Descent.Tour.TwoEdge
import Descent.Voronoi.Assignment
import Descent.Voronoi.Basic
import Descent.Voronoi.Delta
import Descent.Proofs.Lookup
