import TaskAllocation.Draw.Scripted
import TaskAllocation.Json.Reader
import TaskAllocation.CommandLine.FileTree
import TaskAllocation.CommandLine.Session
import TaskAllocation.Main
import TaskAllocation.Proofs.Forest.Links
import TaskAllocation.Proofs.Forest.Lineage
import TaskAllocation.Proofs.Forest.Coherence
import TaskAllocation.Proofs.Decomposition.Correspondence
import TaskAllocation.Proofs.Decomposition.Walk
import TaskAllocation.Proofs.Decomposition.Growth
import TaskAllocation.Proofs.Decomposition.Outline
import TaskAllocation.Proofs.Decomposition.Neighbourhood
import TaskAllocation.Proofs.Executive.Focus
import TaskAllocation.Proofs.Executive.Timestep
import TaskAllocation.Proofs.Executive.Neighbourhood
import TaskAllocation.Proofs.Executive.Calls
import TaskAllocation.Proofs.Executive.Timing
import TaskAllocation.Proofs.Executive.Episodes
import TaskAllocation.Proofs.Executive.Learning
import TaskAllocation.Proofs.Config.Hierarchy
import TaskAllocation.Proofs.Config.Reflection
import TaskAllocation.Proofs.Config.Topology
import TaskAllocation.Proofs.Simulation.Estimates
import TaskAllocation.Proofs.Config.Ordering
import TaskAllocation.Proofs.Decomposition.Locality
import TaskAllocation.Proofs.Decomposition.Admission
import TaskAllocation.Proofs.Decomposition.Level
import TaskAllocation.Proofs.Executive.OneWay
import TaskAllocation.Proofs.Decomposition.Access
import TaskAllocation.Proofs.Executive.Access
import TaskAllocation.Proofs.Decomposition.Selection
import TaskAllocation.Proofs.Executive.Abortions
import TaskAllocation.Proofs.Simulation.Counting
import TaskAllocation.Proofs.Simulation.Traces
import TaskAllocation.Proofs.Document.Scanner
import TaskAllocation.Proofs.Document.Omission
import TaskAllocation.Proofs.Decimal.Rounding
import TaskAllocation.Proofs.Decimal.Encoding
import TaskAllocation.Proofs.Decimal.Reading
import TaskAllocation.Proofs.Decimal.Shortest
import TaskAllocation.Proofs.Toml.Quoted
import TaskAllocation.Proofs.Toml.Scalar
import TaskAllocation.Proofs.Toml.Number
import TaskAllocation.Proofs.Toml.Value
import TaskAllocation.Proofs.Toml.Line
import TaskAllocation.Proofs.Toml.Table
import TaskAllocation.Proofs.Toml.RoundTrip
import TaskAllocation.Proofs.Config.RoundTrip
import TaskAllocation.Proofs.Decomposition.Splitting
import TaskAllocation.Proofs.Decomposition.Movement
import TaskAllocation.Proofs.Decomposition.Recovery
import TaskAllocation.Proofs.Config.Validation
import TaskAllocation.Proofs.Double.Order
import TaskAllocation.Proofs.Double.Rounding
import TaskAllocation.Proofs.Double.Arithmetic
import TaskAllocation.Proofs.Double.Curves
import TaskAllocation.Proofs.Executive.Probabilities
import TaskAllocation.Proofs.Simulation.Probabilities
import TaskAllocation.Proofs.Forest.Descent
import TaskAllocation.Proofs.Forest.Connection
import TaskAllocation.Proofs.Decomposition.Hierarchy
import TaskAllocation.Proofs.Decomposition.Deepest
import TaskAllocation.Proofs.Decomposition.Choice
import TaskAllocation.Proofs.Decomposition.Cheapest
import TaskAllocation.Proofs.Executive.Cheapest
import TaskAllocation.Proofs.Decomposition.Signals
import TaskAllocation.Proofs.Exact.Mean
import TaskAllocation.Proofs.Exact.Curves
import TaskAllocation.Proofs.Forest.Loops
import TaskAllocation.Proofs.Decomposition.Loops
