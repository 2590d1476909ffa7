import FlowIR.ControlFlow.Blocks
import FlowIR.Dataflow.Transfer
import FlowIR.Dominance.Sets
import FlowIR.Main
import FlowIR.Proofs.Dominance.Climbing
import FlowIR.Proofs.Graph.Postorder
import FlowIR.Table.Encode
import FlowIR.Proofs.Dominance.Refinement
import FlowIR.Proofs.Dominance.Construction
import FlowIR.Proofs.Dominance.Forest
import FlowIR.Proofs.Dominance.ControlDependence
import FlowIR.Proofs.Dataflow.Solver
import FlowIR.Proofs.Dataflow.GreatestSolution
import FlowIR.Proofs.Link.Ensures
import FlowIR.Proofs.Link.Numbering
import FlowIR.Proofs.Link.Registration
import FlowIR.Proofs.Link.Bijection
import FlowIR.Proofs.Ty.Bisimilarity
import FlowIR.Proofs.Link.Types
import FlowIR.Proofs.Dataflow.Collection
import FlowIR.Proofs.Escape.Contributions
import FlowIR.Proofs.Escape.Summary
import FlowIR.Proofs.Link.WellFormed
import FlowIR.Proofs.Link.Acceptance
import FlowIR.Proofs.Module.Soundness
import FlowIR.Proofs.Module.Text
import FlowIR.Proofs.ControlFlow.Graphs
import FlowIR.Proofs.Dominance.Bounds
import FlowIR.Proofs.Escape.Coherence
import FlowIR.Proofs.Failure
import FlowIR.Proofs.Link.Lookups
import FlowIR.Proofs.Link.Rearrangement
import FlowIR.Proofs.Command.Faultless
import FlowIR.Proofs.Dominance.Sets
import FlowIR.Proofs.Dataflow.Convergence
import FlowIR.Proofs.Dataflow.Revisits
import FlowIR.Proofs.Dataflow.Descent
import FlowIR.Proofs.Escape.Convergence
import FlowIR.Proofs.Escape.Lattice
import FlowIR.Proofs.Escape.Exposure
import FlowIR.Proofs.Decimal.Numeral
import FlowIR.Proofs.Double.Rounding
import FlowIR.Proofs.Double.Shortest
import FlowIR.Proofs.Json.RoundTrip
import FlowIR.Proofs.Table.Records
import FlowIR.Proofs.Table.RoundTrip
import FlowIR.Proofs.Graph.Cycles
import FlowIR.Proofs.Dataflow.SinglePass
import FlowIR.Proofs.Dominance.Unconditional
import FlowIR.Proofs.Graph.Listing
import FlowIR.Proofs.Link.Ownership
import FlowIR.Proofs.ControlFlow.Edges
import FlowIR.Proofs.ControlFlow.Blocks
import FlowIR.Proofs.ControlFlow.Dependence
import FlowIR.Proofs.Link.TypePlaces
import FlowIR.Proofs.Link.OperandNumbers
import FlowIR.Proofs.Dominance.CommonDominators
import FlowIR.Proofs.Graph.RecursiveSearch
import FlowIR.Proofs.Link.OwnerIndex
import FlowIR.Proofs.Graph.Frames
import FlowIR.Proofs.Graph.MergeLaws
import FlowIR.Proofs.Graph.Decomposition
import FlowIR.Proofs.Graph.EdgeMaps
import FlowIR.Proofs.Graph.Dot
import FlowIR.Proofs.Dominance.Stages
import FlowIR.Proofs.ControlFlow.Clusters
import FlowIR.Proofs.Escape.Pointees
import FlowIR.Proofs.Link.ConstantCycles
