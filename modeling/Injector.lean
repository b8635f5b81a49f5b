import Injector.Draft.Setup
import Injector.Main
import Injector.Proofs.Graph.Consistency
import Injector.Proofs.Wiring.Job
import Injector.Proofs.Wiring.Verdict
import Injector.Proofs.Table.Declarations
import Injector.Proofs.Resolution
import Injector.Proofs.Wiring.Outcome
import Injector.Proofs.Wiring.Extension
import Injector.Proofs.Wiring.Growth
import Injector.Proofs.Wiring.Attempt
import Injector.Proofs.Wiring.Completion
import Injector.Proofs.Wiring.Root
import Injector.Proofs.Graph.Walk
import Injector.Proofs.Graph.Defects
import Injector.Proofs.Graph.Loops
import Injector.Proofs.Plan.Planner
import Injector.Proofs.Plan.Executable
import Injector.Proofs.Report.Completion
import Injector.Proofs.Report.Roots
import Injector.Proofs.Wiring.Silence
import Injector.Proofs.Report.Silence
import Injector.Proofs.Wiring.Chain
import Injector.Proofs.Wiring.Requests
import Injector.Proofs.Wiring.Kept
import Injector.Proofs.Wiring.Creation
import Injector.Proofs.Wiring.Trace
import Injector.Proofs.Wiring.Sharing
import Injector.Proofs.Wiring.Blocks
import Injector.Proofs.Report.Connection
import Injector.Proofs.Graph.Captures
import Injector.Proofs.Graph.Lifetimes
import Injector.Proofs.Report.Resolved
import Injector.Proofs.Report.Confinement
import Injector.Proofs.Plan.Depiction
import Injector.Proofs.Report.Calls
import Injector.Proofs.Wiring.Offers
import Injector.Proofs.Report.Provision
import Injector.Proofs.Wiring.Termination
import Injector.Proofs.Wiring.Needs
import Injector.Proofs.Wiring.Ancestry
import Injector.Proofs.Wiring.Cycles
import Injector.Proofs.Report.FalseLoops
import Injector.Proofs.Graph.Correspondence
import Injector.Proofs.Wiring.Correspondence
import Injector.Proofs.Wiring.Lockstep
import Injector.Proofs.Report.Independence
import Injector.Proofs.Wiring.Touched
import Injector.Proofs.Table.Warnings
import Injector.Proofs.Report.Usage
import Injector.Proofs.TypeExpr.RoundTrip
import Injector.Proofs.TypeExpr.SyntaxErrors
import Injector.Proofs.TypeExpr.Unification
import Injector.Proofs.Resolution.Candidates
import Injector.Proofs.Setup.Order
import Injector.Proofs.Setup.Bases
import Injector.Proofs.Setup.Restriction
import Injector.Proofs.Report.Isolation
import Injector.Proofs.Json.Values
import Injector.Proofs.Datum.Restored
import Injector.Proofs.Setup.Restored
import Injector.Proofs.Setup.Document
import Injector.Proofs.Plan.Creation
import Injector.Proofs.Plan.Disposal
import Injector.Proofs.Report.Disposal
import Injector.Proofs.Graph.Checkpoints
import Injector.Proofs.Wiring.Rejection
import Injector.Proofs.Report.Rejections
import Injector.Proofs.Graph.Places
import Injector.Proofs.Wiring.Outgoing
import Injector.Proofs.Plan.Operands
import Injector.Proofs.Wiring.Fitting
import Injector.Proofs.Report.Fitting
import Injector.Proofs.Report.Separation
import Injector.Proofs.Resolution.Collections
import Injector.Proofs.Table.Failure
import Injector.Proofs.Dictionary
import Injector.Proofs.Report.Division
import Injector.Proofs.Report.Freshness
import Injector.Proofs.Wiring.Segments
import Injector.Proofs.Report.PathCheck
import Injector.Proofs.Graph.Components
import Injector.Proofs.Report.LoopPath
import Injector.Proofs.Wiring.Rotation
import Injector.Proofs.Wiring.Overrides
import Injector.Proofs.Report.Overrides
import Injector.Proofs.Diagnostic.Finish
import Injector.Proofs.Graph.Tree
import Injector.Proofs.Report.Lookup
import Injector.Proofs.Plan.Arguments
import Injector.Proofs.Report.Arguments
import Injector.Proofs.Text.Identifier
