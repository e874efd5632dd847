import CallFlow.Main
import CallFlow.Proofs.Outline.Acceptance
import CallFlow.Proofs.Project.Documentation
import CallFlow.Proofs.Flow.Reachability
import CallFlow.Proofs.Flow.Discovery
import CallFlow.Proofs.Flow.Misses
import CallFlow.Proofs.Flow.Unrelated
import CallFlow.Proofs.Flow.Order
import CallFlow.Proofs.Flow.Depth
import CallFlow.Proofs.Flow.Targets
import CallFlow.Proofs.Flow.Safety
import CallFlow.Proofs.Project.Candidates
import CallFlow.Proofs.Project.Imports
import CallFlow.Proofs.Tree.Places
import CallFlow.Proofs.Project.CallOrigins
import CallFlow.Proofs.Outline.DocComments
import CallFlow.Proofs.Project.DocLayout
import CallFlow.Proofs.Flow.Indentation
import CallFlow.Proofs.Directory.Build
import CallFlow.Proofs.Prompt
import CallFlow.Proofs.Flow.Entries
import CallFlow.Proofs.Command.Listing
import CallFlow.Proofs.Directory.Reading
import CallFlow.Proofs.Directory.Discovery
import CallFlow.Proofs.Tree.Trails
import CallFlow.Proofs.Directory.Extensions
