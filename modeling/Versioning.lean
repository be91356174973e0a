import Versioning.Main
import Versioning.Proofs.Scheme.Longest
import Versioning.Proofs.Readback
import Versioning.Proofs.Workflow.Planning
import Versioning.Proofs.Version.Literal
import Versioning.Proofs.Version.RoundTrip
import Versioning.Proofs.Workflow.Refinement
import Versioning.Store.Tree
import Versioning.Proofs.Workflow.Steps
import Versioning.Proofs.Workflow.Order
import Versioning.Proofs.Command.Arguments
import Versioning.Proofs.Command.Effects
import Versioning.Proofs.Workflow.Sharing
import Versioning.Proofs.Rule.ClosedForm
import Versioning.Proofs.Version.Groups
import Versioning.Proofs.Command.Preview
import Versioning.Proofs.Workflow.Sources
import Versioning.Proofs.Workflow.Splicing
import Versioning.Proofs.Workflow.Unchanged
import Versioning.Proofs.Version.WholeNumbers
import Versioning.Proofs.Rule.Forward
import Versioning.Proofs.Workflow.Rewriting
import Versioning.Proofs.Version.Chains
import Versioning.Proofs.Scheme.Brackets
import Versioning.Proofs.Scheme.Pattern
import Versioning.Proofs.Scheme.Nesting
import Versioning.Proofs.Scheme.Matching
import Versioning.Proofs.Version.FiniteMap
