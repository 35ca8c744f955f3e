import LocalScope.Arena.Build
import LocalScope.Main
import LocalScope.Placement.Query
import LocalScope.Proofs.Raising
import LocalScope.Proofs.Planning
import LocalScope.Proofs.Rewriting
import LocalScope.Proofs.Inserting
import LocalScope.Proofs.Folding
import LocalScope.Proofs.Applying
import LocalScope.Proofs.Running
import LocalScope.Proofs.Scoping
import LocalScope.Proofs.Covering
import LocalScope.Proofs.Coverage
import LocalScope.Proofs.Snippets
import LocalScope.Proofs.Grammar
import LocalScope.Proofs.Locality
import LocalScope.Proofs.Confinement
import LocalScope.Proofs.Handing
import LocalScope.Proofs.Reports
import LocalScope.Proofs.Migration
import LocalScope.Proofs.Capture
import LocalScope.Proofs.Execution
import LocalScope.Proofs.Jumping
import LocalScope.Proofs.Soundness
import LocalScope.Proofs.Continuing
import LocalScope.Proofs.Moving
import LocalScope.Proofs.Refusing
import LocalScope.Proofs.Checking
import LocalScope.Proofs.Accounting
import LocalScope.Proofs.RoundTrip
import LocalScope.Proofs.Finality
import LocalScope.Proofs.Settling
import LocalScope.Proofs.Verdicts
import LocalScope.Proofs.Braceless
import LocalScope.Proofs.Marking
import LocalScope.Proofs.Upkeep
import LocalScope.Proofs.Staging
import LocalScope.Proofs.Closing
import LocalScope.Proofs.Hoisting
import LocalScope.Proofs.Renumbering
import LocalScope.Proofs.Shuffling
import LocalScope.Proofs.Rearranging
import LocalScope.Proofs.Tightness
import LocalScope.Proofs.Dropping
import LocalScope.Proofs.Annotating
import LocalScope.Proofs.Exactness
import LocalScope.Proofs.Queueing
import LocalScope.Proofs.Descending
import LocalScope.Proofs.Reordering
