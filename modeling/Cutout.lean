import Cutout.Main
import Cutout.Progress
import Cutout.Bits
import Cutout.Proofs.Closure
import Cutout.Proofs.Memberships
import Cutout.Proofs.Walks
import Cutout.Proofs.Hooks
import Cutout.Proofs.Systems
import Cutout.Proofs.FirstNode
import Cutout.Proofs.Passes
import Cutout.Proofs.Sorted
import Cutout.Proofs.Steps
import Cutout.Proofs.Runs
import Cutout.Proofs.Exactness
import Cutout.Proofs.Completeness
import Cutout.Proofs.Independence
import Cutout.Proofs.Repetition
import Cutout.Proofs.Agreement
import Cutout.Proofs.Areas
import Cutout.Proofs.Skipping
import Cutout.Proofs.Cuts
import Cutout.Proofs.Rejection
import Cutout.Proofs.Calls
import Cutout.Proofs.Range
import Cutout.Proofs.Relay
import Cutout.Proofs.Outputs
import Cutout.Proofs.Delivery
import Cutout.Proofs.Records
import Cutout.Proofs.Shown
import Cutout.Proofs.Stripping
import Cutout.Proofs.Collisions
import Cutout.Proofs.XmlDocuments
import Cutout.Proofs.Selections
import Cutout.Proofs.Rounding
import Cutout.Proofs.JsonNumbers
import Cutout.Proofs.JsonReader
import Cutout.Proofs.JsonElements
import Cutout.Proofs.Histories
import Cutout.Proofs.FiniteSets
import Cutout.Proofs.Indexes
import Cutout.Proofs.Ordering
import Cutout.Proofs.Shares
import Cutout.Proofs.WayTests
import Cutout.Proofs.Pulls
import Cutout.Proofs.Clearances
import Cutout.Proofs.Envelopes
import Cutout.Proofs.Validation
import Cutout.Proofs.Loading
import Cutout.Proofs.Overrides
import Cutout.Proofs.Instants
import Cutout.Proofs.OneBits
import Cutout.Proofs.Percentages
import Cutout.Proofs.Coordinates
import Cutout.Proofs.Documents
