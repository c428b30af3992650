import VersionedIndex.Config.Json
import VersionedIndex.Index.Check
import VersionedIndex.Index.Size
import VersionedIndex.Table.Vacuum
import VersionedIndex.Value.Json
import VersionedIndex.Proofs.Index.Refinement
import VersionedIndex.Proofs.Index.Runs
import VersionedIndex.Proofs.Table.Snapshot
import VersionedIndex.Proofs.Table.Unique
import VersionedIndex.Proofs.Table.Reinsertion
import VersionedIndex.Proofs.Table.Sharing
import VersionedIndex.Proofs.Table.Alignment
import VersionedIndex.Proofs.Table.Failures
import VersionedIndex.Proofs.Table.Books
import VersionedIndex.Proofs.Table.Conflicts
import VersionedIndex.Proofs.Table.Garbage
import VersionedIndex.Proofs.Index.Iteration
import VersionedIndex.Proofs.Index.Searches
import VersionedIndex.Proofs.Index.Sessions
import VersionedIndex.Proofs.Index.Admission
import VersionedIndex.Proofs.Index.Independence
import VersionedIndex.Proofs.Table.Backfill
import VersionedIndex.Proofs.Table.Numbering
import VersionedIndex.Proofs.Order.Mixtures
import VersionedIndex.Proofs.Index.Deletion
import VersionedIndex.Proofs.Index.Landing
import VersionedIndex.Proofs.Table.Pending
import VersionedIndex.Proofs.Order.Numbers
import VersionedIndex.Proofs.Index.Distinct
import VersionedIndex.Proofs.Index.NotNull
import VersionedIndex.Proofs.Index.Slots
import VersionedIndex.Proofs.Index.Integrity
import VersionedIndex.Proofs.Table.Find
import VersionedIndex.Proofs.Json.RoundTrip
import VersionedIndex.Proofs.Index.Cuts
import VersionedIndex.Proofs.Tree.Neighbours
