import Keyspace.Catalog
import Keyspace.FaultyDatabase
import Keyspace.Json.Ranges
import Keyspace.Proofs.Archive
import Keyspace.Proofs.Attempts
import Keyspace.Proofs.Phantom
import Keyspace.Proofs.TypedIndex
import Keyspace.RangeSet.Update
import Keyspace.Settings.Reader
import Keyspace.Proofs.RangeAlgebra
import Keyspace.Proofs.WellFormed
import Keyspace.Proofs.Compatibility
import Keyspace.Proofs.AtomicSession
import Keyspace.Proofs.Writes
import Keyspace.Proofs.CommitDecision
import Keyspace.Proofs.Snapshots
import Keyspace.Proofs.Decoding
import Keyspace.Proofs.Faithful
import Keyspace.Proofs.Watch
import Keyspace.Proofs.Differences
import Keyspace.Proofs.Admission
import Keyspace.Proofs.Consistency
import Keyspace.Proofs.Counters
import Keyspace.Proofs.Editions
import Keyspace.Proofs.IndexInfos
import Keyspace.Proofs.RangeText
import Keyspace.Proofs.Footprint
import Keyspace.Proofs.Frame
import Keyspace.Proofs.Placement
