import Interleave.Catalog.Declaration
import Interleave.Config.Reader
import Interleave.Execution
import Interleave.Proofs.Codec.Body
import Interleave.Proofs.Codec.Sortable
import Interleave.Proofs.Codec.ValueOrder
import Interleave.Proofs.Codec.WholeFloats
import Interleave.Proofs.Codec.KeyForms
import Interleave.Proofs.Key.Paths
import Interleave.Proofs.Key.Preorder
import Interleave.Proofs.Key.PathOrder
import Interleave.Proofs.Key.IndexRanges
import Interleave.Proofs.Storage.CursorRuns
import Interleave.Proofs.Storage.CursorMoves
import Interleave.Proofs.Storage.Tables
import Interleave.Proofs.Storage.Extensions
import Interleave.Proofs.Catalog.Forest
import Interleave.Proofs.Catalog.Lineage
import Interleave.Proofs.Catalog.Indexes
import Interleave.Proofs.Store.Mirror
import Interleave.Proofs.Store.Seats
import Interleave.Proofs.Store.Changes
import Interleave.Proofs.Store.Runs
import Interleave.Proofs.Store.Consistency
import Interleave.Proofs.Store.Ledger
import Interleave.Proofs.Store.Placement
import Interleave.Proofs.Store.Orders
import Interleave.Proofs.Store.Ancestry
import Interleave.Proofs.Store.Arrivals
import Interleave.Proofs.Store.Parents
import Interleave.Proofs.Pipeline.Nesting
import Interleave.Proofs.Pipeline.Production
import Interleave.Proofs.Pipeline.GroupStream
import Interleave.Proofs.Pipeline.Stages
import Interleave.Proofs.Pipeline.IndexStream
import Interleave.Proofs.Pipeline.Rearrangement
import Interleave.Proofs.Plan.FlattenChain
import Interleave.Proofs.Plan.Scans
import Interleave.Proofs.Key.Legible
import Interleave.Proofs.Key.Chains
import Interleave.Proofs.Store.Contents
import Interleave.Proofs.Store.AccessPaths
import Interleave.Proofs.Pipeline.Expansion
import Interleave.Proofs.Plan.Lookups
import Interleave.Proofs.Pipeline.Bookkeeping
import Interleave.Proofs.Pipeline.Pruning
import Interleave.Proofs.Store.Attachment
import Interleave.Proofs.Store.Detachment
import Interleave.Proofs.Store.Endings
import Interleave.Proofs.Store.Commits
import Interleave.Proofs.Pipeline.Renewal
import Interleave.Proofs.Pipeline.Remaining
import Interleave.Proofs.Pipeline.Lineups
import Interleave.Proofs.Pipeline.Protocol
import Interleave.Proofs.Pipeline.Safety
import Interleave.Proofs.Plan.Reruns
import Interleave.Proofs.Plan.Safety
import Interleave.Proofs.Plan.IndexJoins
import Interleave.Proofs.Codec.TupleOrder
import Interleave.Proofs.Key.SegmentEnds
import Interleave.Proofs.Plan.IndexFilters
import Interleave.Proofs.Codec.Rows
import Interleave.Proofs.Key.Buffers
import Interleave.Proofs.Catalog.Admission
import Interleave.Proofs.Catalog.Trees
import Interleave.Proofs.Catalog.ColumnNames
import Interleave.Proofs.Pipeline.Tallies
import Interleave.Proofs.Plan.Conservation
