import Vecvec.Basic
import Vecvec.Collection.Alone
import Vecvec.Collection.Calls
import Vecvec.Collection.Compacts
import Vecvec.Collection.Counts
import Vecvec.Collection.Dangling
import Vecvec.Collection.Deletes
import Vecvec.Collection.Difference
import Vecvec.Collection.Exact
import Vecvec.Collection.Filtered
import Vecvec.Collection.Growth
import Vecvec.Collection.Histories
import Vecvec.Collection.Isolation
import Vecvec.Collection.Known
import Vecvec.Collection.Limits
import Vecvec.Collection.Paging
import Vecvec.Collection.Reclaim
import Vecvec.Collection.Recommend
import Vecvec.Collection.Restores
import Vecvec.Collection.Shown
import Vecvec.Collection.Standing
import Vecvec.Collection.State
import Vecvec.Collection.TimeTravel
import Vecvec.Distance.Kernels
import Vecvec.Durable.Acked
import Vecvec.Durable.Adrift
import Vecvec.Durable.Allocator
import Vecvec.Durable.Alone
import Vecvec.Durable.Batches
import Vecvec.Durable.Calls
import Vecvec.Durable.Effects
import Vecvec.Durable.Entries
import Vecvec.Durable.FailedBatch
import Vecvec.Durable.FailedCheckpoint
import Vecvec.Durable.Faults
import Vecvec.Durable.Ledger
import Vecvec.Durable.Locking
import Vecvec.Durable.Log
import Vecvec.Durable.Maintenance
import Vecvec.Durable.Names
import Vecvec.Durable.Outlives
import Vecvec.Durable.Recovery
import Vecvec.Durable.Reopen
import Vecvec.Durable.Requests
import Vecvec.Durable.Restored
import Vecvec.Durable.Retries
import Vecvec.Durable.Runs
import Vecvec.Durable.Script
import Vecvec.Durable.Secured
import Vecvec.Durable.Shown
import Vecvec.Durable.Standing
import Vecvec.Durable.State
import Vecvec.Durable.Torn
import Vecvec.Durable.Trigger
import Vecvec.Durable.Writes
import Vecvec.Hnsw.Builder
import Vecvec.Hnsw.Codec
import Vecvec.Hnsw.Complete
import Vecvec.Hnsw.Diverse
import Vecvec.Hnsw.Fetch
import Vecvec.Hnsw.Graph
import Vecvec.Hnsw.Heuristic
import Vecvec.Hnsw.Index
import Vecvec.Hnsw.Interleaved
import Vecvec.Hnsw.Levels
import Vecvec.Hnsw.Parallel
import Vecvec.Hnsw.Reach
import Vecvec.Hnsw.Sealed
import Vecvec.Hnsw.Search
import Vecvec.Hnsw.Seed
import Vecvec.Hnsw.Sequential
import Vecvec.Hnsw.Serial
import Vecvec.Hnsw.Sound
import Vecvec.Hnsw.Visited
import Vecvec.Hnsw.VisitedPool
import Vecvec.Hnsw.Wired
import Vecvec.Index.Deleted
import Vecvec.Index.Exact
import Vecvec.Index.Flat
import Vecvec.Index.TopK
import Vecvec.Machinery.Best
import Vecvec.Machinery.Binade
import Vecvec.Machinery.Faults
import Vecvec.Machinery.FileTree
import Vecvec.Machinery.Fill
import Vecvec.Machinery.Frame
import Vecvec.Machinery.Ghost
import Vecvec.Machinery.Greedy
import Vecvec.Machinery.Lanes
import Vecvec.Machinery.Locks
import Vecvec.Machinery.Mixing
import Vecvec.Machinery.Names
import Vecvec.Machinery.Prog
import Vecvec.Machinery.Ranking
import Vecvec.Machinery.Rcu
import Vecvec.Machinery.RecordLog
import Vecvec.Machinery.RelyGuarantee
import Vecvec.Machinery.Rounding
import Vecvec.Machinery.Sequential
import Vecvec.Machinery.Stable
import Vecvec.Machinery.Usize
import Vecvec.Machinery.Volume
import Vecvec.Payload
import Vecvec.Payload.Ranges
import Vecvec.Persist.Atomic
import Vecvec.Persist.Frame
import Vecvec.Persist.Sample
import Vecvec.Persist.TornLog
import Vecvec.Persist.Wal
import Vecvec.Quantization.Int8
import Vecvec.Quantization.Rescore
import Vecvec.Quantization.Scale
import Vecvec.Query
import Vecvec.Segment.Basic
import Vecvec.Segment.Search
import Vecvec.Segment.Store
import Vecvec.Service.Agreement
import Vecvec.Service.Bridge
import Vecvec.Service.Calls
import Vecvec.Service.Creates
import Vecvec.Service.Names
import Vecvec.Service.Restart
import Vecvec.Service.State
import Vecvec.Service.Touches
import Vecvec.Version.Dag
import Vecvec.Version.Diff
import Vecvec.Version.Policy
import Vecvec.Version.Retention
import Vecvec.Version.Store
