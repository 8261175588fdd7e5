import HotTLBApps.PebblesDB.DroppedMarkers
import HotTLBApps.Gapbs.TriangleCount
import HotTLBApps.Gapbs.InPlaceGraph
import HotTLBApps.Gapbs.Bfs
import HotTLBApps.Gapbs.SsspVerifier
import HotTLBApps.Gapbs.DeltaStepThreads
import HotTLBApps.PebblesDB.DbIter
import HotTLBApps.PebblesDB.WriteDurability
import HotTLBApps.PebblesDB.IteratorStability
import HotTLBApps.PebblesDB.RecencyOrder
import HotTLBApps.Gapbs.ShiloachVishkin
import HotTLBApps.Speedb.DeadlockFree
import HotTLBApps.Libsvm.OneVersusOne
import HotTLBApps.Speedb.PairedBloomFilter
import HotTLBApps.Speedb.HashSpdbRefines
import HotTLBApps.PebblesDB.RangeOverlap
import HotTLBApps.Ycsb.AcknowledgedCounter
import HotTLBApps.PebblesDB.ConcatLevel
import HotTLBApps.RocksDB.DeadlockDetection
import HotTLBApps.PebblesDB.EditDecoding
import HotTLBApps.PebblesDB.CompleteGuards
import HotTLBApps.PebblesDB.LogConcurrent
import HotTLBApps.Speedb.CompactRangeThreads
import HotTLBApps.Speedb.SortThread
import HotTLBApps.Speedb.WriteController
import HotTLBApps.Speedb.UsageState
import HotTLBApps.PebblesDB.WriterList
import HotTLBApps.RocksDB.SortList
import HotTLBApps.RocksDB.BijectiveHash
import HotTLBApps.RocksDB.LockCount
import HotTLBApps.Gapbs.UniDist
import HotTLBApps.Libsvm.SolverDescent
import HotTLBApps.RocksDB.HeapRuns
import HotTLBApps.PebblesDB.BloomFilter
import HotTLBApps.PebblesDB.WriteBatch
