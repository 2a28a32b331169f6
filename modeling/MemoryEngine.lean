import MemoryEngine.Btr.IndexSteps
import MemoryEngine.Cluster.VersionHistory
import MemoryEngine.Log.ReplayProgress
import MemoryEngine.Log.SegmentReuse
import MemoryEngine.Log.StreamAccounting
import MemoryEngine.Rdma.PageAddress
import MemoryEngine.Selcc.LatchShares
import MemoryEngine.Selcc.LockLoop
import MemoryEngine.Selcc.RWSpinMutex
import MemoryEngine.Storage.PageCacheRuns
import MemoryEngine.Storage.StringColumns
import MemoryEngine.Txn.CommittedPages
import MemoryEngine.Txn.DeltaShadow
import MemoryEngine.Txn.GarbageCollection
import MemoryEngine.Txn.OccOrder
import MemoryEngine.Txn.RepeatedAccess
import MemoryEngine.Txn.SnapshotReads
import MemoryEngine.Txn.TimestampAbort
import MemoryEngine.Txn.ToOrder
import MemoryEngine.Txn.TwoPhaseOrder
