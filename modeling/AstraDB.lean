import AstraDB.AclRules
import AstraDB.AclPasswords
import AstraDB.KeyPermission
import AstraDB.ReplyFraming
import AstraDB.BPTreeIterate
import AstraDB.BPTreeBounds
import AstraDB.ReserveRequests
import AstraDB.Requests
import AstraDB.PipelineOrder
import AstraDB.KeyOwnership
import AstraDB.RdbTermination
import AstraDB.SnapshotRestore
import AstraDB.Watch
import AstraDB.ExecIsolation
import AstraDB.ReplicationBacklog
import AstraDB.ReplicationStream
import AstraDB.ZSetRanges
import AstraDB.BitFieldIncrBy
import AstraDB.AutoClaim
import AstraDB.StreamRanges
import AstraDB.Lcs
import AstraDB.GeoInterleave
import AstraDB.HllRegisters
import AstraDB.Counters
import AstraDB.ListCommands
import AstraDB.BitOp
import AstraDB.Rename
import AstraDB.ReadOnly
import AstraDB.JsonDelete
import AstraDB.MultiKey
import AstraDB.PubSub
import AstraDB.Flush
import AstraDB.PersistenceManager
import AstraDB.Issuers
import AstraDB.ResponseQueue
import AstraDB.ArgumentLoops
import AstraDB.VectorSearchJob
import AstraDB.ClusterState
