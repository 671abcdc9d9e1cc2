import AICacheDB.Engine.Rbtree.Scan
import AICacheDB.Resp.Splitting
import AICacheDB.Persistence.Restart
import AICacheDB.Persistence.Reset
import AICacheDB.Vector.Sound
import AICacheDB.Vector.Complete
import AICacheDB.Vector.Failure
import AICacheDB.Persistence.RdbVector
import AICacheDB.Net.Output
import AICacheDB.Net.Readers
import AICacheDB.Forwarder.Fifo
import AICacheDB.Forwarder.Restarts
import AICacheDB.Forwarder.Agreement
import AICacheDB.Persistence.ReplayExpiry
import AICacheDB.Command.Deadline
import AICacheDB.Persistence.Always
import AICacheDB.Replication.Received
import AICacheDB.Replication.ChunkChecks
import AICacheDB.Engine.ArrayFull
import AICacheDB.Vector.Ranking
import AICacheDB.Persistence.Batch
import AICacheDB.Engine.Mempool
