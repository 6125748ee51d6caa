import JmapServer.Follower.Types
import JmapServer.Follower.RollbackLoop
import JmapServer.Follower.RollbackPass
import JmapServer.Follower.RollbackStore
import JmapServer.Follower.RollbackTrace
import JmapServer.Follower.RollbackTermination
import JmapServer.Follower.RollbackExit
import JmapServer.Follower.RollbackMatch
import JmapServer.Follower.RollbackRetry
import JmapServer.Follower.RollbackWrites
import JmapServer.Follower.RollbackOrder
import JmapServer.Blob.Base32
import JmapServer.Blob.Leb128
import JmapServer.Blob.JmapBlob
import JmapServer.Rpc.Request
