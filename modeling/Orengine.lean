import Orengine.Runtime.GlobalState.Safety.Registry
import Orengine.Runtime.Task.TaskPool
import Orengine.Runtime.Interaction.Safety.Order
import Orengine.Runtime.Executor.Safety.BlockOn
import Orengine.Runtime.Executor.CallStack
import Orengine.Runtime.LocalThreadPool.Safety.LocalThreadPool
import Orengine.Io.Safety.Peek
import Orengine.Io.Sys.Linux.Safety.CancelOrder
import Orengine.Io.Sys.Linux.Safety.Results
import Orengine.Io.Sys.Fallback.Safety.Deadlines
import Orengine.Io.Buf.Safety.FixedBuffers
import Orengine.Io.Buf.Slice
import Orengine.Fs.Safety.Processes
import Orengine.Net.Unix.Safety.Addr
import Orengine.Sync.Channels.AsyncTrait
import Orengine.Sync.Channels.Safety.Equivalence
import Orengine.Sync.CondVars.Safety.Underflow
import Orengine.Sync.CondVars.Safety.LostWakeUp
import Orengine.Sync.CondVars.Safety.NotifyAll
import Orengine.Sync.Mutexes.NaiveShared
import Orengine.Sync.RWLocks.Safety.Local
import Orengine.Sync.RWLocks.Safety.Shared
import Orengine.Sync.Onces
import Orengine.Sync.WaitGroups.Safety.Local
import Orengine.Sync.WaitGroups.Safety.Returned
import Orengine.Sync.Scopes.Safety.Resume
import Orengine.Io.Sys.Fallback.Safety.WorkerWithThreadPool
import Orengine.Io.Sys.Fallback.Safety.MioPoller
import Orengine.Runtime.Executor.Safety.Round
import Orengine.Runtime.Executor.Safety.Polling
import Orengine.Runtime.Executor.Safety.TakeWork
import Orengine.Runtime.Executor.Safety.Config
import Orengine.Runtime.Executor.Safety.LocalQueue
import Orengine.Runtime.Executor.Safety.Locality
