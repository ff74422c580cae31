import Tinycoro.Basic
import Tinycoro.Library.Incremental
import Tinycoro.Library.Transition
import Tinycoro.Library.Ring
import Tinycoro.Library.SignedWord
import Tinycoro.Library.Tally
import Tinycoro.Library.History
import Tinycoro.Library.Ledger
import Tinycoro.Library.Tombstones
import Tinycoro.Library.Batches
import Tinycoro.Library.Effect
import Tinycoro.Library.Threads
import Tinycoro.Library.Update
import Tinycoro.Library.Placement
import Tinycoro.Library.Alternation
import Tinycoro.Library.Nesting
import Tinycoro.Library.Calls
import Tinycoro.Buffer
import Tinycoro.Buffer.Word
import Tinycoro.Buffer.Queue
import Tinycoro.Buffer.Capacity
import Tinycoro.Http.Text
import Tinycoro.Http.Parser
import Tinycoro.Http.Stream
import Tinycoro.Http.Grammar
import Tinycoro.Http.Fragmentation
import Tinycoro.Http.Pipelining
import Tinycoro.Http.Session
import Tinycoro.Http.Rejection
import Tinycoro.Http.Bounds
import Tinycoro.Queue.Mpmc
import Tinycoro.Queue.MpmcInvariant
import Tinycoro.Queue.MpmcWord
import Tinycoro.Queue.MpmcAnswers
import Tinycoro.Queue.MpmcProgress
import Tinycoro.Queue.MpmcOverflow
import Tinycoro.Queue.Spsc
import Tinycoro.Queue.SpscSize
import Tinycoro.Pool.ThreadPool
import Tinycoro.Pool.Linked
import Tinycoro.Pool.Drain
import Tinycoro.Pool.Tasks
import Tinycoro.Pool.ExactlyOnce
import Tinycoro.Pool.Word
import Tinycoro.Pool.Blocking
import Tinycoro.Pool.Construction
import Tinycoro.Pool.Unwinding
import Tinycoro.Io.Epoll
import Tinycoro.Io.EventLoop
import Tinycoro.Io.Dispatch
import Tinycoro.Io.IoContext
import Tinycoro.Io.Run
import Tinycoro.Io.Step
import Tinycoro.Io.Waits
import Tinycoro.Io.Registration
import Tinycoro.Io.Completion
import Tinycoro.Io.Rollback
import Tinycoro.Io.Arming
import Tinycoro.Io.Timers
import Tinycoro.Io.Wakeup
import Tinycoro.Io.Scheduling
import Tinycoro.Io.Resumption
import Tinycoro.Io.Fairness
import Tinycoro.Io.Answers
import Tinycoro.Task.Task
import Tinycoro.Task.Roles
import Tinycoro.Task.Owned
import Tinycoro.Task.Ownership
import Tinycoro.Task.Lifetime
import Tinycoro.Task.Coroutine
import Tinycoro.Task.Activations
import Tinycoro.Task.Moves
import Tinycoro.Task.Framing
import Tinycoro.Task.DirectStyle
import Tinycoro.Task.Rooted
import Tinycoro.Task.Rethrow
import Tinycoro.Net.TcpStream
import Tinycoro.Net.WriteAll
import Tinycoro.Net.TcpConnection
import Tinycoro.Net.Lifecycle
import Tinycoro.Net.Delivery
import Tinycoro.Net.Output
import Tinycoro.Net.TcpServer
import Tinycoro.Net.ServerMap
import Tinycoro.Net.Locality
import Tinycoro.Net.Acceptance
import Tinycoro.Net.Wiring
import Tinycoro.Net.Reactor
import Tinycoro.Net.Callbacks
import Tinycoro.Net.Descriptors
import Tinycoro.Net.ReadSome
import Tinycoro.Net.Receiving
import Tinycoro.Net.DeadlineWord
import Tinycoro.Net.Operations
import Tinycoro.Net.Bodies
import Tinycoro.Net.Outcomes
import Tinycoro.Net.HalfClosed
