import StWin.Lib.Arrival
import StWin.Heap.Model
import StWin.Heap.Rep
import StWin.Heap.Insert
import StWin.Heap.Delete
import StWin.Heap.Spec
import StWin.Heap.Due
import StWin.Event.Counts
import StWin.Event.Model
import StWin.Event.Interest
import StWin.Event.Runs
import StWin.Event.Report
import StWin.Event.Notify
import StWin.Event.Groups
import StWin.Event.Maxfd
import StWin.Event.Indices
import StWin.Sched.Model
import StWin.Sched.Coherent
import StWin.Sched.Ownership
import StWin.Sched.Wake
import StWin.Sched.Act
import StWin.Sched.Outcome
import StWin.Sched.Calls
import StWin.Sched.Resume
import StWin.Sched.MutexCalls
import StWin.Sched.Create
import StWin.Sched.Plain
import StWin.Sched.Count
import StWin.Sched.Join
import StWin.Sched.Exit
import StWin.Sched.Aside
import StWin.Sched.Step
import StWin.Sched.Reach
import StWin.Sched.Final
import StWin.Sched.Driver
import StWin.Sched.Mutex
import StWin.Sched.Others
import StWin.Sched.Interrupt
import StWin.Sched.Calm
import StWin.Sched.CondVar
import StWin.Sched.Signal
import StWin.Sched.Poll
import StWin.Sched.Clock
import StWin.Sched.Dispatch
import StWin.Sched.Deadline
import StWin.Sched.Acquire
import StWin.Sched.Early
import StWin.Io.Model
import StWin.Io.Timeout
import StWin.Io.Exact
import StWin.Io.Writev
import StWin.Io.Resid
import StWin.Io.Connect
import StWin.Cache.Model
import StWin.Cache.Lru
import StWin.Cache.Refine
import StWin.Cache.Ops
import StWin.Cache.Runs
import StWin.Cache.Refuse
import StWin.Dns.Model
import StWin.Dns.Entries
import StWin.Dns.Step
import StWin.Dns.Fresh
import StWin.Dns.Resolve
import StWin.Dns.Origin
import StWin.Dns.Names
import StWin.Dns.Answers
import StWin.Dns.Access
import StWin.Dns.Sound
import StWin.Dns.Search
import StWin.FileIo.Model
import StWin.FileIo.Protocol
import StWin.Cache.Evict
import StWin.Heap.Guards
import StWin.Io.Netfd
import StWin.Io.Recycle
import StWin.Event.Owner
import StWin.Heap.Points
import StWin.Sched.Passes
import StWin.Sched.Turns
import StWin.Key.Model
import StWin.Key.Slots
import StWin.Key.Destroy
import StWin.Lib.Clist
import StWin.Sched.Rings
import StWin.Sched.Relink
import StWin.Sched.Links
import StWin.Server.Model
import StWin.Server.Pool
import StWin.Server.Limits
import StWin.Proxy.Model
import StWin.Cache.Traverse
import StWin.Proxy.Relay
import StWin.Server.Watchdog
import StWin.Cache.Info
import StWin.Sched.Objects
import StWin.Sched.Lifetime
import StWin.Sched.Fair
