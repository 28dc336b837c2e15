import Lba2Pba.Py.Dict
import Lba2Pba.Py.Str
import Lba2Pba.Py.Path
import Lba2Pba.Py.Exec
import Lba2Pba.Py.Loop
import Lba2Pba.Py.Mutable
import Lba2Pba.Py.Struct
import Lba2Pba.Py.Thread
import Lba2Pba.Py.Rely
import Lba2Pba.Layout.Window
import Lba2Pba.Run.Keyed
import Lba2Pba.Run.Prefix
import Lba2Pba.Messages
import Lba2Pba.Fiemap
import Lba2Pba.Agent.Get
import Lba2Pba.Agent.GetExact
import Lba2Pba.Agent.Inside
import Lba2Pba.Agent.Batch
import Lba2Pba.Agent.FileMap
import Lba2Pba.Query.RangeTable
import Lba2Pba.Query.Fiemap
import Lba2Pba.Query.Chain
import Lba2Pba.Query.ShardList
import Lba2Pba.Query.ShardOrder
import Lba2Pba.Query.Striped
import Lba2Pba.Query.Server
import Lba2Pba.Query.Refresh
import Lba2Pba.Query.Freshness
import Lba2Pba.Worker.Monitor
import Lba2Pba.Worker.Sender
import Lba2Pba.Worker.Brick
import Lba2Pba.Worker.Existence
import Lba2Pba.Worker.Extents
import Lba2Pba.Worker.Moves
import Lba2Pba.Worker.Pool
import Lba2Pba.Worker.Senders
import Lba2Pba.Worker.Filters
import Lba2Pba.Worker.GetPba
import Lba2Pba.Worker.Startup
import Lba2Pba.Worker.StartupLines
import Lba2Pba.Worker.StartupExact
import Lba2Pba.Worker.Report
import Lba2Pba.Trace.Service
import Lba2Pba.Trace.Step
import Lba2Pba.Trace.Cell
import Lba2Pba.Trace.Startup
import Lba2Pba.Trace.Invariant
import Lba2Pba.Trace.Interleave
import Lba2Pba.Trace.Atomic
import Lba2Pba.Trace.Publish
import Lba2Pba.Trace.Replies
import Lba2Pba.Trace.Tolerance
import Lba2Pba.Trace.Incremental
import Lba2Pba.Trace.Assembly
import Lba2Pba.Trace.Relay
import Lba2Pba.Trace.Fanout
import Lba2Pba.Trace.Threads
import Lba2Pba.Trace.Confined
import Lba2Pba.Trace.Concurrent
import Lba2Pba.Trace.Races
import Lba2Pba.Manager.Service
import Lba2Pba.Manager.Step
import Lba2Pba.Manager.Entries
import Lba2Pba.Manager.Start
import Lba2Pba.Manager.AgentSync
import Lba2Pba.Manager.Modify
import Lba2Pba.Manager.Fanout
import Lba2Pba.Manager.Join
import Lba2Pba.Manager.Fresh
import Lba2Pba.Manager.Paths
import Lba2Pba.Manager.Reference
import Lba2Pba.Manager.Isolation
import Lba2Pba.Manager.Restart
import Lba2Pba.Manager.Replicas
import Lba2Pba.Manager.OnePerNode
import Lba2Pba.Subscribers
import Lba2Pba.Manager.Threads
import Lba2Pba.Manager.Races
import Lba2Pba.System.Chain
import Lba2Pba.System.ColdStart
