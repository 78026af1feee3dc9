import Strn.Schedule
import Strn.Partition.Loop
import Strn.Partition.Layout
import Strn.Partition.Balance
import Strn.Partition.Makespan
import Strn.Data.Loaders
import Strn.Data.Tokens
import Strn.ParamServer.Shard
import Strn.ParamServer.Rounds
import Strn.ParamServer.Lifecycle
import Strn.ParamServer.Cluster
import Strn.ParamServer.Lockstep
import Strn.ParamServer.Progress
import Strn.ParamServer.Bounds
import Strn.ParamServer.Outcome
import Strn.ParamServer.Keys
import Strn.Ring.Exchange
import Strn.Ring.Worker
import Strn.Ring.Async
import Strn.Ring.Bounds
import Strn.Ring.Keys
import Strn.Ring.Termination
import Strn.Ring.AllReduce
import Strn.Launch.Ranks
import Strn.Launch.Finish
