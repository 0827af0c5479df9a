import Winunitd.Lib.Transition
import Winunitd.Lib.Threads
import Winunitd.Lib.Digraph
import Winunitd.Unit.Names
import Winunitd.Core.Errors
import Winunitd.Core.Restart
import Winunitd.Core.Graph
import Winunitd.Core.Cycle
import Winunitd.Core.Transaction
import Winunitd.Core.StopPlan
import Winunitd.Core.Execute
import Winunitd.Core.ExecuteStop
import Winunitd.Core.ExecuteSpec
import Winunitd.Core.StartOrder
import Winunitd.Core.FailSpread
import Winunitd.Core.SkipOutcome
import Winunitd.Core.StopComplete
import Winunitd.Core.StartSettled
import Winunitd.Core.StartOutcome
import Winunitd.Journal.Entry
import Winunitd.Journal.FairQueue
import Winunitd.Journal.Writer
import Winunitd.Journal.Conservation
import Winunitd.Journal.Cursor
import Winunitd.Journal.Scan
import Winunitd.Journal.Paging
import Winunitd.Lib.Heap
import Winunitd.Timers.Engine
import Winunitd.Timers.Work
import Winunitd.Timers.Installed
import Winunitd.Timers.Ownership
import Winunitd.Timers.DueKept
import Winunitd.Timers.OnceFired
import Winunitd.Timers.Writes
import Winunitd.Timers.Intent
import Winunitd.Lib.Table
import Winunitd.UserHost.Host
import Winunitd.UserHost.Workers
import Winunitd.UserHost.Authority
import Winunitd.UserHost.Ownership
import Winunitd.Journal.Following
import Winunitd.Core.StartPlan
import Winunitd.Core.FailExact
import Winunitd.Lib.HeapOrder
import Winunitd.Timers.HeapSound
import Winunitd.Timers.Cause
import Winunitd.Servicing.Floor
import Winunitd.Lib.Gregorian
import Winunitd.Lib.WallClock
import Winunitd.Timers.OnCalendar
import Winunitd.Timers.Search
import Winunitd.Timers.SearchDays
import Winunitd.Timers.SearchSteps
import Winunitd.Timers.SearchExact
import Winunitd.Timers.FixedOffset
import Winunitd.Timers.Catchup
import Winunitd.Core.ShutdownPlan
import Winunitd.Core.StartLimit
import Winunitd.Journal.Displacement
import Winunitd.Journal.Rotation
import Winunitd.Manager.UnitOps
import Winunitd.Manager.StopHelper
import Winunitd.Journal.Fragments
import Winunitd.Journal.Eviction
import Winunitd.Journal.DaemonLog
import Winunitd.Servicing.SemVer
import Winunitd.Unit.Tokens
import Winunitd.Servicing.FloorChange
import Winunitd.PathWatch.Appearance
import Winunitd.Journal.RecordBuffer
import Winunitd.Manager.StopSet
