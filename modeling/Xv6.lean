import Xv6.LogRace
import Xv6.MemoryLeaks
import Xv6.BufferSupply
import Xv6.IdeRuns
import Xv6.LogMonitor
import Xv6.PipeRuns
import Xv6.ProcTree
import Xv6.Scheduler
import Xv6.SleepWakeup
import Xv6.FileRuns
import Xv6.ConsoleRuns
import Xv6.DiskErrors
import Xv6.ShellParser
import Xv6.UserBuffers
import Xv6.DirectoryRuns
import Xv6.MkfsRoundTrip
import Xv6.WholeWrite
import Xv6.FailedOpen
import Xv6.GrepLines
import Xv6.GrepMatch
import Xv6.HeapRequests
import Xv6.MpTable
import Xv6.FlatMap
import Xv6.Spinlock
import Xv6.PathModes
