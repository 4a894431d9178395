import OsUnix.Concurrency.Channel
import OsUnix.Concurrency.Counting
import OsUnix.Concurrency.RwLock
import OsUnix.Concurrency.SystemV
import OsUnix.Concurrency.Win32
import OsUnix.SemaphoreRW.Preference
import OsUnix.SemaphoreRW.Counter
import OsUnix.BoundedBuffer.Accounting
import OsUnix.BoundedBuffer.Alphabet
import OsUnix.EventRW.Progress
import OsUnix.EventRW.LostWrite
import OsUnix.MutexRW.Progress
import OsUnix.MutexRW.Preference
import OsUnix.MutexRW.Readers
import OsUnix.Fortune.Bounds
import OsUnix.Fortune.Concurrent
import OsUnix.Fortune.Lifecycle
import OsUnix.Fortune.Stream
import OsUnix.Fortune.RoundRobin
import OsUnix.Fortune.Invisible
import OsUnix.Fortune.Transfer
import OsUnix.Fortune.AppendOnly
import OsUnix.SeqFortune.Queue
import OsUnix.SelectServer.Attribution
import OsUnix.SelectServer.Conversation
import OsUnix.SelectServer.Failures
import OsUnix.SelectServer.Framing
import OsUnix.SelectServer.Handshake
import OsUnix.SelectServer.Slots
import OsUnix.SelectServer.Service
import OsUnix.SeqFortune.Session
import OsUnix.SeqFortune.Bounds
import OsUnix.Daemon.SingleInstance
import OsUnix.VirtualFc.Balance
import OsUnix.WorkQueue.Lifecycle
import OsUnix.Tasklet.Lifecycle
import OsUnix.ProcStat.Labels
import OsUnix.ProtectedMode.Transparency
import OsUnix.X86.Words
import OsUnix.X86.Touches
import OsUnix.X86.RealMode
import OsUnix.X86.Program
import OsUnix.ProtectedMode.SetUp
import OsUnix.ProtectedMode.Relocation
import OsUnix.ProtectedMode.Pieces
import OsUnix.ProtectedMode.HexDisplay
import OsUnix.ProtectedMode.Ticks
import OsUnix.ProtectedMode.Keyboard
import OsUnix.ProtectedMode.MemorySize
import OsUnix.ProtectedMode.Megabytes
import OsUnix.ProtectedMode.Returns
import OsUnix.X86.Pic
import OsUnix.X86.Depth
import OsUnix.ProtectedMode.Controllers
import OsUnix.ProtectedMode.Handling
import OsUnix.ProtectedMode.Excursion
import OsUnix.ProtectedMode.Interrupts
import OsUnix.DirWalk.Census
import OsUnix.DirWalk.WorkingDirectory
import OsUnix.Kernel.Stdio
import OsUnix.ProcDump.Model
import OsUnix.ProcDump.Raw
import OsUnix.ProcDump.Strings
import OsUnix.ProcDump.Report
import OsUnix.SharedStreams.Alternation
import OsUnix.DatagramChat.Model
import OsUnix.DatagramChat.RoundTrip
import OsUnix.Daemon.Detach
import OsUnix.Daemon.Hygiene
import OsUnix.SharedFile.Contents
import OsUnix.SharedFile.TwoStreams
import OsUnix.SharedFile.Readers
import OsUnix.SignalPipe.Completion
import OsUnix.SecretLetter.Delivery
import OsUnix.ProcessList.Listing
import OsUnix.BiosTimer.Clock
import OsUnix.SeqFortune.Lifecycle
import OsUnix.Forks.Inherited
import OsUnix.Forks.Replaced
import OsUnix.Concurrency.Fairness
import OsUnix.SemaphoreRW.Starvation
import OsUnix.EventRW.Livelock
import OsUnix.MutexRW.Completion
