import Bashket.Drivers.Bcache
import Bashket.Drivers.Tty
import Bashket.Fat.Arrays
import Bashket.Fat.Full
import Bashket.Fs.CloseOnExec
import Bashket.Fs.Readdir
import Bashket.Ipc.Connections
import Bashket.Ipc.PipeFree
import Bashket.Ipc.Poll
import Bashket.Ipc.Shm
import Bashket.Lib.Ring
import Bashket.Lib.Run
import Bashket.Mm.Fork
import Bashket.Mm.HeapPages
import Bashket.Mm.HeapRuns
import Bashket.Mm.MapRange
import Bashket.Mm.PageCache
import Bashket.Mm.Regions
import Bashket.Mm.SwapPick
import Bashket.Mm.Writeback
import Bashket.Net.RoundTrip
import Bashket.Proc.Frame
import Bashket.Proc.Futex
import Bashket.Proc.Groups
import Bashket.Proc.Stopping
import Bashket.Sched.Binding
import Bashket.Sched.Wakeups
import Bashket.Sh.Variables
import Bashket.Smp.Calls
import Bashket.Smp.Shootdown
import Bashket.Sync.SleepingLocks
import Bashket.Tcp.CongestionBounds
import Bashket.Tcp.Opening
import Bashket.Tcp.RangeSets
import Bashket.Tcp.ReceiverRuns
import Bashket.Tcp.Retransmission
import Bashket.Tcp.Senders
import Bashket.Tcp.Sent
import Bashket.Tcp.Unwrapped
import Bashket.Time.Waits
