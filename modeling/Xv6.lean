import Xv6.Kernel.ChildExit
import Xv6.Kernel.CleanFlags
import Xv6.Fs.BufferArgs
import Xv6.Fs.Coherence
import Xv6.Kernel.SleepWakeup
import Xv6.Kernel.Holding
import Xv6.Kernel.Clone
import Xv6.Kernel.ExecStack
import Xv6.Kernel.PipeSleepers
import Xv6.User.Semaphore
import Xv6.User.Kill
import Xv6.Fs.FileRefs
import Xv6.Fs.InodeSafety
import Xv6.User.MallocBounds
import Xv6.Fs.TreeSafety
import Xv6.Fs.MkfsReads
import Xv6.Kernel.Orphans
import Xv6.User.ThreadLibrary
import Xv6.Kernel.PidCalls
import Xv6.Fs.BlockBitmap
import Xv6.Kernel.Memmove
import Xv6.Kernel.MpTable
import Xv6.User.GrepLines
import Xv6.User.PidQueue
import Xv6.Kernel.Interrupts
import Xv6.Vm.Kalloc
import Xv6.Kernel.Clone
