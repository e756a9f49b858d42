import Xv6.Log.Reservation
import Xv6.Log.Crash
import Xv6.Bcache.Lru
import Xv6.Copyin
import Xv6.Console
import Xv6.Vm.Exact
import Xv6.Vm.Translation
import Xv6.Pgaccess
import Xv6.Kernel.Isolation
import Xv6.Kernel.Program
import Xv6.Kernel.Ledger
import Xv6.Pipe.Wakeup
import Xv6.Pipe.Read
import Xv6.Fs.Bitmap
import Xv6.Sched.Slots
import Xv6.Virtio.Protocol
import Xv6.Sh.Words
import Xv6.Umalloc.Break
import Xv6.Umalloc.Invariant
import Xv6.Grep.Lines
import Xv6.Spinlock
import Xv6.Trap
import Xv6.Fs.Path
