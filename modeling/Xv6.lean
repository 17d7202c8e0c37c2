import Xv6.Log.Recovery
import Xv6.Log.GroupCommit
import Xv6.Log.Reservation
import Xv6.Log.Layout
import Xv6.Log.Sync
import Xv6.Mkfs.Superblock
import Xv6.Bio.Cache
import Xv6.Bio.Coherence
import Xv6.Bio.Commit
import Xv6.Bio.Refinement
import Xv6.Fs.System
import Xv6.Fs.Bytes
import Xv6.Fs.Directory
import Xv6.Fs.Resolve
import Xv6.Lib.PtrTree
import Xv6.Vm.Free
import Xv6.Vm.Translation
import Xv6.Vm.Copy
import Xv6.Fs.Path
import Xv6.Fs.Agreement
import Xv6.Fs.Reclaim
import Xv6.Process.Atomic
import Xv6.Process.Memory
import Xv6.Process.Transactions
import Xv6.Ptable.Recycling
import Xv6.Sched.Threads
import Xv6.Sched.Interrupts
import Xv6.Sched.Steps
import Xv6.Sched.Locks
import Xv6.Sched.Wakeup
import Xv6.Console.Discipline
import Xv6.Pipes.Stream
import Xv6.Console.Fault
import Xv6.Console.Uart
import Xv6.Library.Memmove
import Xv6.Library.Printf
import Xv6.Grep.Lines
import Xv6.Shell.Language
import Xv6.Bio.Links
import Xv6.Umalloc.Termination
