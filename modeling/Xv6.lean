import Xv6.Log.Admission
import Xv6.Bio.Crash
import Xv6.Fs.Resolve
import Xv6.Pipe.Wakeup
import Xv6.Mkfs.Agreement
import Xv6.Itable.Protocol
import Xv6.Log.Waiters
import Xv6.Proc.Pids
import Xv6.Proc.Handoff
import Xv6.Console.Lines
import Xv6.Virtio.Requests
import Xv6.Ftable.Accounts
import Xv6.Kill.Missed
import Xv6.Spinlock.Nesting
import Xv6.File.Order
import Xv6.Vm.Sbrk
import Xv6.Console.Faults
import Xv6.Sh.Words
import Xv6.Printf.Directives
import Xv6.Grep.Lines
import Xv6.Find.Walk
