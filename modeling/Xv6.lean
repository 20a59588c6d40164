import Xv6.Proofs.Log.Progress
import Xv6.Proofs.Bio.Crash
import Xv6.Proofs.Proc.LockOrder
import Xv6.Proofs.Proc.Reap
import Xv6.Proofs.Proc.Wakeup
import Xv6.Proofs.Proc.Pids
import Xv6.Proofs.Vm.OpenFiles
import Xv6.Proofs.Vm.Fork
import Xv6.Proofs.Vm.Program
import Xv6.Proofs.Delivery
import Xv6.Proofs.Fs.Fault
import Xv6.Proofs.Fs.Paths
import Xv6.Proofs.Umalloc.Sizes
import Xv6.Proofs.Sh.Parse
import Xv6.Proofs.Grep.Matcher
import Xv6.Proofs.Grep.Lines
import Xv6.Proofs.Fs.Chunks
import Xv6.Proofs.Mkfs.Image
import Xv6.Proofs.Memmove
import Xv6.Proofs.Spinlock
import Xv6.Proofs.Uart
