import Xv6.Log.Theorems
import Xv6.Vm.Programs
import Xv6.Vm.Growth
import Xv6.Vm.Transfers
import Xv6.Vm.Translation
import Xv6.Ipc.Theorems
import Xv6.Virtio.Theorems
import Xv6.Ptable.Theorems
import Xv6.Ptable.Protocol
import Xv6.Ptable.Priority
import Xv6.Syscall.Lines
import Xv6.Fs.Logged
import Xv6.Bio.Theorems
import Xv6.Sched.Theorems
import Xv6.Ftable.Theorems
import Xv6.Itable.Theorems
import Xv6.Sched.Fcfs
import Xv6.Ptable.Waitx
import Xv6.Ptable.Clock
import Xv6.Kalloc.Theorems
import Xv6.Umalloc.Break
import Xv6.Sh.Tokens
import Xv6.Fs.Path
import Xv6.Fs.Open
import Xv6.Fs.Discipline
import Xv6.Fs.Shared
import Xv6.Mkfs.Theorems
import Xv6.Mkfs.Holes
import Xv6.Grep.Lines
import Xv6.Console.Theorems
import Xv6.Sleeplock.Theorems
import Xv6.Uart.Theorems
import Xv6.Spinlock.Theorems
import Xv6.Mem.Memmove
