import MiniOS.Lib.SlotPool
import MiniOS.Slab.Accounting
import MiniOS.Slab.Bounds
import MiniOS.Slab.Smp
import MiniOS.Slab.Failure
import MiniOS.Slab.Repeat
import MiniOS.Log.Reserve
import MiniOS.Log.Commit
import MiniOS.Bio.Recency
import MiniOS.Bio.Capacity
import MiniOS.Fs.Deadlock
import MiniOS.Fs.RefCounts
import MiniOS.Proc.Kill
import MiniOS.Proc.Wait
import MiniOS.Proc.Wakeup
import MiniOS.Proc.WellFormed
import MiniOS.Sched.Current
import MiniOS.Pipe.Ready
import MiniOS.Fs.BlockOwners
import MiniOS.Fs.SelfLocks
import MiniOS.Console.Fifo
import MiniOS.Shell.Terminate
import MiniOS.Syscall.Args
import MiniOS.PagePool
import MiniOS.Slab.SlotChoice
import MiniOS.Fs.BlockMap
import MiniOS.Grep.Stream
import MiniOS.Vm.Conserve
