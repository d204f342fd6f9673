import MiniOS.Kalloc
import MiniOS.Lib.Count
import MiniOS.Proc.Sleep

namespace MiniOS

open Function

/-- The part of `struct cpu` that the scheduler uses, with the interrupt flag of the processor
and the place where its scheduler is. -/
structure Cpu where
  proc : Option (Fin nproc)
  ncli : Nat
  intena : Bool
  interrupts : Bool
  pc : CpuPc nproc

namespace Cpu

def pushcli (cpu : Cpu) : Cpu :=
  { cpu with
    intena := if cpu.ncli = 0 then cpu.interrupts else cpu.intena
    interrupts := false
    ncli := cpu.ncli + 1 }

def popcli (cpu : Cpu) : Except Stop Cpu :=
  if cpu.interrupts then .error (.panic "popcli - interruptible")
  else if cpu.ncli = 0 then .error (.panic "popcli")
  else .ok { cpu with ncli := cpu.ncli - 1, interrupts := decide (cpu.ncli = 1) && cpu.intena }

/-- The tests at the start of `sched`, given whether the processor holds `ptable.lock` and
the state of the process. -/
def schedTests (cpu : Cpu) (holding : Bool) (state : ProcState) : Except Stop Unit :=
  if !holding then .error (.panic "sched ptable.lock")
  else if cpu.ncli ≠ 1 then .error (.panic "sched locks")
  else if state = .running then .error (.panic "sched running")
  else if cpu.interrupts then .error (.panic "sched interruptible")
  else .ok ()

def goto (cpu : Cpu) (pc : CpuPc nproc) : Cpu := { cpu with pc := pc }

end Cpu

/-- The function that has called `sched`. The lock is the one that `sleep` is going to acquire
before it returns, `none` for `ptable.lock`; a `yield` interrupts a process that is at work or
is going to acquire a lock at the end of `sleep`. -/
inductive SchedCaller (locks : Type)
  | yield (back : Option locks)
  | sleep (lk : Option locks)
  | exit

/-- Where the kernel thread of a process is, named after what it does next. At `work` it is in
none of the functions below, or it is at the `acquire(lk)` at the end of `sleep`. -/
inductive ThreadPc (locks : Type)
  | work (lk : Option locks)
  | yielding (back : Option locks)
  | sleepRelease (lk : locks) (chan : Chan)
  | sleepAssign (lk : Option locks) (chan : Chan)
  | exiting
  | waitScan
  | sched (caller : SchedCaller locks)
  | swtch (caller : SchedCaller locks) (intena : Bool)
  | resume (caller : SchedCaller locks) (intena : Bool)
  | tidy (lk : Option locks)
  | release (back : Option locks)
  | forkret

/-- The processors `cpus`, the process table and the spinlocks other than `ptable.lock`, each with the
processor that holds it. `fork` has the entry that a process is creating, and `stopped` is
set by a panic. -/
structure Machine (cpus locks : Type) where
  cpu : cpus → Cpu
  proc : Ptable
  nextpid : BitVec 32
  initproc : Fin nproc
  pc : Fin nproc → ThreadPc locks
  fork : Fin nproc → Option (Fin nproc)
  table : Option cpus
  lock : locks → Option cpus
  stopped : Option Stop

namespace Machine

variable {cpus locks : Type} [DecidableEq cpus] [DecidableEq locks]

def setCpu (s : Machine cpus locks) (c : cpus) (cpu : Cpu) : Machine cpus locks :=
  { s with cpu := update s.cpu c cpu }

def setProc (s : Machine cpus locks) (proc : Ptable) : Machine cpus locks := { s with proc := proc }

def goto (s : Machine cpus locks) (p : Fin nproc) (pc : ThreadPc locks) : Machine cpus locks :=
  { s with pc := update s.pc p pc }

def setFork (s : Machine cpus locks) (p : Fin nproc) (np : Option (Fin nproc)) : Machine cpus locks :=
  { s with fork := update s.fork p np }

def setLock (s : Machine cpus locks) (lk : locks) (holder : Option cpus) : Machine cpus locks :=
  { s with lock := update s.lock lk holder }

def setTable (s : Machine cpus locks) (holder : Option cpus) : Machine cpus locks := { s with table := holder }

/-- `acquire(&ptable.lock)` when the lock is free. -/
def acquireTable (s : Machine cpus locks) (c : cpus) : Machine cpus locks :=
  (s.setCpu c (s.cpu c).pushcli).setTable (some c)

/-- `release(&ptable.lock)`, after which the processor is `cpu`. -/
def releaseTable (s : Machine cpus locks) (c : cpus) (cpu : Cpu) : Machine cpus locks :=
  (s.setCpu c cpu).setTable none

/-- Processor `c` executes the thread of `p`, which is at `pc`. -/
def Runs (s : Machine cpus locks) (c : cpus) (p : Fin nproc) (pc : ThreadPc locks) : Prop :=
  (s.cpu c).pc = .runs p ∧ s.pc p = pc

/-- Processor `c` is not in a function that uses `ptable.lock`: in its scheduler before the
lock, or in a thread at work. An interrupt handler may run there. -/
def Outside (s : Machine cpus locks) (c : cpus) : Prop := (s.cpu c).pc = .lock ∨ ∃ p lk, s.Runs c p (.work lk)

/-- Processor `c` holds no lock but perhaps `ptable.lock`. -/
def NoLock (s : Machine cpus locks) (c : cpus) : Prop := ∀ lk, s.lock lk ≠ some c

/-- The state after `userinit`, when the processors enter their schedulers. -/
def initial (cpus locks : Type) (kstack pgdir : Nat) : Machine cpus locks where
  cpu _ := ⟨none, 0, false, false, .lock⟩
  proc := (Procs.userinit kstack pgdir).proc
  nextpid := 2
  initproc := 0
  pc _ := .forkret
  fork _ := none
  table := none
  lock _ := none
  stopped := none

end Machine

/-- What a processor does with `ptable.lock` free, wherever an interrupt handler may run: the
whole of `wakeup` and of `kill`, the other spinlocks, the interrupt flag, and `myproc`. -/
inductive OutsideStep {cpus locks : Type} [DecidableEq cpus] [DecidableEq locks] (c : cpus)
    (s : Machine cpus locks) : Machine cpus locks → Prop
  | wakeup {cpu : Cpu} (chan : Option Chan) : s.Outside c → s.table = none →
      (s.cpu c).pushcli.popcli = .ok cpu → OutsideStep c s ((s.setCpu c cpu).setProc (s.proc.wakeup1 chan))
  | kill {cpu : Cpu} (pid : BitVec 32) : s.Outside c → s.table = none →
      (s.cpu c).pushcli.popcli = .ok cpu → OutsideStep c s ((s.setCpu c cpu).setProc (s.proc.kill pid).1)
  | acquire (lk : locks) : s.Outside c → s.lock lk = none →
      OutsideStep c s ((s.setCpu c (s.cpu c).pushcli).setLock lk (some c))
  | release {cpu : Cpu} (lk : locks) : s.Outside c → s.lock lk = some c →
      (s.cpu c).popcli = .ok cpu → OutsideStep c s ((s.setCpu c cpu).setLock lk none)
  | interrupts (flag : Bool) : s.Outside c → (s.cpu c).ncli = 0 →
      OutsideStep c s (s.setCpu c { s.cpu c with interrupts := flag })
  | myproc {cpu : Cpu} : s.Outside c → (s.cpu c).pushcli.popcli = .ok cpu →
      OutsideStep c s (s.setCpu c cpu)

/-- The steps of `fork`, by process `p`: `allocproc`, the failures after it, `np->parent = curproc`, and
`np->state = RUNNABLE`. -/
inductive ForkStep {cpus locks : Type} [DecidableEq cpus] (c : cpus) (p : Fin nproc)
    (s : Machine cpus locks) : Machine cpus locks → Prop
  | allocproc {cpu : Cpu} {t : Ptable} (np : Fin nproc) : s.Runs c p (.work none) →
      s.fork p = none → s.table = none → (s.cpu c).pushcli.popcli = .ok cpu →
      s.proc.allocproc s.nextpid = some (t, np) →
      ForkStep c p s
      { ((((s.setCpu c cpu).setProc t).goto np .forkret).setFork p (some np)) with nextpid := s.nextpid + 1 }
  | fails (np : Fin nproc) : s.Runs c p (.work none) → s.fork p = some np →
      ForkStep c p s ((s.setProc (s.proc.giveBack np)).setFork p none)
  | parent (np : Fin nproc) : s.Runs c p (.work none) → s.fork p = some np →
      ForkStep c p s (s.setProc (s.proc.setParent np p))
  | runnable {cpu : Cpu} (np : Fin nproc) : s.Runs c p (.work none) → s.fork p = some np →
      s.table = none → (s.cpu c).pushcli.popcli = .ok cpu →
      ForkStep c p s (((s.setCpu c cpu).setProc (s.proc.setState np .runnable)).setFork p none)

/-- The steps of the thread of `p` on processor `c` through `yield`, `sleep`, `exit`, `wait`, `sched`
and `forkret`. The callers of `yield`, `sleep` and `exit` hold no spinlock besides the one
passed to `sleep`. -/
inductive ThreadStep {cpus locks : Type} [DecidableEq cpus] [DecidableEq locks] (c : cpus) (p : Fin nproc)
    (s : Machine cpus locks) : Machine cpus locks → Prop
  | yield (back : Option locks) : s.Runs c p (.work back) → s.NoLock c → s.table = none →
      ThreadStep c p s ((s.acquireTable c).goto p (.yielding back))
  | yieldAssign (back : Option locks) (current : Fin nproc) : s.Runs c p (.yielding back) →
      (s.cpu c).proc = some current →
      ThreadStep c p s ((s.setProc (s.proc.setState current .runnable)).goto p (.sched (.yield back)))
  | sleep (lk : locks) (chan : Chan) : s.Runs c p (.work none) → s.lock lk = some c →
      (∀ other, other ≠ lk → s.lock other ≠ some c) → s.table = none →
      ThreadStep c p s ((s.acquireTable c).goto p (.sleepRelease lk chan))
  | sleepRelease {cpu : Cpu} (lk : locks) (chan : Chan) : s.Runs c p (.sleepRelease lk chan) →
      s.lock lk = some c → (s.cpu c).popcli = .ok cpu →
      ThreadStep c p s (((s.setCpu c cpu).setLock lk none).goto p (.sleepAssign (some lk) chan))
  | sleepAssign (lk : Option locks) (chan : Chan) : s.Runs c p (.sleepAssign lk chan) →
      ThreadStep c p s ((s.setProc (s.proc.sleep p chan)).goto p (.sched (.sleep lk)))
  | exit : s.Runs c p (.work none) → s.fork p = none → p ≠ s.initproc → s.NoLock c →
      s.table = none → ThreadStep c p s ((s.acquireTable c).goto p .exiting)
  | exitAssign : s.Runs c p .exiting →
      ThreadStep c p s ((s.setProc (s.proc.exit p s.initproc)).goto p (.sched .exit))
  | wait : s.Runs c p (.work none) → s.table = none →
      ThreadStep c p s ((s.acquireTable c).goto p .waitScan)
  | waitReap (child : Fin nproc) : s.Runs c p .waitScan → s.proc.exitedChild p = some child →
      ThreadStep c p s ((s.setProc (s.proc.reap child)).goto p (.release none))
  | waitFails : s.Runs c p .waitScan → s.proc.exitedChild p = none →
      ¬s.proc.HaveKids p ∨ (s.proc p).killed → ThreadStep c p s (s.goto p (.release none))
  | waitSleeps : s.Runs c p .waitScan → s.proc.exitedChild p = none → s.proc.HaveKids p →
      (s.proc p).killed = false → s.NoLock c → ThreadStep c p s (s.goto p (.sleepAssign none (.proc p)))
  | sched (caller : SchedCaller locks) (current : Fin nproc) : s.Runs c p (.sched caller) →
      (s.cpu c).proc = some current →
      (s.cpu c).schedTests (decide (s.table = some c)) (s.proc current).state = .ok () →
      ThreadStep c p s (s.goto p (.swtch caller (s.cpu c).intena))
  | schedPanics {e : Stop} (caller : SchedCaller locks) (current : Fin nproc) :
      s.Runs c p (.sched caller) → (s.cpu c).proc = some current →
      (s.cpu c).schedTests (decide (s.table = some c)) (s.proc current).state = .error e →
      ThreadStep c p s { s with stopped := some e }
  | swtch (caller : SchedCaller locks) (intena : Bool) : s.Runs c p (.swtch caller intena) →
      ThreadStep c p s ((s.setCpu c ((s.cpu c).goto (.back p))).goto p (.resume caller intena))
  | resumeYield (back : Option locks) (intena : Bool) : s.Runs c p (.resume (.yield back) intena) →
      ThreadStep c p s ((s.setCpu c { s.cpu c with intena := intena }).goto p (.release back))
  | resumeSleep (lk : Option locks) (intena : Bool) : s.Runs c p (.resume (.sleep lk) intena) →
      ThreadStep c p s ((s.setCpu c { s.cpu c with intena := intena }).goto p (.tidy lk))
  | resumeExit (intena : Bool) : s.Runs c p (.resume .exit intena) →
      ThreadStep c p s { s with stopped := some (.panic "zombie exit") }
  | tidy (lk : locks) : s.Runs c p (.tidy (some lk)) →
      ThreadStep c p s ((s.setProc (s.proc.clearChan p)).goto p (.release (some lk)))
  | tidyWait : s.Runs c p (.tidy none) →
      ThreadStep c p s ((s.setProc (s.proc.clearChan p)).goto p .waitScan)
  | release {cpu : Cpu} (back : Option locks) : s.Runs c p (.release back) →
      (s.cpu c).popcli = .ok cpu → ThreadStep c p s ((s.releaseTable c cpu).goto p (.work back))
  | forkret {cpu : Cpu} : s.Runs c p .forkret → (s.cpu c).popcli = .ok cpu →
      ThreadStep c p s ((s.releaseTable c cpu).goto p (.work none))
  | reacquire (lk : locks) : s.Runs c p (.work (some lk)) → s.lock lk = none →
      ThreadStep c p s (((s.setCpu c (s.cpu c).pushcli).setLock lk (some c)).goto p (.work none))

/-- The steps of the scheduler of processor `c`. -/
inductive SchedulerStep {cpus locks : Type} [DecidableEq cpus] (c : cpus) (s : Machine cpus locks) :
    Machine cpus locks → Prop
  | acquire : (s.cpu c).pc = .lock → s.table = none →
      SchedulerStep c s ((s.setCpu c ((s.cpu c).pushcli.goto (.loop 0))).setTable (some c))
  | skip (k : Fin nproc) : (s.cpu c).pc = .loop k → (s.proc k).state ≠ .runnable →
      SchedulerStep c s (s.setCpu c ((s.cpu c).goto (.loop (k + 1))))
  | pick (k : Fin nproc) : (s.cpu c).pc = .loop k → (s.proc k).state = .runnable →
      SchedulerStep c s (s.setCpu c { s.cpu c with proc := some k, pc := .setRunning k })
  | setRunning (k : Fin nproc) : (s.cpu c).pc = .setRunning k →
      SchedulerStep c s ((s.setProc (s.proc.setState k .running)).setCpu c ((s.cpu c).goto (.switch k)))
  | switch (k : Fin nproc) : (s.cpu c).pc = .switch k →
      SchedulerStep c s (s.setCpu c ((s.cpu c).goto (.runs k)))
  | back (k : Fin nproc) : (s.cpu c).pc = .back k →
      SchedulerStep c s (s.setCpu c { s.cpu c with proc := none, pc := .loop (k + 1) })
  | release {cpu : Cpu} : (s.cpu c).pc = .loop nproc → (s.cpu c).popcli = .ok cpu →
      SchedulerStep c s ((s.setCpu c (cpu.goto .lock)).setTable none)

/-- One step of some processor, unless there was a panic. -/
inductive MachineStep {cpus locks : Type} [DecidableEq cpus] [DecidableEq locks]
    (s : Machine cpus locks) : Machine cpus locks → Prop
  | outside {t : Machine cpus locks} (c : cpus) : s.stopped = none → OutsideStep c s t → MachineStep s t
  | fork {t : Machine cpus locks} (c : cpus) (p : Fin nproc) : s.stopped = none → ForkStep c p s t → MachineStep s t
  | thread {t : Machine cpus locks} (c : cpus) (p : Fin nproc) : s.stopped = none →
      ThreadStep c p s t → MachineStep s t
  | scheduler {t : Machine cpus locks} (c : cpus) : s.stopped = none → SchedulerStep c s t → MachineStep s t

end MiniOS
