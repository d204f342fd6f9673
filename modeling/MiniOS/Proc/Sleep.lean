import MiniOS.Lib.Run
import MiniOS.Proc.Table

namespace MiniOS

open Function

/-- Where a process goes on after a `yield`: outside of the patterns, or at the
`acquire(lk)` at the end of `sleep`. -/
inductive Resume
  | idle
  | relock
  deriving DecidableEq

/-- Where a process is in the patterns of a waiter and of a signaller, named
after what it does next. From `lockTable` to `relock` it is in `sleep`, from
`wakeLock` to `wakeUnlock` in `wakeup`, from `yieldLock` on in `yield`, or in
`forkret` for a process that has not run yet. -/
inductive SleepPc
  | idle
  | test
  | lockTable
  | unlockLk
  | setChan
  | setState
  | sched
  | clearChan
  | unlockTable
  | relock
  | take
  | leave
  | raise
  | wakeLock
  | scan (k : Nat)
  | wake (k : Nat)
  | wakeUnlock
  | yieldLock (back : Resume)
  | yieldState (back : Resume)
  | yieldSched (back : Resume)
  | yieldUnlock (back : Resume)
  deriving DecidableEq

def Resume.pc : Resume → SleepPc
  | idle => .idle
  | relock => .relock

/-- Where the scheduler of a processor is. It has switched to process `i` at
`runs i`, and comes back from it at `back i`. -/
inductive CpuPc (n : Nat)
  | lock
  | loop (k : Nat)
  | setRunning (i : Fin n)
  | switch (i : Fin n)
  | runs (i : Fin n)
  | back (i : Fin n)

/-- The processes and processors, with the processor that holds `lk` and the one
that holds `ptable.lock`. `waits i` says that `p->chan` is the channel. -/
structure SleepSystem (n : Nat) (cpus : Type) where
  pc : Fin n → SleepPc
  state : Fin n → ProcState
  waits : Fin n → Bool
  cpu : cpus → CpuPc n
  lk : Option cpus
  table : Option cpus
  cond : Bool

namespace SleepSystem

variable {n : Nat} {cpus : Type} [DecidableEq cpus]

def goto (s : SleepSystem n cpus) (i : Fin n) (pc : SleepPc) : SleepSystem n cpus :=
  { s with pc := update s.pc i pc }

def setState (s : SleepSystem n cpus) (i : Fin n) (state : ProcState) : SleepSystem n cpus :=
  { s with state := update s.state i state }

def setWaits (s : SleepSystem n cpus) (i : Fin n) (waits : Bool) : SleepSystem n cpus :=
  { s with waits := update s.waits i waits }

def setCpu (s : SleepSystem n cpus) (c : cpus) (pc : CpuPc n) : SleepSystem n cpus :=
  { s with cpu := update s.cpu c pc }

/-- The processes have not run yet. -/
def initial (n : Nat) (cpus : Type) (cond : Bool) : SleepSystem n cpus where
  pc _ := .yieldUnlock .idle
  state _ := .runnable
  waits _ := false
  cpu _ := .lock
  lk := none
  table := none
  cond := cond

/-- The steps of process `i`, which runs on processor `c`. -/
inductive ProcMove (i : Fin n) (c : cpus) (s : SleepSystem n cpus) : SleepSystem n cpus → Prop
  | waitLock : s.pc i = .idle → s.lk = none → ProcMove i c s ({ s with lk := some c }.goto i .test)
  | sleeps : s.pc i = .test → s.cond = false → ProcMove i c s (s.goto i .lockTable)
  | found : s.pc i = .test → s.cond = true → ProcMove i c s (s.goto i .take)
  | lockTable : s.pc i = .lockTable → s.table = none →
      ProcMove i c s ({ s with table := some c }.goto i .unlockLk)
  | unlockLk : s.pc i = .unlockLk → ProcMove i c s ({ s with lk := none }.goto i .setChan)
  | setChan : s.pc i = .setChan → ProcMove i c s ((s.setWaits i true).goto i .setState)
  | setState : s.pc i = .setState → ProcMove i c s ((s.setState i .sleeping).goto i .sched)
  | sched : s.pc i = .sched → ProcMove i c s ((s.setCpu c (.back i)).goto i .clearChan)
  | clearChan : s.pc i = .clearChan → ProcMove i c s ((s.setWaits i false).goto i .unlockTable)
  | unlockTable : s.pc i = .unlockTable → ProcMove i c s ({ s with table := none }.goto i .relock)
  | relock : s.pc i = .relock → s.lk = none → ProcMove i c s ({ s with lk := some c }.goto i .test)
  | take : s.pc i = .take → ProcMove i c s ({ s with cond := false }.goto i .leave)
  | leave : s.pc i = .leave → ProcMove i c s ({ s with lk := none }.goto i .idle)
  | signalLock : s.pc i = .idle → s.lk = none → ProcMove i c s ({ s with lk := some c }.goto i .raise)
  | raise : s.pc i = .raise → ProcMove i c s ({ s with cond := true }.goto i .wakeLock)
  | wakeLock : s.pc i = .wakeLock → s.table = none →
      ProcMove i c s ({ s with table := some c }.goto i (.scan 0))
  | scanHit (k : Fin n) : s.pc i = .scan k → s.state k = .sleeping → s.waits k = true →
      ProcMove i c s (s.goto i (.wake k))
  | scanMiss (k : Fin n) : s.pc i = .scan k → ¬(s.state k = .sleeping ∧ s.waits k = true) →
      ProcMove i c s (s.goto i (.scan (k + 1)))
  | wake (k : Fin n) : s.pc i = .wake k →
      ProcMove i c s ((s.setState k .runnable).goto i (.scan (k + 1)))
  | scanEnd : s.pc i = .scan n → ProcMove i c s (s.goto i .wakeUnlock)
  | wakeUnlock : s.pc i = .wakeUnlock → ProcMove i c s ({ s with table := none }.goto i .leave)
  | yield (back : Resume) : s.pc i = back.pc → ProcMove i c s (s.goto i (.yieldLock back))
  | yieldLock (back : Resume) : s.pc i = .yieldLock back → s.table = none →
      ProcMove i c s ({ s with table := some c }.goto i (.yieldState back))
  | yieldState (back : Resume) : s.pc i = .yieldState back →
      ProcMove i c s ((s.setState i .runnable).goto i (.yieldSched back))
  | yieldSched (back : Resume) : s.pc i = .yieldSched back →
      ProcMove i c s ((s.setCpu c (.back i)).goto i (.yieldUnlock back))
  | yieldUnlock (back : Resume) : s.pc i = .yieldUnlock back →
      ProcMove i c s ({ s with table := none }.goto i back.pc)

/-- The steps of the scheduler of processor `c`. -/
inductive CpuMove (c : cpus) (s : SleepSystem n cpus) : SleepSystem n cpus → Prop
  | lock : s.cpu c = .lock → s.table = none → CpuMove c s ({ s with table := some c }.setCpu c (.loop 0))
  | skip (k : Fin n) : s.cpu c = .loop k → s.state k ≠ .runnable →
      CpuMove c s (s.setCpu c (.loop (k + 1)))
  | pick (k : Fin n) : s.cpu c = .loop k → s.state k = .runnable →
      CpuMove c s (s.setCpu c (.setRunning k))
  | setRunning (k : Fin n) : s.cpu c = .setRunning k →
      CpuMove c s ((s.setState k .running).setCpu c (.switch k))
  | switch (k : Fin n) : s.cpu c = .switch k → CpuMove c s (s.setCpu c (.runs k))
  | back (k : Fin n) : s.cpu c = .back k → CpuMove c s (s.setCpu c (.loop (k + 1)))
  | unlock : s.cpu c = .loop n → CpuMove c s ({ s with table := none }.setCpu c .lock)

inductive Step : SleepSystem n cpus → SleepSystem n cpus → Prop
  | proc {s t : SleepSystem n cpus} (i : Fin n) (c : cpus) : s.cpu c = .runs i → ProcMove i c s t → Step s t
  | cpu {s t : SleepSystem n cpus} (c : cpus) : CpuMove c s t → Step s t

end SleepSystem

end MiniOS
