import MiniOS.Sched.System

namespace MiniOS

open Lib Function

/-- The thread has `ptable.lock` when it runs. -/
def ThreadPc.locked {locks : Type} : ThreadPc locks → Bool
  | work _ => false
  | _ => true

/-- The spinlocks other than `ptable.lock` that the processor may hold at this place of a thread. -/
def ThreadPc.MayHold {locks : Type} : ThreadPc locks → locks → Prop
  | yielding _, _ => False
  | sleepRelease lk _, other => other = lk
  | sleepAssign _ _, _ => False
  | exiting, _ => False
  | sched _, _ => False
  | _, _ => True

/-- `c->proc` at this place of the scheduler. -/
def CpuPc.current : CpuPc nproc → Option (Fin nproc)
  | lock => none
  | loop _ => none
  | setRunning i | switch i | runs i | back i => some i

/-- The scheduler has `ptable.lock` and executes no thread. -/
def CpuPc.inLoop : CpuPc nproc → Bool
  | lock | runs _ => false
  | _ => true

namespace Cpu

variable {cpu cpu' : Cpu}

theorem popcli_eq_ok (pops : cpu.popcli = .ok cpu') :
    cpu.ncli = cpu'.ncli + 1 ∧ cpu'.proc = cpu.proc ∧ cpu'.pc = cpu.pc ∧
    (0 < cpu'.ncli → cpu'.interrupts = false) := by
  unfold popcli at pops
  split at pops
  · cases pops
  · split at pops
    · cases pops
    · rename_i some_left
      cases pops
      refine ⟨(Nat.succ_pred_eq_of_ne_zero some_left).symm, rfl, rfl, fun more => ?_⟩
      have more : 0 < cpu.ncli - 1 := more
      have several : cpu.ncli ≠ 1 := by omega
      simp only [several, decide_false, Bool.false_and]

/-- `pushcli` and `popcli` leave `ncli` as it was, and interrupts off if they were to be. -/
theorem pushcli_popcli (pops : cpu.pushcli.popcli = .ok cpu') :
    cpu'.ncli = cpu.ncli ∧ cpu'.proc = cpu.proc ∧ cpu'.pc = cpu.pc ∧ (0 < cpu'.ncli → cpu'.interrupts = false) := by
  obtain ⟨count, proc, pc, masked⟩ := popcli_eq_ok pops
  exact ⟨(Nat.succ.inj count).symm, proc, pc, masked⟩

end Cpu

namespace Machine

variable {cpus locks : Type} {s t : Machine cpus locks} {c d : cpus} {p : Fin nproc}

/-- The scheduler of the processor or the thread that it executes has `ptable.lock`. -/
def Locked (s : Machine cpus locks) (c : cpus) : Prop :=
  match (s.cpu c).pc with
  | .lock => False
  | .runs p => (s.pc p).locked = true
  | _ => True

theorem locked_runs (runs : (s.cpu c).pc = .runs p) : s.Locked c ↔ (s.pc p).locked = true := by
  simp only [Locked, runs]

theorem locked_scheduler {pc : CpuPc nproc} (at_pc : (s.cpu c).pc = pc) (inside : pc.inLoop = true) : s.Locked c := by
  rw [Locked, at_pc]
  cases pc with
  | lock | runs => cases inside
  | _ => trivial

variable [DecidableEq cpus] [Fintype locks]

/-- What holds of a processor: who has `ptable.lock`, that `ncli` counts the spinlocks that it holds and
interrupts are off while it holds one, and what `c->proc` is. -/
structure CpuOk (s : Machine cpus locks) (c : cpus) : Prop where
  table : s.table = some c ↔ s.Locked c
  ncli : (s.cpu c).ncli = countAt s.lock c + (if s.table = some c then 1 else 0)
  masked : 0 < (s.cpu c).ncli → (s.cpu c).interrupts = false
  proc : (s.cpu c).proc = (s.cpu c).pc.current
  holds : ∀ p, (s.cpu c).pc = .runs p → ∀ lk, s.lock lk = some c → (s.pc p).MayHold lk

/-- A processor has part in no step of another one. -/
structure Frame (s t : Machine cpus locks) (d : cpus) : Prop where
  cpu : t.cpu d = s.cpu d
  table : t.table = some d ↔ s.table = some d
  lock : ∀ lk, t.lock lk = some d ↔ s.lock lk = some d
  pc : ∀ p, (s.cpu d).pc = .runs p → t.pc p = s.pc p

theorem countAt_congr (lock : ∀ lk, t.lock lk = some d ↔ s.lock lk = some d) : countAt t.lock d = countAt s.lock d :=
  congrArg Finset.card (Finset.filter_congr fun lk _ => lock lk)

theorem CpuOk.frame (ok : s.CpuOk d) (frame : s.Frame t d) : t.CpuOk d := by
  have locked : t.Locked d ↔ s.Locked d := by
    simp only [Locked, frame.cpu]
    split
    · exact Iff.rfl
    · rename_i p runs
      rw [frame.pc p runs]
    · exact Iff.rfl
  refine ⟨?_, ?_, ?_, ?_, fun p runs lk held => ?_⟩
  · rw [frame.table, locked]
    exact ok.table
  · simp only [frame.cpu, frame.table, countAt_congr frame.lock]
    exact ok.ncli
  · rw [frame.cpu]
    exact ok.masked
  · rw [frame.cpu]
    exact ok.proc
  · rw [frame.cpu] at runs
    rw [frame.pc p runs]
    exact ok.holds p runs lk ((frame.lock lk).1 held)

namespace CpuOk

/-- The locks stay as they are. -/
theorem still (ok : s.CpuOk c) (table : t.table = s.table) (lock : t.lock = s.lock) (locked : t.Locked c ↔ s.Locked c)
    (ncli : (t.cpu c).ncli = (s.cpu c).ncli) (masked : 0 < (t.cpu c).ncli → (t.cpu c).interrupts = false)
    (proc : (t.cpu c).proc = (t.cpu c).pc.current)
    (holds : ∀ p, (t.cpu c).pc = .runs p → ∀ lk, s.lock lk = some c → (t.pc p).MayHold lk) : t.CpuOk c where
  table := by rw [table, locked, ok.table]
  ncli := by rw [ncli, table, lock, ok.ncli]
  masked := masked
  proc := proc
  holds p runs lk held := holds p runs lk (lock ▸ held)

theorem acquireTable (ok : s.CpuOk c) (free : s.table = none) (table : t.table = some c) (lock : t.lock = s.lock)
    (locked : t.Locked c) (ncli : (t.cpu c).ncli = (s.cpu c).ncli + 1) (masked : (t.cpu c).interrupts = false)
    (proc : (t.cpu c).proc = (t.cpu c).pc.current)
    (holds : ∀ p, (t.cpu c).pc = .runs p → ∀ lk, s.lock lk = some c → (t.pc p).MayHold lk) : t.CpuOk c where
  table := iff_of_true table locked
  ncli := by rw [ncli, ok.ncli, table, lock, free, if_pos rfl, if_neg nofun]
  masked _ := masked
  proc := proc
  holds p runs lk held := holds p runs lk (lock ▸ held)

theorem releaseTable (ok : s.CpuOk c) {cpu : Cpu} (locked : s.Locked c) (table : t.table = none)
    (lock : t.lock = s.lock) (out : ¬t.Locked c) (pops : (s.cpu c).popcli = .ok cpu)
    (ncli : (t.cpu c).ncli = cpu.ncli) (interrupts : (t.cpu c).interrupts = cpu.interrupts)
    (proc : (t.cpu c).proc = (t.cpu c).pc.current) (holds : ∀ p, (t.cpu c).pc = .runs p → ∀ lk, (t.pc p).MayHold lk) :
    t.CpuOk c := by
  obtain ⟨count, _, _, masked⟩ := Cpu.popcli_eq_ok pops
  refine ⟨iff_of_false (by rw [table]; nofun) out, ?_, ?_, proc, fun p runs lk _ => holds p runs lk⟩
  · have before := ok.ncli
    rw [if_pos (ok.table.2 locked)] at before
    rw [ncli, table, lock, if_neg nofun]
    omega
  · rw [ncli, interrupts]
    exact masked

variable [DecidableEq locks]

theorem acquire (ok : s.CpuOk c) {lk : locks} (free : s.lock lk = none) (table : t.table = s.table)
    (lock : t.lock = update s.lock lk (some c)) (locked : t.Locked c ↔ s.Locked c)
    (ncli : (t.cpu c).ncli = (s.cpu c).ncli + 1) (masked : (t.cpu c).interrupts = false)
    (proc : (t.cpu c).proc = (t.cpu c).pc.current)
    (holds : ∀ p, (t.cpu c).pc = .runs p → ∀ lk, (t.pc p).MayHold lk) : t.CpuOk c where
  table := by rw [table, locked, ok.table]
  ncli := by
    have count := countAt_update s.lock lk (some c) c
    rw [free, if_neg nofun, if_pos rfl] at count
    rw [ncli, ok.ncli, table, lock]
    omega
  masked _ := masked
  proc := proc
  holds p runs lk _ := holds p runs lk

theorem release (ok : s.CpuOk c) {lk : locks} {cpu : Cpu} (held : s.lock lk = some c) (table : t.table = s.table)
    (lock : t.lock = update s.lock lk none) (locked : t.Locked c ↔ s.Locked c)
    (pops : (s.cpu c).popcli = .ok cpu) (after : t.cpu c = cpu)
    (holds : ∀ p, (t.cpu c).pc = .runs p → ∀ other, other ≠ lk → s.lock other = some c → (t.pc p).MayHold other) :
    t.CpuOk c := by
  obtain ⟨ncli, proc, pc, masked⟩ := Cpu.popcli_eq_ok pops
  refine ⟨by rw [table, locked, ok.table], ?_, ?_, ?_, fun p runs other still => ?_⟩
  · have count := countAt_update s.lock lk none c
    rw [held, if_pos rfl, if_neg nofun] at count
    have before := ok.ncli
    rw [after, table, lock]
    omega
  · rw [after]
    exact masked
  · rw [after, proc, pc, ok.proc]
  · rw [lock] at still
    by_cases here : other = lk
    · rw [here, update_self] at still
      cases still
    · rw [update_of_ne here] at still
      exact holds p runs other here still

end CpuOk

end Machine

end MiniOS
