import MiniOS.Sched.States

namespace MiniOS.Machine

open Lib Function

variable {cpus locks : Type} {s t : Machine cpus locks} {c d : cpus} {p : Fin nproc}

/-- A step on processor `c` that leaves the threads of the other processors and the locks they hold alone. -/
theorem Frame.of_step [DecidableEq locks] (cpu : ∀ d, d ≠ c → t.cpu d = s.cpu d)
    (table : t.table = s.table ∨ (s.table = none ∧ t.table = some c) ∨ (s.table = some c ∧ t.table = none))
    (lock : t.lock = s.lock ∨ ∃ lk, (s.lock lk = none ∧ t.lock = update s.lock lk (some c)) ∨
      (s.lock lk = some c ∧ t.lock = update s.lock lk none))
    (pc : ∀ d, d ≠ c → ∀ q, (s.cpu d).pc = .runs q → t.pc q = s.pc q) (d : cpus) (other : d ≠ c) : s.Frame t d := by
  have ne : (some c : Option cpus) ≠ some d := fun same => other (Option.some.inj same).symm
  refine ⟨cpu d other, ?_, fun lk => ?_, pc d other⟩
  · rcases table with same | ⟨before, after⟩ | ⟨before, after⟩
    · rw [same]
    · rw [before, after]
      exact iff_of_false ne nofun
    · rw [before, after]
      exact iff_of_false nofun ne
  · rcases lock with same | ⟨lk', ⟨before, after⟩ | ⟨before, after⟩⟩
    · rw [same]
    · rw [after]
      by_cases here : lk = lk'
      · rw [here, update_self, before]
        exact iff_of_false ne nofun
      · rw [update_of_ne here]
    · rw [after]
      by_cases here : lk = lk'
      · rw [here, update_self, before]
        exact iff_of_false nofun ne
      · rw [update_of_ne here]

variable [DecidableEq cpus] [Fintype locks]

/-- What every step keeps. -/
structure Scheduled (s : Machine cpus locks) : Prop where
  cpu : ∀ c, s.CpuOk c
  placed : s.Placed
  running : s.stopped = none

namespace Scheduled

variable {caller : SchedCaller locks} {cpu : Cpu} {b a : ThreadPc locks} {back : Option locks} {lk : locks}

section

variable (sched : s.Scheduled)
include sched

theorem locked_unique (left : s.Locked c) (right : s.Locked d) : c = d := by
  have first := (sched.cpu c).table.2 left
  rw [(sched.cpu d).table.2 right] at first
  exact (Option.some.inj first).symm

/-- The other processors have no part in a step of `c`. -/
theorem of_frame (own : t.CpuOk c) (others : ∀ d, d ≠ c → s.Frame t d) (placed : t.Placed)
    (running : t.stopped = none) : t.Scheduled := by
  refine ⟨fun d => ?_, placed, running⟩
  by_cases here : d = c
  · rwa [here]
  · exact (sched.cpu d).frame (others d here)

/-- The process that `c->proc` is while a thread runs. -/
theorem current {current : Fin nproc} (runs : (s.cpu c).pc = .runs p)
    (found : (s.cpu c).proc = some current) : current = p := by
  have proc := (sched.cpu c).proc
  rw [runs, found] at proc
  exact Option.some.inj proc

/-- A processor with the lock that does not execute a process itself finds it executed nowhere, unless it is running.
-/
theorem off_of_locked (locked : s.Locked c) {k : Fin nproc} (elsewhere : (s.cpu c).pc ≠ .runs k)
    (state : (s.proc k).state ≠ .running) (d : cpus) : (s.cpu d).pc ≠ .runs k := by
  intro at_k
  obtain running | ⟨window, _⟩ := ((sched.placed.each k).fits d at_k).cases
  · exact state running
  · exact elsewhere (sched.locked_unique locked ((locked_runs at_k).2 window) ▸ at_k)

theorem fits (runs : s.Runs c p a) : a.Fits (s.proc p).state :=
  runs.2 ▸ (sched.placed.each p).fits c runs.1

omit [Fintype locks] in

end

omit [Fintype locks] in
theorem places (d : cpus) (cpus : t.cpu = update s.cpu c cpu) (stays : cpu.pc = (s.cpu c).pc) :
    (t.cpu d).pc = (s.cpu d).pc := by
  rw [cpus]
  by_cases here : d = c
  · rw [here, update_self, stays]
  · rw [update_of_ne here]

/-- None of the tests of `sched` fails. -/
theorem schedTests_ok (sched : s.Scheduled) {current : Fin nproc}
    (runs : s.Runs c p (.sched caller)) (found : (s.cpu c).proc = some current) :
    (s.cpu c).schedTests (decide (s.table = some c)) (s.proc current).state = .ok () := by
  have ok := sched.cpu c
  have table : s.table = some c := ok.table.2 (by rw [locked_runs runs.1, runs.2]; rfl)
  have nothing : countAt s.lock c = 0 := by
    refine countAt_eq_zero.2 fun lk held => ?_
    have may := ok.holds p runs.1 lk held
    rw [runs.2] at may
    exact may
  have one : (s.cpu c).ncli = 1 := by rw [ok.ncli, nothing, if_pos table]
  have stopped : (s.proc current).state ≠ .running := by
    rw [sched.current runs.1 found]
    exact (SchedCaller.Fits.alive (sched.fits runs)).2.2
  have masked := ok.masked (by omega)
  unfold Cpu.schedTests
  rw [decide_eq_true table, one, masked, if_neg (by decide), if_neg (by decide), if_neg stopped, if_neg nofun]

variable [DecidableEq locks]

section

variable (sched : s.Scheduled)
include sched

/-- A thread goes on, on the processor that executes it. -/
theorem thread (runs : (s.cpu c).pc = .runs p)
    (cpus : t.cpu = update s.cpu c cpu) (stays : cpu.pc = .runs p) (pc : t.pc = update s.pc p b)
    (fork : t.fork = s.fork) (stopped : t.stopped = s.stopped)
    (table : t.table = s.table ∨ (s.table = none ∧ t.table = some c) ∨ (s.table = some c ∧ t.table = none))
    (lock : t.lock = s.lock ∨ ∃ lk, (s.lock lk = none ∧ t.lock = update s.lock lk (some c)) ∨
      (s.lock lk = some c ∧ t.lock = update s.lock lk none))
    (own : t.CpuOk c)
    (state : ∀ q, q ≠ p → Ptable.Woken (s.proc q).state (t.proc q).state ∨
      (∀ d, (s.cpu d).pc ≠ .runs q) ∧ (s.proc q).state = .zombie ∧ (t.proc q).state = .unused)
    (fits : b.Fits (t.proc p).state) : t.Scheduled := by
  refine sched.of_frame own (.of_step (fun d other => by rw [cpus, update_of_ne other]) table lock ?_)
    (sched.placed.thread runs (fun d => places d cpus (stays.trans runs.symm)) pc fork state fits)
    (stopped.trans sched.running)
  intro d other q at_q
  have here : q ≠ p := by
    rintro rfl
    exact other ((sched.placed.each q).one d c at_q runs)
  rw [pc, update_of_ne here]

/-- A thread goes on within a section under `ptable.lock`. -/
theorem within (runs : s.Runs c p a)
    (before : a.locked = true) (after : b.locked = true) (cpus : t.cpu = update s.cpu c cpu)
    (same : cpu.pc = (s.cpu c).pc ∧ cpu.proc = (s.cpu c).proc ∧ cpu.ncli = (s.cpu c).ncli ∧
      cpu.interrupts = (s.cpu c).interrupts) (pc : t.pc = update s.pc p b)
    (fork : t.fork = s.fork) (stopped : t.stopped = s.stopped) (table : t.table = s.table) (lock : t.lock = s.lock)
    (holds : ∀ lk, s.lock lk = some c → b.MayHold lk)
    (state : ∀ q, q ≠ p → Ptable.Woken (s.proc q).state (t.proc q).state ∨
      (∀ d, (s.cpu d).pc ≠ .runs q) ∧ (s.proc q).state = .zombie ∧ (t.proc q).state = .unused)
    (fits : b.Fits (t.proc p).state) : t.Scheduled := by
  have self : t.cpu c = cpu := by rw [cpus, update_self]
  have stays : (t.cpu c).pc = .runs p := by rw [self, same.1, runs.1]
  have atB : t.pc p = b := by rw [pc, update_self]
  have ok := sched.cpu c
  refine sched.thread runs.1 cpus (same.1.trans runs.1) pc fork stopped (.inl table) (.inl lock) ?_ state fits
  refine ok.still table lock ?_ (by rw [self, same.2.2.1]) ?_ ?_ fun q at_q lk held => ?_
  · rw [locked_runs stays, locked_runs runs.1, atB, runs.2, before, after]
  · rw [self, same.2.2.1, same.2.2.2]
    exact ok.masked
  · rw [self, same.2.1, same.1, ok.proc]
  · rw [stays] at at_q
    cases at_q
    rw [atB]
    exact holds lk held

/-- A thread begins a section under `ptable.lock`. -/
theorem enters (runs : s.Runs c p (.work back))
    (free : s.table = none) (after : b.locked = true) (holds : ∀ lk, s.lock lk = some c → b.MayHold lk)
    (fits : b.Fits .running) : ((s.acquireTable c).goto p b).Scheduled := by
  have self : ((s.acquireTable c).goto p b).cpu c = (s.cpu c).pushcli := update_self ..
  have stays : (((s.acquireTable c).goto p b).cpu c).pc = .runs p := by
    rw [self]
    exact runs.1
  have atB : ((s.acquireTable c).goto p b).pc p = b := update_self ..
  have running : (s.proc p).state = .running := sched.fits runs
  refine sched.thread runs.1 rfl runs.1 rfl rfl rfl (.inr (.inl ⟨free, rfl⟩)) (.inl rfl) ?_
    (fun q _ => .inl (.same _))
    (by rw [show ((s.acquireTable c).goto p b).proc = s.proc from rfl, running]; exact fits)
  refine (sched.cpu c).acquireTable free rfl rfl ?_ (by rw [self]; rfl) (by rw [self]; rfl) ?_
    fun q at_q lk held => ?_
  · rw [locked_runs stays, atB, after]
  · rw [self]
    exact (sched.cpu c).proc
  · rw [stays] at at_q
    cases at_q
    rw [atB]
    exact holds lk held

/-- A thread ends a section under `ptable.lock`. -/
theorem leaves (runs : s.Runs c p a)
    (before : a.locked = true) (running : (s.proc p).state = .running) (pops : (s.cpu c).popcli = .ok cpu) :
    ((s.releaseTable c cpu).goto p (.work back)).Scheduled := by
  obtain ⟨_, proc, pc, _⟩ := Cpu.popcli_eq_ok pops
  have self : ((s.releaseTable c cpu).goto p (.work back)).cpu c = cpu := update_self ..
  have stays : (((s.releaseTable c cpu).goto p (.work back)).cpu c).pc = .runs p := by rw [self, pc, runs.1]
  have atB : ((s.releaseTable c cpu).goto p (.work back)).pc p = .work back := update_self ..
  have locked : s.Locked c := by rw [locked_runs runs.1, runs.2, before]
  refine sched.thread runs.1 rfl (pc.trans runs.1) rfl rfl rfl
    (.inr (.inr ⟨(sched.cpu c).table.2 locked, rfl⟩)) (.inl rfl) ?_ (fun q _ => .inl (.same _)) running
  refine (sched.cpu c).releaseTable locked rfl rfl ?_ pops (by rw [self]) (by rw [self]) ?_ fun q at_q lk => ?_
  · rw [locked_runs stays, atB]
    nofun
  · rw [self, proc, pc]
    exact (sched.cpu c).proc
  · rw [stays] at at_q
    cases at_q
    rw [atB]
    trivial

/-- The scheduler of a processor goes on within its section under `ptable.lock`, or switches to a thread or from it.
-/
theorem scheduler (cpus : t.cpu = update s.cpu c cpu) (before : s.Locked c)
    (after : t.Locked c) (table : t.table = s.table) (lock : t.lock = s.lock) (stopped : t.stopped = s.stopped)
    (ncli : cpu.ncli = (s.cpu c).ncli) (interrupts : cpu.interrupts = (s.cpu c).interrupts)
    (proc : cpu.proc = cpu.pc.current) (holds : ∀ q, cpu.pc = .runs q → ∀ lk, (t.pc q).MayHold lk)
    (pc : ∀ d, d ≠ c → ∀ q, (s.cpu d).pc = .runs q → t.pc q = s.pc q) (placed : t.Placed) : t.Scheduled := by
  have self : t.cpu c = cpu := by rw [cpus, update_self]
  have ok := sched.cpu c
  refine sched.of_frame (c := c) ?_
    (.of_step (fun d other => by rw [cpus, update_of_ne other]) (.inl table) (.inl lock) pc) placed
    (stopped.trans sched.running)
  refine ok.still table lock (iff_of_true after before) (by rw [self, ncli]) ?_
    (by rw [self, proc]) fun q at_q lk _ => ?_
  · rw [self, ncli, interrupts]
    exact ok.masked
  · rw [self] at at_q
    exact holds q at_q lk

theorem swtch {intena : Bool} (runs : s.Runs c p (.swtch caller intena)) :
    ((s.setCpu c ((s.cpu c).goto (.back p))).goto p (.resume caller intena)).Scheduled := by
  have fits : caller.Fits (s.proc p).state := sched.fits runs
  generalize same : (s.setCpu c ((s.cpu c).goto (.back p))).goto p (.resume caller intena) = t
  have cpus : t.cpu = update s.cpu c ((s.cpu c).goto (.back p)) := by rw [← same]; rfl
  have proc : t.proc = s.proc := by rw [← same]; rfl
  have self : (t.cpu c).pc = .back p := by rw [cpus, update_self]; rfl
  have others : ∀ d, d ≠ c → t.cpu d = s.cpu d := fun d other => by rw [cpus, update_of_ne other]
  have pc : ∀ q, q ≠ p → t.pc q = s.pc q := fun q other => by rw [← same]; exact update_of_ne other ..
  have resume : t.pc p = .resume caller intena := by rw [← same]; exact update_self ..
  refine sched.scheduler cpus (by rw [locked_runs runs.1, runs.2]; rfl) (locked_scheduler self rfl)
    (by rw [← same]; rfl) (by rw [← same]; rfl) (by rw [← same]; rfl) rfl rfl ?_ nofun
    (fun d other q at_q => pc q ?_) ?_
  · show (s.cpu c).proc = some p
    rw [(sched.cpu c).proc, runs.1]
    rfl
  · rintro rfl
    exact ((sched.placed.each q).alone runs.1 d other).1 at_q
  · refine sched.placed.moves (c := c) (k := p) (fun d other => by rw [others d other]) (.inl (by rw [runs.1]; rfl))
      (by rw [self]; rfl) (fun q _ => by rw [proc]) pc (by rw [← same]; rfl) fits.alive.2.1
      (.off (fun d => ?_) (by rw [proc]; exact fits.alive.2.2) fun waits => ?_)
    · by_cases here : d = c
      · rw [here, self]
        exact ⟨nofun, nofun, nofun⟩
      · rw [others d here]
        exact (sched.placed.each p).alone runs.1 d here
    · rw [proc] at waits
      rw [resume]
      cases caller with
      | exit =>
        have zombie : (s.proc p).state = .zombie := fits
        rw [zombie] at waits
        rcases waits with waits | waits <;> cases waits
      | _ => rfl

theorem sleepRelease {chan : Chan} (runs : s.Runs c p (.sleepRelease lk chan))
    (held : s.lock lk = some c) (pops : (s.cpu c).popcli = .ok cpu) :
    (((s.setCpu c cpu).setLock lk none).goto p (.sleepAssign (some lk) chan)).Scheduled := by
  obtain ⟨_, _, pc, _⟩ := Cpu.popcli_eq_ok pops
  have running : (s.proc p).state = .running := sched.fits runs
  refine sched.thread runs.1 rfl (pc.trans runs.1) rfl rfl rfl (.inl rfl) (.inr ⟨lk, .inr ⟨held, rfl⟩⟩) ?_
    (fun q _ => .inl (.same _)) running
  generalize same : ((s.setCpu c cpu).setLock lk none).goto p (.sleepAssign (some lk) chan) = t
  have self : t.cpu c = cpu := by rw [← same]; exact update_self ..
  have stays : (t.cpu c).pc = .runs p := by rw [self, pc, runs.1]
  have place : t.pc p = .sleepAssign (some lk) chan := by rw [← same]; exact update_self ..
  refine (sched.cpu c).release held (by rw [← same]; rfl) (by rw [← same]; rfl) ?_ pops self
    fun q at_q other different still => ?_
  · rw [locked_runs stays, locked_runs runs.1, place, runs.2]
    exact Iff.rfl
  · have may := (sched.cpu c).holds p runs.1 other still
    rw [runs.2] at may
    exact absurd may different

theorem reacquire (runs : s.Runs c p (.work (some lk))) (free : s.lock lk = none) :
    (((s.setCpu c (s.cpu c).pushcli).setLock lk (some c)).goto p (.work none)).Scheduled := by
  have running : (s.proc p).state = .running := sched.fits runs
  refine sched.thread runs.1 rfl runs.1 rfl rfl rfl (.inl rfl) (.inr ⟨lk, .inl ⟨free, rfl⟩⟩) ?_
    (fun q _ => .inl (.same _)) running
  generalize same : ((s.setCpu c (s.cpu c).pushcli).setLock lk (some c)).goto p (.work none) = t
  have self : t.cpu c = (s.cpu c).pushcli := by rw [← same]; exact update_self ..
  have stays : (t.cpu c).pc = .runs p := by rw [self]; exact runs.1
  have place : t.pc p = .work none := by rw [← same]; exact update_self ..
  refine (sched.cpu c).acquire free (by rw [← same]; rfl) (by rw [← same]; rfl) ?_
    (by rw [self]; rfl) (by rw [self]; rfl) ?_
    fun q at_q other => ?_
  · rw [locked_runs stays, locked_runs runs.1, place, runs.2]
    exact Iff.rfl
  · rw [self]
    exact (sched.cpu c).proc
  · rw [stays] at at_q
    cases at_q
    rw [place]
    trivial

theorem threadStep (step : ThreadStep c p s t) : t.Scheduled := by
  have same : ∀ q, q ≠ p → Ptable.Woken (s.proc q).state (s.proc q).state ∨
      (∀ d, (s.cpu d).pc ≠ .runs q) ∧ (s.proc q).state = .zombie ∧ (s.proc q).state = .unused :=
      fun _ _ => .inl (.same _)
  have entry : ∀ e q, q ≠ p → Ptable.Woken (s.proc q).state (update s.proc p e q).state ∨
      (∀ d, (s.cpu d).pc ≠ .runs q) ∧ (s.proc q).state = .zombie ∧ (update s.proc p e q).state = .unused := by
    intro e q other
    rw [update_of_ne other]
    exact .inl (.same _)
  have stay : s.cpu = update s.cpu c (s.cpu c) := (update_eq_self ..).symm
  have holds : ∀ {a}, s.Runs c p a → ∀ lk, s.lock lk = some c → a.MayHold lk :=
    fun runs lk held => runs.2 ▸ (sched.cpu c).holds p runs.1 lk held
  cases step with
  | yield _ runs alone free | exit runs _ _ alone free =>
    exact sched.enters runs free rfl (fun lk held => alone lk held) rfl
  | yieldAssign back current runs found =>
    rw [sched.current runs.1 found]
    have hold := holds runs
    refine sched.within runs rfl rfl stay ⟨rfl, rfl, rfl, rfl⟩ rfl rfl rfl rfl rfl hold (entry _) (.inl ?_)
    exact congrArg Proc.state (update_self p _ s.proc)
  | sleep lk chan runs held alone free =>
    refine sched.enters runs free rfl (fun other taken => ?_) rfl
    by_contra different
    exact alone other different taken
  | sleepRelease lk chan runs held pops => exact sched.sleepRelease runs held pops
  | sleepAssign lk chan runs =>
    have hold := holds runs
    refine sched.within runs rfl rfl stay ⟨rfl, rfl, rfl, rfl⟩ rfl rfl rfl rfl rfl hold (entry _) (.inr ?_)
    exact congrArg Proc.state (update_self p _ s.proc)
  | exitAssign runs =>
    have exits := s.proc.exits_exit p s.initproc
    have hold := holds runs
    exact sched.within runs rfl rfl stay ⟨rfl, rfl, rfl, rfl⟩ rfl rfl rfl rfl rfl hold
      (fun q other => .inl (exits.state q other)) exits.self
  | wait runs free => exact sched.enters runs free rfl (fun _ _ => trivial) rfl
  | waitReap child runs found =>
    have fit : (s.proc p).state = .running := sched.fits runs
    have zombie := (Ptable.exitedChild_eq_some found).2
    have other : child ≠ p := by
      rintro rfl
      rw [fit] at zombie
      cases zombie
    have locked : s.Locked c := by rw [locked_runs runs.1, runs.2]; rfl
    have left : (s.proc.reap child p).state = .running := by rwa [Ptable.reap, update_of_ne other.symm]
    refine sched.within runs rfl rfl stay ⟨rfl, rfl, rfl, rfl⟩ rfl rfl rfl rfl rfl (fun _ _ => trivial)
      (fun q _ => ?_) left
    show Ptable.Woken _ (s.proc.reap child q).state ∨ _ ∧ _ ∧ (s.proc.reap child q).state = .unused
    by_cases here : q = child
    · rw [here, Ptable.reap, update_self]
      have elsewhere : (s.cpu c).pc ≠ .runs child := by
        rw [runs.1]
        rintro ⟨⟩
        exact other rfl
      exact .inr ⟨sched.off_of_locked locked elsewhere (by rw [zombie]; nofun), zombie, rfl⟩
    · rw [Ptable.reap, update_of_ne here]
      exact .inl (.same _)
  | waitFails runs | sched _ _ runs =>
    have fit := sched.fits runs
    exact sched.within runs rfl rfl stay ⟨rfl, rfl, rfl, rfl⟩ rfl rfl rfl rfl rfl (fun _ _ => trivial) same fit
  | waitSleeps runs _ _ _ alone =>
    have fit := sched.fits runs
    exact sched.within runs rfl rfl stay ⟨rfl, rfl, rfl, rfl⟩ rfl rfl rfl rfl rfl (fun lk held =>
      alone lk held) same fit
  | schedPanics caller current runs found fails =>
    rw [sched.schedTests_ok runs found] at fails
    cases fails
  | swtch caller intena runs => exact sched.swtch runs
  | resumeYield _ _ runs | resumeSleep _ _ runs =>
    have fit := sched.fits runs
    exact sched.within runs rfl rfl rfl ⟨rfl, rfl, rfl, rfl⟩ rfl rfl rfl rfl rfl (fun _ _ => trivial) same fit
  | resumeExit intena runs => exact (sched.fits runs).elim
  | tidy _ runs | tidyWait runs =>
    have fit := sched.fits runs
    exact sched.within runs rfl rfl stay ⟨rfl, rfl, rfl, rfl⟩ rfl rfl rfl rfl rfl (fun _ _ => trivial) (entry _)
      ((Ptable.part_update Proc.state (by rfl) p).trans fit)
  | release _ runs pops | forkret runs pops =>
    have fit := sched.fits runs
    exact sched.leaves runs rfl fit pops
  | reacquire lk runs free => exact sched.reacquire runs free

end

end Scheduled

end MiniOS.Machine
