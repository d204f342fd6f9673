import MiniOS.Lib.Run
import MiniOS.Sched.Threads

namespace MiniOS.Machine

open Lib Relation Function

variable {cpus locks : Type} [DecidableEq cpus] [Fintype locks] {s t : Machine cpus locks}
  {c d : cpus} {p : Fin nproc}

namespace Scheduled

variable {cpu : Cpu}

theorem initial (kstack pgdir : Nat) : (initial cpus locks kstack pgdir).Scheduled where
  cpu c := by
    refine ⟨iff_of_false nofun id, ?_, nofun, rfl, nofun⟩
    have none_held : countAt (Machine.initial cpus locks kstack pgdir).lock c = 0 := countAt_eq_zero.2 fun _ => nofun
    rw [none_held]
    rfl
  placed := .initial ..
  running := rfl

/-- The scheduler has found a process: its thread waits and no processor executes it. -/
theorem resumable (sched : s.Scheduled) (locked : s.Locked c) {k : Fin nproc} (idle : ∀ q, (s.cpu c).pc ≠ .runs q)
    (runnable : (s.proc k).state = .runnable) : (s.pc k).resumes = true ∧ ∀ d, (s.cpu d).pc ≠ .runs k := by
  have off := sched.off_of_locked locked (idle k) (by rw [runnable]; decide)
  refine ⟨((sched.placed.each k).waits (.inl runnable)).resolve_left ?_, off⟩
  rintro ⟨d, at_k⟩
  exact off d at_k

/-- A scheduler goes on with the process that it has found. -/
theorem turn (sched : s.Scheduled) {k : Fin nproc} (locked : s.Locked c)
    (own : (s.cpu c).pc.current = some k ∨ (s.cpu c).pc.current = none)
    (off : ∀ d, (s.cpu d).pc ≠ .runs k) (resumes : (s.pc k).resumes = true) (grown : (s.proc k).state ≠ .embryo)
    (cpus : t.cpu = update s.cpu c cpu) (proc : ∀ q, q ≠ k → t.proc q = s.proc q) (pc : t.pc = s.pc)
    (fork : t.fork = s.fork)
    (place : (cpu.pc = .setRunning k ∧ (t.proc k).state = .runnable ∨ cpu.pc = .switch k ∧
      (t.proc k).state = .running) ∨
      cpu.pc = .runs k ∧ (t.proc k).state = .running) : t.Placed := by
  have self : (t.cpu c).pc = cpu.pc := by rw [cpus, update_self]
  have others : ∀ d, d ≠ c → (t.cpu d).pc = (s.cpu d).pc := fun d other => by rw [cpus, update_of_ne other]
  -- the other processors do not have the lock
  have only : ∀ d, d ≠ c → Off (t.cpu d).pc k := by
    intro d other
    rw [others d other]
    have unlocked : ¬s.Locked d := fun also => other (sched.locked_unique also locked)
    exact ⟨off d, fun ready => unlocked (locked_scheduler ready rfl),
      fun switch => unlocked (locked_scheduler switch rfl)⟩
  rw [← self] at place
  have resumes : (t.pc k).resumes = true := by rwa [pc]
  refine sched.placed.moves others own ?_ proc (fun q _ => by rw [pc]) fork grown ?_
  · rcases place with (⟨place, _⟩ | ⟨place, _⟩) | ⟨place, _⟩ <;> rw [place] <;> rfl
  · rcases place with place | ⟨place, running⟩
    · exact .chosen only resumes place
    · refine .executed only place ?_
      rw [running]
      exact ThreadPc.fits_of_resumes resumes

variable [DecidableEq locks]

section

variable (sched : s.Scheduled)
include sched

/-- A scheduler acquires `ptable.lock` before its loop, or releases it after the loop. -/
theorem looping (cpus : t.cpu = update s.cpu c cpu) (before : (s.cpu c).pc = .lock ∨ ∃ k, (s.cpu c).pc = .loop k)
    (after : cpu.pc = .lock ∨ ∃ k, cpu.pc = .loop k) (proc : t.proc = s.proc) (pc : t.pc = s.pc)
    (fork : t.fork = s.fork) (table : (s.table = none ∧ t.table = some c) ∨ (s.table = some c ∧ t.table = none))
    (lock : t.lock = s.lock) (stopped : t.stopped = s.stopped) (own : t.CpuOk c) : t.Scheduled := by
  have others : ∀ d, d ≠ c → t.cpu d = s.cpu d := fun d other => by rw [cpus, update_of_ne other]
  refine sched.of_frame own (.of_step others (.inr table) (.inl lock) fun _ _ q _ => by rw [pc]) ?_
    (stopped.trans sched.running)
  refine sched.placed.loops (c := c) (fun d other => by rw [others d other]) (before.imp_right .inl) ?_ proc pc fork
  rwa [cpus, update_self]

theorem acquire (outside : (s.cpu c).pc = .lock) (free : s.table = none) :
    ((s.setCpu c ((s.cpu c).pushcli.goto (.loop 0))).setTable (some c)).Scheduled := by
  refine sched.looping rfl (.inl outside) (.inr ⟨0, rfl⟩) rfl rfl rfl (.inl ⟨free, rfl⟩) rfl rfl ?_
  generalize same : (s.setCpu c ((s.cpu c).pushcli.goto (.loop 0))).setTable (some c) = t
  have self : t.cpu c = (s.cpu c).pushcli.goto (.loop 0) := by rw [← same]; exact update_self ..
  have inside : (t.cpu c).pc = .loop 0 := by rw [self]; rfl
  refine (sched.cpu c).acquireTable free (by rw [← same]; rfl) (by rw [← same]; rfl)
    (locked_scheduler inside rfl)
    (by rw [self]; rfl) (by rw [self]; rfl) ?_ fun q at_q => ?_
  · rw [inside, self]
    exact (sched.cpu c).proc.trans (by rw [outside]; rfl)
  · rw [inside] at at_q
    cases at_q

theorem release (last : (s.cpu c).pc = .loop nproc) (pops : (s.cpu c).popcli = .ok cpu) :
    ((s.setCpu c (cpu.goto .lock)).setTable none).Scheduled := by
  obtain ⟨_, proc, _, _⟩ := Cpu.popcli_eq_ok pops
  have locked : s.Locked c := locked_scheduler last rfl
  refine sched.looping rfl (.inr ⟨nproc, last⟩)
    (.inl rfl) rfl rfl rfl (.inr ⟨(sched.cpu c).table.2 locked, rfl⟩) rfl rfl ?_
  generalize same : (s.setCpu c (cpu.goto .lock)).setTable none = t
  have self : t.cpu c = cpu.goto .lock := by rw [← same]; exact update_self ..
  have outside : (t.cpu c).pc = .lock := by rw [self]; rfl
  refine (sched.cpu c).releaseTable locked (by rw [← same]; rfl) (by rw [← same]; rfl) ?_ pops (by rw [self]; rfl)
    (by rw [self]; rfl) ?_ fun q at_q => ?_
  · simp only [Locked, outside, not_false_eq_true]
  · rw [outside, self]
    exact proc.trans ((sched.cpu c).proc.trans (by rw [last]; rfl))
  · rw [outside] at at_q
    cases at_q

theorem schedulerStep (step : SchedulerStep c s t) : t.Scheduled := by
  have still : ∀ d, d ≠ c → ∀ q, (s.cpu d).pc = .runs q → s.pc q = s.pc q := fun _ _ _ _ => rfl
  have away : ∀ {cpu : Cpu} d, d ≠ c → (update s.cpu c cpu d).pc = (s.cpu d).pc :=
    fun d other => by rw [update_of_ne other]
  have here : ∀ cpu : Cpu, (update s.cpu c cpu c).pc = cpu.pc := fun cpu => by rw [update_self]
  cases step with
  | acquire outside free => exact sched.acquire outside free
  | skip k loop _ =>
    exact sched.scheduler rfl (locked_scheduler loop rfl) (locked_scheduler (here _) rfl) rfl rfl rfl rfl rfl
      ((sched.cpu c).proc.trans (by rw [loop]; rfl)) (fun _ runs => by cases runs) still
      (sched.placed.loops (c := c) away (.inr (.inl ⟨_, loop⟩)) (.inr ⟨_, here _⟩) rfl rfl rfl)
  | pick k loop runnable =>
    have locked : s.Locked c := locked_scheduler loop rfl
    obtain ⟨resumes, off⟩ := sched.resumable locked (fun q runs => by rw [loop] at runs; cases runs) runnable
    exact sched.scheduler rfl locked (locked_scheduler (here _) rfl) rfl rfl rfl rfl rfl rfl
      (fun _ runs => by cases runs) still
      (sched.turn locked (.inr (by rw [loop]; rfl)) off resumes (by rw [runnable]; decide) rfl (fun _ _ => rfl) rfl rfl
        (.inl (.inl ⟨rfl, runnable⟩)))
  | setRunning k ready =>
    have locked : s.Locked c := locked_scheduler ready rfl
    obtain ⟨runnable, resumes, off⟩ := (sched.placed.each k).ready c ready
    have current : (s.cpu c).pc.current = some k := by rw [ready]; rfl
    have running : (s.proc.setState k .running k).state = .running := by rw [Ptable.setState, update_self]
    exact sched.scheduler rfl locked (locked_scheduler (here _) rfl) rfl rfl rfl rfl rfl
      ((sched.cpu c).proc.trans current) (fun _ runs => by cases runs) still
      (sched.turn locked (.inl current) off resumes (by rw [runnable]; decide) rfl
        (fun q other => Ptable.setState_of_ne other) rfl rfl (.inl (.inr ⟨rfl, running⟩)))
  | switch k at_pc =>
    have locked : s.Locked c := locked_scheduler at_pc rfl
    obtain ⟨running, resumes, off⟩ := (sched.placed.each k).switch c at_pc
    have current : (s.cpu c).pc.current = some k := by rw [at_pc]; rfl
    refine sched.scheduler rfl locked ((locked_runs (here _)).2 ?_) rfl rfl rfl rfl rfl
      ((sched.cpu c).proc.trans current) (fun q runs lk => ?_) still
      (sched.turn locked (.inl current) off resumes (by rw [running]; decide) rfl (fun _ _ => rfl) rfl rfl
        (.inr ⟨rfl, running⟩))
    · exact ThreadPc.locked_of_resumes resumes
    · cases runs
      exact ThreadPc.mayHold_of_resumes resumes lk
  | back k at_pc =>
    exact sched.scheduler rfl (locked_scheduler at_pc rfl) (locked_scheduler (here _) rfl) rfl rfl rfl rfl rfl rfl
      (fun _ runs => by cases runs) still
      (sched.placed.loops (c := c) away (.inr (.inr ⟨_, at_pc⟩)) (.inr ⟨_, here _⟩) rfl rfl rfl)
  | release last pops => exact sched.release last pops

/-- A processor that is outside of the sections under `ptable.lock` goes on there. -/
theorem outside (cpus : t.cpu = update s.cpu c cpu)
    (stays : cpu.pc = (s.cpu c).pc) (pc : t.pc = s.pc) (fork : t.fork = s.fork) (stopped : t.stopped = s.stopped)
    (table : t.table = s.table)
    (lock : t.lock = s.lock ∨ ∃ lk, (s.lock lk = none ∧ t.lock = update s.lock lk (some c)) ∨
      (s.lock lk = some c ∧ t.lock = update s.lock lk none))
    (own : (t.Locked c ↔ s.Locked c) → t.CpuOk c) (state : ∀ q, Ptable.Woken (s.proc q).state (t.proc q).state) :
    t.Scheduled := by
  have places := fun d => places d cpus stays
  refine sched.of_frame (own ?_) (.of_step (fun d other => by rw [cpus, update_of_ne other]) (.inl table) lock
    fun _ _ q _ => by rw [pc]) (sched.placed.calm places pc fork state) (stopped.trans sched.running)
  simp only [Locked, places, pc]

/-- The processor goes on with its locks as they are. -/
theorem balanced (out : s.Outside c) (cpus : t.cpu = update s.cpu c cpu)
    (ncli : cpu.ncli = (s.cpu c).ncli) (proc : cpu.proc = (s.cpu c).proc) (stays : cpu.pc = (s.cpu c).pc)
    (masked : 0 < cpu.ncli → cpu.interrupts = false) (pc : t.pc = s.pc) (fork : t.fork = s.fork)
    (stopped : t.stopped = s.stopped) (table : t.table = s.table) (lock : t.lock = s.lock)
    (state : ∀ q, Ptable.Woken (s.proc q).state (t.proc q).state) : t.Scheduled := by
  have self : t.cpu c = cpu := by rw [cpus, update_self]
  refine sched.outside cpus stays pc fork stopped table (.inl lock) (fun locked => ?_) state
  refine (sched.cpu c).still table lock locked (by rw [self, ncli]) (by rw [self]; exact masked) ?_
    fun q runs lk _ => ?_
  · rw [self, proc, stays, (sched.cpu c).proc]
  · rw [self, stays] at runs
    rw [pc]
    exact outside_mayHold out q runs lk

theorem outsideStep (step : OutsideStep c s t) : t.Scheduled := by
  have ok := sched.cpu c
  cases step with
  | wakeup chan out free pops =>
    obtain ⟨ncli, proc, pc, masked⟩ := Cpu.pushcli_popcli pops
    exact sched.balanced out rfl ncli proc pc masked rfl rfl rfl rfl rfl (Ptable.woken_wakeup1 s.proc chan)
  | kill pid out free pops =>
    obtain ⟨ncli, proc, pc, masked⟩ := Cpu.pushcli_popcli pops
    exact sched.balanced out rfl ncli proc pc masked rfl rfl rfl rfl rfl (Ptable.woken_kill s.proc pid)
  | acquire lk out free =>
    refine sched.outside rfl rfl rfl rfl rfl rfl (.inr ⟨lk, .inl ⟨free, rfl⟩⟩) (fun locked => ?_) fun _ => .same _
    have self : ((s.setCpu c (s.cpu c).pushcli).setLock lk (some c)).cpu c = (s.cpu c).pushcli := update_self ..
    refine ok.acquire free rfl rfl locked (by rw [self]; rfl) (by rw [self]; rfl) ?_ fun q runs other => ?_
    · rw [self]
      exact ok.proc
    · rw [self] at runs
      exact outside_mayHold out q runs other
  | @release cpu lk out held pops =>
    obtain ⟨_, _, pc, _⟩ := Cpu.popcli_eq_ok pops
    refine sched.outside rfl pc rfl rfl rfl rfl (.inr ⟨lk, .inr ⟨held, rfl⟩⟩) (fun locked => ?_) fun _ => .same _
    have self : ((s.setCpu c cpu).setLock lk none).cpu c = cpu := update_self ..
    refine ok.release held rfl rfl locked pops self fun q runs other _ _ => ?_
    rw [self, pc] at runs
    exact outside_mayHold out q runs other
  | interrupts flag out zero =>
    exact sched.balanced out rfl rfl rfl rfl (fun some_left =>
      absurd zero (Nat.ne_of_gt some_left)) rfl rfl rfl rfl rfl
      fun _ => .same _
  | myproc out pops =>
    obtain ⟨ncli, proc, pc, masked⟩ := Cpu.pushcli_popcli pops
    exact sched.balanced out rfl ncli proc pc masked rfl rfl rfl rfl rfl fun _ => .same _

/-- A step of `fork` on an entry that no process uses yet. -/
theorem forking {np : Fin nproc} {e : Proc} (runs : s.Runs c p (.work none))
    (cpus : t.cpu = update s.cpu c cpu) (ncli : cpu.ncli = (s.cpu c).ncli) (current : cpu.proc = (s.cpu c).proc)
    (stays : cpu.pc = (s.cpu c).pc) (masked : 0 < cpu.ncli → cpu.interrupts = false)
    (early : (s.proc np).state = .unused ∨ (s.proc np).state = .embryo) (proc : t.proc = update s.proc np e)
    (pc : ∀ q, q ≠ np → t.pc q = s.pc q)
    (new : e.state = .unused ∨ e.state = .embryo ∨ e.state = .runnable ∧ t.pc np = .forkret)
    (fork : ∀ q k, t.fork q = some k → k ≠ np ∧ s.fork q = some k ∨ k = np ∧ q = p ∧
      e.state = .embryo ∧ t.pc np = .forkret)
    (stopped : t.stopped = s.stopped) (table : t.table = s.table) (lock : t.lock = s.lock) : t.Scheduled := by
  have self : t.cpu c = cpu := by rw [cpus, update_self]
  have off : ∀ d q, (s.cpu d).pc = .runs q → q ≠ np := by
    rintro d q at_q rfl
    have alive := ((sched.placed.each q).fits d at_q).alive
    exact early.elim alive.1 alive.2
  have places := fun d => places d cpus stays
  refine sched.of_frame (c := c) ?_ (.of_step (fun d other => by rw [cpus, update_of_ne other]) (.inl table)
    (.inl lock) fun d _ q at_q => pc q (off d q at_q)) (sched.placed.entry places early proc pc new fork)
    (stopped.trans sched.running)
  have place : t.pc p = s.pc p := pc p (off c p runs.1)
  refine (sched.cpu c).still table lock ?_ (by rw [self, ncli]) (by rw [self]; exact masked) ?_ fun q at_q lk _ => ?_
  · rw [locked_runs ((places c).trans runs.1), locked_runs runs.1, place]
  · rw [self, current, stays, (sched.cpu c).proc]
  · rw [places, runs.1] at at_q
    cases at_q
    rw [place, runs.2]
    trivial

theorem forkStep (step : ForkStep c p s t) : t.Scheduled := by
  have stay : s.cpu = update s.cpu c (s.cpu c) := (update_eq_self ..).symm
  have masked := (sched.cpu c).masked
  have only : ∀ {np : Fin nproc} (new : Option (Fin nproc)), s.fork p = some np → ∀ q k,
      update s.fork p new q = some k → k ≠ np ∧ s.fork q = some k ∨ q = p ∧ new = some k := by
    intro np new forks q k found
    by_cases here : q = p
    · rw [here, update_self] at found
      exact .inr ⟨here, found⟩
    · rw [update_of_ne here] at found
      refine .inl ⟨?_, found⟩
      rintro rfl
      exact here (sched.placed.parents q p k found forks)
  cases step with
  | allocproc np runs idle free pops found =>
    obtain ⟨ncli, proc, pc, masked⟩ := Cpu.pushcli_popcli pops
    obtain ⟨unused, rfl⟩ := Ptable.allocproc_eq_some found
    refine sched.forking runs rfl ncli proc pc masked (.inl unused) rfl (fun q other => update_of_ne other ..)
      (.inr (.inl rfl)) (fun q k forks => ?_) rfl rfl rfl
    have known : update s.fork p (some np) q = some k := forks
    by_cases here : q = p
    · rw [here, update_self] at known
      cases known
      exact .inr ⟨rfl, here, rfl, update_self ..⟩
    · rw [update_of_ne here] at known
      refine .inl ⟨?_, known⟩
      rintro rfl
      exact nomatch unused.symm.trans (sched.placed.embryo q k known).1
  | fails np runs forks =>
    obtain ⟨embryo, _⟩ := sched.placed.embryo p np forks
    refine sched.forking runs stay rfl rfl rfl masked (.inr embryo) rfl (fun _ _ => rfl) (.inl rfl)
      (fun q k found => ?_) rfl rfl rfl
    exact .inl ((only none forks q k found).resolve_right fun new => nomatch new.2)
  | parent np runs forks =>
    obtain ⟨embryo, fresh⟩ := sched.placed.embryo p np forks
    refine sched.forking runs stay rfl rfl rfl masked (.inr embryo) rfl (fun _ _ => rfl) (.inr (.inl embryo))
      (fun q k found => ?_) rfl rfl rfl
    by_cases here : k = np
    · exact .inr ⟨here, sched.placed.parents q p np (here ▸ found) forks, embryo, fresh⟩
    · exact .inl ⟨here, found⟩
  | runnable np runs forks free pops =>
    obtain ⟨ncli, proc, pc, masked⟩ := Cpu.pushcli_popcli pops
    obtain ⟨embryo, fresh⟩ := sched.placed.embryo p np forks
    refine sched.forking runs rfl ncli proc pc masked (.inr embryo) rfl (fun _ _ => rfl) (.inr (.inr ⟨rfl, fresh⟩))
      (fun q k found => ?_) rfl rfl rfl
    exact .inl ((only none forks q k found).resolve_right fun new => nomatch new.2)

theorem step (step : MachineStep s t) : t.Scheduled := by
  cases step with
  | outside c _ step => exact sched.outsideStep step
  | fork c p _ step => exact sched.forkStep step
  | thread c p _ step => exact sched.threadStep step
  | scheduler c _ step => exact sched.schedulerStep step

end

end Scheduled

/-- Whenever `ptable.lock` is free the processes in state RUNNING are those that the processors
have in `c->proc`, each one of one processor, and no call of `sched` panics. -/
theorem running_iff_current [DecidableEq locks] {kstack pgdir : Nat}
    (run : ReflTransGen MachineStep (initial cpus locks kstack pgdir) s) :
    (s.table = none → (∀ p, (s.proc p).state = .running ↔ ∃ c, (s.cpu c).proc = some p) ∧
      ∀ c d p, (s.cpu c).proc = some p → (s.cpu d).proc = some p → c = d) ∧
    s.stopped = none ∧
    ∀ c p caller current, s.Runs c p (.sched caller) → (s.cpu c).proc = some current →
      (s.cpu c).schedTests (decide (s.table = some c)) (s.proc current).state = .ok () := by
  have sched : s.Scheduled := run_induction Scheduled.step (.initial kstack pgdir) run
  refine ⟨fun free => ?_, sched.running, fun c p caller current => sched.schedTests_ok⟩
  have unlocked : ∀ c, ¬s.Locked c := fun c locked => nomatch free.symm.trans ((sched.cpu c).table.mpr locked)
  have runs : ∀ c p, (s.cpu c).proc = some p → (s.cpu c).pc = .runs p := by
    intro c p current
    rw [(sched.cpu c).proc] at current
    cases at_pc : (s.cpu c).pc with
    | lock =>
      rw [at_pc] at current
      cases current
    | runs q =>
      rw [at_pc] at current
      cases current
      rfl
    | _ => exact absurd (locked_scheduler at_pc rfl) (unlocked c)
  refine ⟨fun p => ⟨fun running => ?_, fun ⟨c, current⟩ => ?_⟩, fun c d p left right => ?_⟩
  · obtain ⟨c, switch | at_p⟩ := (sched.placed.each p).running running
    · exact absurd (locked_scheduler switch rfl) (unlocked c)
    · exact ⟨c, by rw [(sched.cpu c).proc, at_p]; rfl⟩
  · have at_p := runs c p current
    rcases ((sched.placed.each p).fits c at_p).cases with running | ⟨window, _⟩
    · exact running
    · exact absurd ((locked_runs at_p).mpr window) (unlocked c)
  · exact (sched.placed.each p).one c d (runs c p left) (runs d p right)

/-- The first process runs on one of two processors. -/
theorem running_iff_current_two : ∃ s : Machine (Fin 2) (Fin 1), s.table = none ∧ (s.cpu 0).proc = some 0 ∧
    (∀ p, (s.proc p).state = .running ↔ ∃ c, (s.cpu c).proc = some p) ∧ s.stopped = none := by
  obtain ⟨s, run, free, current⟩ : ∃ s : Machine (Fin 2) (Fin 1),
      ReflTransGen MachineStep (initial (Fin 2) (Fin 1) 4096 8192) s ∧ s.table = none ∧ (s.cpu 0).proc = some 0 := by
    have run : ReflTransGen MachineStep (initial (Fin 2) (Fin 1) 4096 8192) _ := .refl
    have run := run.tail (.scheduler 0 rfl (.acquire rfl rfl))
    have run := run.tail (.scheduler 0 rfl (.pick 0 rfl rfl))
    have run := run.tail (.scheduler 0 rfl (.setRunning 0 rfl))
    have run := run.tail (.scheduler 0 rfl (.switch 0 rfl))
    have run := run.tail (.thread 0 0 rfl (.forkret ⟨rfl, rfl⟩ rfl))
    exact ⟨_, run, rfl, rfl⟩
  have facts := running_iff_current run
  exact ⟨s, free, current, (facts.1 free).1, facts.2.1⟩

end MiniOS.Machine
