import MiniOS.Proc.Signal

namespace MiniOS

namespace SleepSystem

open Relation Lib
open Function (update_self update_of_ne)

variable {n : Nat} {cpus : Type} [DecidableEq cpus] {s t : SleepSystem n cpus} {i j : Fin n} {c d : cpus}

namespace Inv

/-- The scheduler goes on at a place where it has chosen no process. -/
theorem cpuStays (inv : s.Inv) (locks : t.Locks) {place : CpuPc n} (cpu : t.cpu = Function.update s.cpu c place)
    (away : ∀ k, place ≠ .setRunning k ∧ place ≠ .switch k ∧ place ≠ .runs k) (pc : t.pc = s.pc)
    (state : t.state = s.state) (waits : t.waits = s.waits) (cond : t.cond = s.cond) : t.Inv := by
  have before : ∀ d there, there ≠ place → t.cpu d = there → s.cpu d = there := by
    intro d there different here
    by_cases same : d = c
    · rw [cpu, same, update_self] at here
      exact absurd here.symm different
    · rwa [cpu, update_of_ne same] at here
  have ran : ∀ d k, t.cpu d = .runs k → s.cpu d = .runs k := fun d k => before d _ (away k).2.2.symm
  have switched : ∀ d k, t.cpu d = .switch k → s.cpu d = .switch k := fun d k => before d _ (away k).2.1.symm
  refine ⟨locks, fun d k chosen e on => ?_, fun d k here => ?_, fun d k on => ?_, ?_, ?_, ?_, ?_, ?_⟩
  · exact inv.chosen d k (chosen.imp (before d _ (away k).1.symm) (switched d k)) e (ran e k on)
  · rw [state]
    exact inv.switched d k (switched d k here)
  · rw [state, pc]
    exact inv.awake d k (ran d k on)
  · rw [state, waits]
    exact inv.asleep
  · rw [pc, waits]
    exact inv.chan
  · rw [pc, state]
    exact inv.waking
  · rw [pc, cond]
    exact inv.tested
  · rw [pc, state, cond]
    exact inv.reached

theorem pick (inv : s.Inv) (locks : t.Locks) {k : Fin n} (off : ∀ d, s.cpu d ≠ .runs k)
    (same : t = s.setCpu c (.setRunning k)) : t.Inv := by
  subst same
  have before : ∀ d there, there ≠ .setRunning k → (s.setCpu c (.setRunning k)).cpu d = there → s.cpu d = there := by
    intro d there different here
    by_cases same : d = c
    · refine absurd ?_ different
      rw [← here, same]
      exact update_self ..
    · rw [← here]
      exact (update_of_ne same ..).symm
  refine ⟨locks, fun d x chosen e on => ?_, fun d x here => inv.switched d x (before d _ nofun here),
    fun d x on => inv.awake d x (before d _ nofun on), inv.asleep, inv.chan, inv.waking, inv.tested, inv.reached⟩
  have ran : s.cpu e = .runs x := before e _ nofun on
  rcases chosen with chosen | chosen
  · by_cases new : x = k
    · exact off e (new ▸ ran)
    · exact inv.chosen d x (.inl (before d _ (fun same => new (CpuPc.setRunning.inj same)) chosen)) e ran
  · exact inv.chosen d x (.inr (before d _ nofun chosen)) e ran

theorem setRunning (inv : s.Inv) {k : Fin n} (here : s.cpu c = .setRunning k)
    (locks : ((s.setState k .running).setCpu c (.switch k)).Locks) :
    ((s.setState k .running).setCpu c (.switch k)).Inv := by
  have off := inv.chosen c k (.inl here)
  have alone := inv.alone_in_table (c := c) (by rw [here]; rfl)
  have before : ∀ d there, there ≠ .switch k → ((s.setState k .running).setCpu c (.switch k)).cpu d = there →
      s.cpu d = there := by
    intro d there different here
    by_cases same : d = c
    · refine absurd ?_ different
      rw [← here, same]
      exact update_self ..
    · rw [← here]
      exact (update_of_ne same ..).symm
  have mine : ((s.setState k .running).setCpu c (.switch k)).state k = .running := update_self ..
  have other : ∀ x, x ≠ k → ((s.setState k .running).setCpu c (.switch k)).state x = s.state x :=
    fun x different => update_of_ne different ..
  refine ⟨locks, fun d x chosen e on => ?_, fun d x switch => ?_, fun d x on => ?_, fun x sleeps => ?_, inv.chan,
    fun j x wakes => ?_, inv.tested, fun raised x lost => ?_⟩
  · have ran : s.cpu e = .runs x := before e _ nofun on
    by_cases new : x = k
    · exact off e (new ▸ ran)
    · refine inv.chosen d x (chosen.imp (before d _ nofun) ?_) e ran
      exact before d _ fun same => new (CpuPc.switch.inj same)
  · by_cases new : x = k
    · exact new ▸ mine
    · rw [other x new]
      exact inv.switched d x (before d _ (fun same => new (CpuPc.switch.inj same)) switch)
  · have ran : s.cpu d = .runs x := before d _ nofun on
    rw [other x fun new => off d (new ▸ ran)]
    exact inv.awake d x ran
  · refine inv.asleep x ?_
    by_cases new : x = k
    · rw [new, mine] at sleeps
      cases sleeps
    · rwa [other x new] at sleeps
  · have wakes : s.pc j = .wake x := wakes
    obtain ⟨d, on⟩ := inv.on_cpu (i := j) (by rw [wakes]; rfl)
    have free := alone.1 d j on
    rw [wakes] at free
    cases free
  · refine inv.reached raised x (lost.imp_right fun sleeps => ?_)
    by_cases new : x = k
    · rw [new, mine] at sleeps
      cases sleeps
    · rwa [other x new] at sleeps

theorem switch (inv : s.Inv) {k : Fin n} (here : s.cpu c = .switch k) (locks : (s.setCpu c (.runs k)).Locks) :
    (s.setCpu c (.runs k)).Inv := by
  have alone := (inv.alone_in_table (c := c) (by rw [here]; rfl)).2
  have at_c : (s.setCpu c (.runs k)).cpu c = .runs k := update_self ..
  have elsewhere : ∀ d, d ≠ c → (s.setCpu c (.runs k)).cpu d = s.cpu d := fun d different => update_of_ne different ..
  have quiet : ∀ d there, there.holdsTable = true → (s.setCpu c (.runs k)).cpu d ≠ there := by
    intro d there busy now
    by_cases same : d = c
    · rw [same, at_c] at now
      rw [← now] at busy
      cases busy
    · rw [elsewhere d same] at now
      rw [← now, alone d same] at busy
      cases busy
  refine ⟨locks, fun d x chosen => ?_, fun d x now => absurd now (quiet d _ rfl),
    fun d x on => ?_, inv.asleep, inv.chan,
    inv.waking, inv.tested, inv.reached⟩
  · rcases chosen with chosen | chosen
    · exact absurd chosen (quiet d _ rfl)
    · exact absurd chosen (quiet d _ rfl)
  · by_cases same : d = c
    · rw [same, at_c] at on
      rw [← CpuPc.runs.inj on]
      exact .inl (inv.switched c k here)
    · rw [elsewhere d same] at on
      exact inv.awake d x on

theorem cpuMove (inv : s.Inv) (move : CpuMove c s t) : t.Inv := by
  have locks := inv.toLocks.cpuMove move fun k here => inv.chosen c k (.inr here)
  cases move with
  | lock | skip | back | unlock => exact inv.cpuStays locks rfl (fun _ => ⟨nofun, nofun, nofun⟩) rfl rfl rfl rfl
  | pick k here ready => exact inv.pick locks (inv.runnable_off (c := c) (by rw [here]; rfl) ready) rfl
  | setRunning k here => exact inv.setRunning here locks
  | switch k here => exact inv.switch here locks

theorem step (inv : s.Inv) (step : Step s t) : t.Inv := by
  cases step with
  | proc i c runs move => exact inv.procMove runs move
  | cpu c move => exact inv.cpuMove move

end Inv

/-- A process that holds `ptable.lock` runs on a processor that does. -/
def HasTable (s : SleepSystem n cpus) (i : Fin n) : Prop :=
  (s.pc i).holdsTable = true ∧ ∃ c, s.cpu c = .runs i

/-- With `lk` free, nobody in `wakeup` and the condition true, no process sleeps
on the channel. Each of the two locks has one holder at most. -/
theorem no_lost_wakeup (cond : Bool) (run : ReflTransGen Step (initial n cpus cond) s) :
    (s.lk = none → (∀ i, (s.pc i).inWakeup = false) → s.cond = true →
      ∀ i, ¬(s.state i = .sleeping ∧ s.waits i = true)) ∧
      (∀ i j, (s.pc i).holdsLk = true → (s.pc j).holdsLk = true → i = j) ∧ ∀ i j, s.HasTable i →
      s.HasTable j → i = j := by
  have inv : s.Inv := run_induction (fun inv => inv.step) (.initial n cpus cond) run
  refine ⟨fun _ quiet raised i sleeps => ?_, fun i j => inv.lk_unique, ?_⟩
  · obtain ⟨j, signals⟩ := inv.reached raised i (.inr sleeps.1)
    have busy := quiet j
    rw [SleepPc.inWakeup_of_reaches signals] at busy
    cases busy
  · rintro i j ⟨left, c, runs⟩ ⟨right, d, runs'⟩
    exact inv.table_unique runs runs' left right

/-- Two processes on one processor: the first one sleeps, the second one signals. -/
theorem no_lost_wakeup_signalled : ∃ s : SleepSystem 2 Unit, ReflTransGen Step (initial 2 Unit false) s ∧
    s.lk = none ∧
    (∀ i, (s.pc i).inWakeup = false) ∧ s.cond = true ∧ s.pc 0 = .clearChan ∧
    ∀ i, ¬(s.state i = .sleeping ∧ s.waits i = true) := by
  have run : ReflTransGen Step (initial 2 Unit false) _ :=
    .head (.cpu () (.lock rfl rfl)) <| .head (.cpu () (.pick 0 rfl rfl)) <| .head (.cpu () (.setRunning 0 rfl)) <|
    .head (.cpu () (.switch 0 rfl)) <| .head (.proc 0 () rfl (.yieldUnlock .idle rfl)) <|
    .head (.proc 0 () rfl (.waitLock rfl rfl)) <| .head (.proc 0 () rfl (.sleeps rfl rfl)) <|
    .head (.proc 0 () rfl (.lockTable rfl rfl)) <| .head (.proc 0 () rfl (.unlockLk rfl)) <|
    .head (.proc 0 () rfl (.setChan rfl)) <| .head (.proc 0 () rfl (.setState rfl)) <| .head
    (.proc 0 () rfl (.sched rfl)) <|
    .head (.cpu () (.back 0 rfl)) <| .head (.cpu () (.pick 1 rfl rfl)) <| .head (.cpu () (.setRunning 1 rfl)) <|
    .head (.cpu () (.switch 1 rfl)) <| .head (.proc 1 () rfl (.yieldUnlock .idle rfl)) <|
    .head (.proc 1 () rfl (.signalLock rfl rfl)) <| .head (.proc 1 () rfl (.raise rfl)) <|
    .head (.proc 1 () rfl (.wakeLock rfl rfl)) <| .head (.proc 1 () rfl (.scanHit 0 rfl rfl rfl)) <|
    .head (.proc 1 () rfl (.wake 0 rfl)) <| .head (.proc 1 () rfl (.scanMiss 1 rfl fun sleeps => nomatch sleeps.1)) <|
    .head (.proc 1 () rfl (.scanEnd rfl)) <| .head (.proc 1 () rfl (.wakeUnlock rfl)) <| .single
    (.proc 1 () rfl (.leave rfl))
  exact ⟨_, run, rfl, Fin.forall_fin_two.2 ⟨rfl, rfl⟩, rfl, rfl,
    (no_lost_wakeup false run).1 rfl (Fin.forall_fin_two.2 ⟨rfl, rfl⟩) rfl⟩

end SleepSystem

end MiniOS
