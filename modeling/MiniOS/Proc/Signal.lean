import MiniOS.Proc.Locks

namespace MiniOS

open Function (update_self update_of_ne)

variable {pc : SleepPc}

/-- The process has given up `lk` to sleep and still runs. -/
def SleepPc.sinks : SleepPc → Bool
  | setChan => true
  | setState => true
  | sched => true
  | _ => false

theorem SleepPc.sinks_of_resumes (resumes : pc.resumes = true) : pc.sinks = false := by
  cases pc <;> first | rfl | cases resumes

theorem SleepPc.runs_of_sinks (sinks : pc.sinks = true) : pc.resumes = false := by
  cases pc <;> first | rfl | cases sinks

theorem SleepPc.holdsTable_of_sinks (sinks : pc.sinks = true) : pc.holdsTable = true := by
  cases pc <;> first | rfl | cases sinks

/-- The process is in `wakeup` and has not passed entry `i`. -/
def SleepPc.Reaches {n : Nat} : SleepPc → Fin n → Prop
  | wakeLock, _ => True
  | scan k, i => k ≤ i
  | wake k, i => k ≤ i
  | _, _ => False

/-- The process is in `wakeup`. -/
def SleepPc.inWakeup : SleepPc → Bool
  | wakeLock => true
  | scan _ => true
  | wake _ => true
  | wakeUnlock => true
  | _ => false

theorem SleepPc.inWakeup_of_reaches {n : Nat} {i : Fin n} (signals : pc.Reaches i) : pc.inWakeup = true := by
  cases pc <;> first | rfl | exact signals.elim

/-- Places that say nothing about the state, the channel or the condition. -/
def SleepPc.calm : SleepPc → Bool
  | lockTable => false
  | unlockLk => false
  | setChan => false
  | setState => false
  | sched => false
  | wake _ => false
  | _ => true

namespace SleepSystem

variable {n : Nat} {cpus : Type} {s t : SleepSystem n cpus} {i j : Fin n} {c d : cpus}

structure Inv (s : SleepSystem n cpus) : Prop extends s.Locks where
  chosen : ∀ c i, s.cpu c = .setRunning i ∨ s.cpu c = .switch i → ∀ d, s.cpu d ≠ .runs i
  switched : ∀ c i, s.cpu c = .switch i → s.state i = .running
  awake : ∀ c i, s.cpu c = .runs i → s.state i = .running ∨ (s.state i = .sleeping ∧ s.pc i = .sched) ∨
    (s.state i = .runnable ∧ ∃ back, s.pc i = .yieldSched back)
  asleep : ∀ i, s.state i = .sleeping → s.waits i = true
  chan : ∀ i, s.pc i = .setState ∨ s.pc i = .sched → s.waits i = true
  waking : ∀ (j k : Fin n), s.pc j = .wake k → s.state k = .sleeping
  tested : ∀ i, s.pc i = .lockTable ∨ s.pc i = .unlockLk → s.cond = false
  reached : s.cond = true → ∀ i, (s.pc i).sinks = true ∨ s.state i = .sleeping → ∃ j, (s.pc j).Reaches i

namespace Inv

variable {a b : SleepPc} {k : Fin n}

theorem initial (n : Nat) (cpus : Type) (cond : Bool) : (SleepSystem.initial n cpus cond).Inv where
  toLocks := .initial n cpus cond
  chosen _ _ busy := by rcases busy with busy | busy <;> cases busy
  switched _ _ busy := nomatch busy
  awake _ _ runs := nomatch runs
  asleep _ sleeps := nomatch sleeps
  chan _ here := by rcases here with here | here <;> cases here
  waking _ _ here := nomatch here
  tested _ here := by rcases here with here | here <;> cases here
  reached _ _ sinks := by rcases sinks with sinks | sinks <;> cases sinks

section

variable (inv : s.Inv)
include inv

/-- A process that runs and does not leave its processor is in state `RUNNING`. -/
theorem running (runs : s.cpu c = .runs i) (sched : s.pc i ≠ .sched)
    (yields : ∀ back, s.pc i ≠ .yieldSched back) : s.state i = .running := by
  rcases inv.awake c i runs with running | ⟨_, here⟩ | ⟨_, back, here⟩
  · exact running
  · exact absurd here sched
  · exact absurd here (yields back)

/-- A step that changes neither states nor channels nor the condition. -/
theorem plain (locks : t.Locks) (here : s.pc i = a) (there : t.pc i = b)
    (other : ∀ j, j ≠ i → t.pc j = s.pc j) (cpu : t.cpu = s.cpu) (state : t.state = s.state)
    (waits : t.waits = s.waits) (cond : t.cond = s.cond) (stays : a ≠ .sched ∧ ∀ back, a ≠ .yieldSched back)
    (chan : b = .setState ∨ b = .sched → s.waits i = true) (waking : ∀ k : Fin n, b = .wake k → s.state k = .sleeping)
    (tested : b = .lockTable ∨ b = .unlockLk ∨ b = .setChan → s.cond = false)
    (sinks : b = .setState ∨ b = .sched → a.sinks = true)
    (reaches : ∀ x : Fin n, (s.pc x).sinks = true ∨ s.state x = .sleeping → a.Reaches x → b.Reaches x) : t.Inv := by
  have sinking : ∀ x, s.cond = true → (t.pc x).sinks = true → (s.pc x).sinks = true := by
    intro x raised sunk
    by_cases me : x = i
    · rw [me, there] at sunk
      rw [me, here]
      cases b with
      | setChan =>
        rw [tested (.inr (.inr rfl))] at raised
        cases raised
      | setState => exact sinks (.inl rfl)
      | sched => exact sinks (.inr rfl)
      | _ => cases sunk
    · rwa [other x me] at sunk
  refine ⟨locks, ?_, ?_, fun d j runs => ?_, ?_, fun j set => ?_, fun j k wakes => ?_, fun j tests => ?_,
    fun raised x lost => ?_⟩
  · rw [cpu]
    exact inv.chosen
  · rw [cpu, state]
    exact inv.switched
  · rw [cpu] at runs
    rw [state]
    by_cases me : j = i
    · rw [me] at runs ⊢
      exact .inl (inv.running runs (here ▸ stays.1) (here ▸ stays.2))
    · rw [other j me]
      exact inv.awake d j runs
  · rw [state, waits]
    exact inv.asleep
  · rw [waits]
    by_cases me : j = i
    · rw [me, there] at set
      exact me ▸ chan set
    · rw [other j me] at set
      exact inv.chan j set
  · rw [state]
    by_cases me : j = i
    · rw [me, there] at wakes
      exact waking k wakes
    · rw [other j me] at wakes
      exact inv.waking j k wakes
  · rw [cond]
    by_cases me : j = i
    · rw [me, there] at tests
      exact tested (tests.imp_right .inl)
    · rw [other j me] at tests
      exact inv.tested j tests
  · rw [cond] at raised
    rw [state] at lost
    have before : (s.pc x).sinks = true ∨ s.state x = .sleeping := lost.imp_left (sinking x raised)
    obtain ⟨j, signals⟩ := inv.reached raised x before
    refine ⟨j, ?_⟩
    by_cases me : j = i
    · rw [me, here] at signals
      rw [me, there]
      exact reaches x before signals
    · rwa [other j me]

theorem calm (locks : t.Locks) (here : s.pc i = a) (there : t.pc i = b)
    (other : ∀ j, j ≠ i → t.pc j = s.pc j) (cpu : t.cpu = s.cpu) (state : t.state = s.state)
    (waits : t.waits = s.waits) (cond : t.cond = s.cond) (stays : a ≠ .sched ∧ ∀ back, a ≠ .yieldSched back)
    (calm : b.calm = true) (silent : ∀ x : Fin n, ¬a.Reaches x) : t.Inv := by
  refine inv.plain locks here there other cpu state waits cond stays ?_ ?_ ?_ ?_ fun x _ signals =>
    absurd signals (silent x)
  · rintro (rfl | rfl) <;> cases calm
  · rintro k rfl
    cases calm
  · rintro (rfl | rfl | rfl) <;> cases calm
  · rintro (rfl | rfl) <;> cases calm

/-- A process that has `ptable.lock` and is not about to be switched to runs. -/
theorem on_cpu (holds : (s.pc i).resumes = false) : ∃ c, s.cpu c = .runs i := by
  by_contra off
  rw [inv.placed i fun c runs => off ⟨c, runs⟩] at holds
  cases holds

theorem setWaits {w : Bool}
    (safe : w = false → s.state i ≠ .sleeping ∧ s.pc i ≠ .setState ∧ s.pc i ≠ .sched) : (s.setWaits i w).Inv := by
  have set : ∀ x, s.waits x = true → (x = i → w = true) → Function.update s.waits i w x = true := by
    intro x before mine
    by_cases me : x = i
    · rw [me, update_self, mine me]
    · rwa [update_of_ne me]
  refine ⟨⟨inv.exclusive, inv.placed, inv.lk, inv.table, inv.sched⟩, inv.chosen, inv.switched, inv.awake,
    fun x sleeps => set x (inv.asleep x sleeps) ?_, fun x here => set x (inv.chan x here) ?_, inv.waking,
    inv.tested, inv.reached⟩
  · rintro rfl
    cases w with
    | false => exact absurd sleeps (safe rfl).1
    | true => rfl
  · rintro rfl
    cases w with
    | false =>
      rcases here with here | here
      · exact absurd here (safe rfl).2.1
      · exact absurd here (safe rfl).2.2
    | true => rfl

/-- A process sets its own state on the way to the scheduler. -/
theorem setOwnState (runs : s.cpu c = .runs i) {state : ProcState}
    (right : (state = .sleeping ∧ s.pc i = .sched) ∨ (state = .runnable ∧ ∃ back, s.pc i = .yieldSched back)) :
    (s.setState i state).Inv := by
  have other : ∀ x, x ≠ i → (s.setState i state).state x = s.state x := fun x me => update_of_ne me ..
  have mine : (s.setState i state).state i = state := update_self ..
  refine ⟨⟨inv.exclusive, inv.placed, inv.lk, inv.table, inv.sched⟩, inv.chosen, fun d k here => ?_, fun d j on => ?_,
    fun x sleeps => ?_, inv.chan, fun j k wakes => ?_, inv.tested, fun raised x lost => ?_⟩
  · have me : k ≠ i := by
      rintro rfl
      exact inv.chosen d k (.inr here) c runs
    rw [other k me]
    exact inv.switched d k here
  · by_cases me : j = i
    · rw [me, mine]
      exact .inr right
    · rw [other j me]
      exact inv.awake d j on
  · by_cases me : x = i
    · rw [me, mine] at sleeps
      rcases right with ⟨_, here⟩ | ⟨ready, _⟩
      · exact me ▸ inv.chan i (.inr here)
      · rw [ready] at sleeps
        cases sleeps
    · rw [other x me] at sleeps
      exact inv.asleep x sleeps
  · have asleep := inv.waking j k wakes
    by_cases me : k = i
    · rw [me, mine]
      rw [me] at asleep
      rcases right with ⟨sleeps, _⟩ | ⟨_, back, here⟩
      · exact sleeps
      · have running := inv.awake c i runs
        rw [asleep, here] at running
        simp at running
    · rw [other k me]
      exact asleep
  · refine inv.reached raised x ?_
    rcases lost with sinks | sleeps
    · exact .inl sinks
    · by_cases me : x = i
      · rw [me, mine] at sleeps
        rcases right with ⟨_, here⟩ | ⟨ready, _⟩
        · exact .inl (by rw [me, here]; rfl)
        · rw [ready] at sleeps
          cases sleeps
      · rw [other x me] at sleeps
        exact .inr sleeps

theorem lower : Inv { s with cond := false } :=
  ⟨⟨inv.exclusive, inv.placed, inv.lk, inv.table, inv.sched⟩, inv.chosen, inv.switched,
    inv.awake, inv.asleep, inv.chan,
    inv.waking, fun _ _ => rfl, nofun⟩

theorem raise (here : s.pc i = .wakeLock) : Inv { s with cond := true } := by
  refine ⟨⟨inv.exclusive, inv.placed, inv.lk, inv.table, inv.sched⟩, inv.chosen, inv.switched,
    inv.awake, inv.asleep, inv.chan,
    inv.waking, fun j tests => ?_, fun _ x _ => ⟨i, by rw [here]; trivial⟩⟩
  have same : j = i := by
    refine inv.lk_unique ?_ (by rw [here]; rfl)
    rcases tests with tests | tests <;> rw [tests] <;> rfl
  rw [same, here] at tests
  rcases tests with tests | tests <;> cases tests

/-- `wakeup1` makes a process runnable that sleeps on the channel. -/
theorem wake (runs : s.cpu c = .runs i) (here : s.pc i = .wake k)
    (locks : ((s.setState k .runnable).goto i (.scan (k + 1))).Locks) :
    ((s.setState k .runnable).goto i (.scan (k + 1))).Inv := by
  have asleep := inv.waking i k here
  have holds : (s.pc i).holdsTable = true := by rw [here]; rfl
  have other : ∀ j, j ≠ i → ((s.setState k .runnable).goto i (.scan (k + 1))).pc j = s.pc j :=
    fun j me => update_of_ne me ..
  have mine : ((s.setState k .runnable).goto i (.scan (k + 1))).pc i = .scan (k + 1) := update_self ..
  have awake : ((s.setState k .runnable).goto i (.scan (k + 1))).state k = .runnable := update_self ..
  have state : ∀ x, x ≠ k → ((s.setState k .runnable).goto i (.scan (k + 1))).state x = s.state x :=
    fun x different => update_of_ne different ..
  have idle : ∀ d, (s.cpu d).holdsTable = false := inv.not_sched runs holds
  have off : ∀ d, s.cpu d ≠ .runs k := by
    intro d on
    rcases inv.awake d k on with running | ⟨_, sched⟩ | ⟨ready, _⟩
    · rw [asleep] at running
      cases running
    · have same := inv.table_unique on runs (by rw [sched]; rfl) holds
      rw [same, here] at sched
      cases sched
    · rw [asleep] at ready
      cases ready
  have sinking : (s.pc k).sinks = false := SleepPc.sinks_of_resumes (inv.placed k off)
  have sunk : ∀ x, (((s.setState k .runnable).goto i (.scan (k + 1))).pc x).sinks = true → (s.pc x).sinks = true := by
    intro x sinks
    by_cases me : x = i
    · rw [me, mine] at sinks
      cases sinks
    · rwa [other x me] at sinks
  refine ⟨locks, inv.chosen, fun d x switch => ?_, fun d j on => ?_, fun x sleeps => ?_,
    fun j set => ?_, fun j x wakes => ?_,
    fun j tests => ?_, fun raised x lost => ?_⟩
  · have busy := idle d
    rw [show s.cpu d = .switch x from switch] at busy
    cases busy
  · have different : j ≠ k := by
      rintro rfl
      exact off d on
    rw [state j different]
    by_cases me : j = i
    · rw [me] at on ⊢
      exact .inl (inv.running on (by rw [here]; nofun) (by rw [here]; nofun))
    · rw [other j me]
      exact inv.awake d j on
  · have different : x ≠ k := by
      rintro rfl
      rw [awake] at sleeps
      cases sleeps
    rw [state x different] at sleeps
    exact inv.asleep x sleeps
  · have me : j ≠ i := by
      rintro rfl
      rw [mine] at set
      rcases set with set | set <;> cases set
    rw [other j me] at set
    exact inv.chan j set
  · have me : j ≠ i := by
      rintro rfl
      rw [mine] at wakes
      cases wakes
    rw [other j me] at wakes
    obtain ⟨d, on⟩ := inv.on_cpu (i := j) (by rw [wakes]; rfl)
    exact absurd (inv.table_unique on runs (by rw [wakes]; rfl) holds) me
  · have me : j ≠ i := by
      rintro rfl
      rw [mine] at tests
      rcases tests with tests | tests <;> cases tests
    rw [other j me] at tests
    exact inv.tested j tests
  · have different : x ≠ k := by
      rintro rfl
      rcases lost with sinks | sleeps
      · have before := sunk x sinks
        rw [sinking] at before
        cases before
      · rw [awake] at sleeps
        cases sleeps
    rw [state x different] at lost
    obtain ⟨j, signals⟩ := inv.reached raised x (lost.imp_left (sunk x))
    refine ⟨j, ?_⟩
    by_cases me : j = i
    · rw [me, here] at signals
      rw [me, mine]
      have far : (k : Nat) ≤ x := signals
      have apart : (x : Nat) ≠ k := fun same => different (Fin.ext same)
      exact show (k : Nat) + 1 ≤ x by omega
    · rwa [other j me]

/-- A runnable process is on no processor while a scheduler has `ptable.lock`. -/
theorem runnable_off (busy : (s.cpu c).holdsTable = true) (ready : s.state k = .runnable) (d : cpus) :
    s.cpu d ≠ .runs k := by
  intro on
  have free := (inv.alone_in_table busy).1 d k on
  rcases inv.awake d k on with running | ⟨_, here⟩ | ⟨_, back, here⟩
  · rw [ready] at running
    cases running
  · rw [here] at free
    cases free
  · rw [here] at free
    cases free

end

variable [DecidableEq cpus]

/-- A process leaves its processor. -/
theorem leaves (inv : s.Inv) (runs : s.cpu c = .runs i) (here : s.pc i = a)
    (locks : ((s.setCpu c (.back i)).goto i b).Locks) (resumes : b.resumes = true)
    (silent : ∀ x : Fin n, ¬a.Reaches x) :
    ((s.setCpu c (.back i)).goto i b).Inv := by
  have other : ∀ j, j ≠ i → ((s.setCpu c (.back i)).goto i b).pc j = s.pc j := fun j me => update_of_ne me ..
  have mine : ((s.setCpu c (.back i)).goto i b).pc i = b := update_self ..
  have cpu : ∀ d place, ((s.setCpu c (.back i)).goto i b).cpu d = place → place = .back i ∨
      (d ≠ c ∧ s.cpu d = place) := by
    intro d place there
    by_cases same : d = c
    · exact .inl (by rw [← there, same]; exact update_self ..)
    · exact .inr ⟨same, by rw [← there]; exact (update_of_ne same ..).symm⟩
  have quiet : ∀ pc, pc.resumes = false → ∀ j, ((s.setCpu c (.back i)).goto i b).pc j = pc → s.pc j = pc := by
    intro pc busy j there
    by_cases me : j = i
    · rw [me, mine] at there
      rw [← there, resumes] at busy
      cases busy
    · rwa [other j me] at there
  refine ⟨locks, fun d x chosen e on => ?_, fun d x switch => ?_, fun d j on => ?_, inv.asleep, fun j set => ?_,
    fun j k wakes => inv.waking j k (quiet _ rfl j wakes), fun j tests => ?_, fun raised x lost => ?_⟩
  · rcases cpu e _ on with left | ⟨_, before⟩
    · cases left
    · refine inv.chosen d x ?_ e before
      rcases chosen with chosen | chosen
      · rcases cpu d _ chosen with left | ⟨_, was⟩
        · cases left
        · exact .inl was
      · rcases cpu d _ chosen with left | ⟨_, was⟩
        · cases left
        · exact .inr was
  · rcases cpu d _ switch with left | ⟨_, was⟩
    · cases left
    · exact inv.switched d x was
  · rcases cpu d _ on with left | ⟨different, before⟩
    · cases left
    · have me : j ≠ i := by
        rintro rfl
        exact different (inv.exclusive d c j before runs)
      rw [other j me]
      exact inv.awake d j before
  · refine inv.chan j ?_
    rcases set with set | set
    · exact .inl (quiet _ rfl j set)
    · exact .inr (quiet _ rfl j set)
  · refine inv.tested j ?_
    rcases tests with tests | tests
    · exact .inl (quiet _ rfl j tests)
    · exact .inr (quiet _ rfl j tests)
  · have before : (s.pc x).sinks = true ∨ s.state x = .sleeping := by
      refine lost.imp_left fun sinks => ?_
      by_cases me : x = i
      · rw [me, mine] at sinks
        rw [SleepPc.sinks_of_resumes resumes] at sinks
        cases sinks
      · rwa [other x me] at sinks
    obtain ⟨j, signals⟩ := inv.reached raised x before
    have me : j ≠ i := by
      rintro rfl
      rw [here] at signals
      exact silent x signals
    exact ⟨j, by rw [other j me]; exact signals⟩

theorem procMove (inv : s.Inv) (runs : s.cpu c = .runs i) (move : ProcMove i c s t) : t.Inv := by
  have locks := inv.toLocks.procMove runs move
  have other : ∀ j, j ≠ i → t.pc j = s.pc j := fun j different => move.other different
  cases move with
  | waitLock here | found here | unlockTable here | relock here | leave here | signalLock here | wakeUnlock here =>
    exact inv.calm locks here (update_self ..) other rfl rfl rfl rfl ⟨nofun, nofun⟩ rfl fun _ => id
  | sleeps here cond =>
    exact inv.plain locks here (update_self ..) other rfl rfl rfl rfl ⟨nofun, nofun⟩ nofun nofun (fun _ => cond)
      nofun nofun
  | lockTable here free =>
    exact inv.plain locks here (update_self ..) other rfl rfl rfl rfl ⟨nofun, nofun⟩ nofun nofun
      (fun _ => inv.tested i (.inl here)) nofun nofun
  | unlockLk here =>
    exact inv.plain locks here (update_self ..) other rfl rfl rfl rfl ⟨nofun, nofun⟩ nofun nofun
      (fun _ => inv.tested i (.inr here)) nofun nofun
  | setChan here =>
    exact (inv.setWaits (i := i) (w := true) nofun).plain locks here
      (update_self ..) other rfl rfl rfl rfl ⟨nofun, nofun⟩
      (fun _ => update_self ..) nofun nofun (fun _ => rfl) nofun
  | setState here =>
    have sched : (s.goto i .sched).Inv :=
      inv.plain ⟨locks.exclusive, locks.placed, locks.lk, locks.table, locks.sched⟩ here
      (update_self ..) other rfl rfl
        rfl rfl ⟨nofun, nofun⟩ (fun _ => inv.chan i (.inl here)) nofun nofun (fun _ => rfl) nofun
    exact sched.setOwnState runs (.inl ⟨rfl, update_self ..⟩)
  | sched here | yieldSched _ here => exact inv.leaves runs here locks rfl fun _ => id
  | clearChan here =>
    have awake := inv.running runs (by rw [here]; nofun) (by rw [here]; nofun)
    refine (inv.setWaits (i := i) (w := false) fun _ => ⟨?_, ?_, ?_⟩).calm locks here
      (update_self ..) other rfl rfl rfl rfl
      ⟨nofun, nofun⟩ rfl fun _ => id
    · rw [awake]
      nofun
    · rw [here]
      nofun
    · rw [here]
      nofun
  | take here =>
    exact inv.lower.calm locks here (update_self ..) other rfl rfl rfl rfl ⟨nofun, nofun⟩ rfl fun _ => id
  | raise here =>
    have signals : (s.goto i .wakeLock).Inv :=
      inv.calm ⟨locks.exclusive, locks.placed, locks.lk, locks.table, locks.sched⟩ here (update_self ..) other rfl rfl
        rfl rfl ⟨nofun, nofun⟩ rfl fun _ => id
    exact signals.raise (i := i) (update_self ..)
  | wakeLock here free =>
    exact inv.plain locks here (update_self ..) other rfl rfl rfl rfl ⟨nofun, nofun⟩ nofun nofun nofun nofun
      fun x _ _ => Nat.zero_le x
  | scanHit k here sleeping waits =>
    refine inv.plain locks here (update_self ..) other rfl rfl rfl rfl ⟨nofun, nofun⟩ nofun
      (fun x same => ?_) nofun nofun
      fun x _ signals => signals
    rw [Fin.ext (SleepPc.wake.inj same).symm]
    exact sleeping
  | scanMiss k here skips =>
    refine inv.plain locks here (update_self ..) other rfl rfl rfl rfl ⟨nofun, nofun⟩ nofun nofun nofun nofun
      fun x lost signals => ?_
    have far : (k : Nat) ≤ x := signals
    have apart : (x : Nat) ≠ k := by
      intro same
      have same := Fin.ext same
      subst same
      rcases lost with sinks | sleeps
      · obtain ⟨d, on⟩ := inv.on_cpu (SleepPc.runs_of_sinks sinks)
        have me := inv.table_unique on runs (SleepPc.holdsTable_of_sinks sinks) (by rw [here]; rfl)
        rw [me, here] at sinks
        cases sinks
      · exact skips ⟨sleeps, inv.asleep x sleeps⟩
    exact show (k : Nat) + 1 ≤ x by omega
  | wake k here => exact inv.wake runs here locks
  | scanEnd here =>
    exact inv.calm locks here (update_self ..) other rfl rfl rfl rfl ⟨nofun, nofun⟩ rfl fun x far =>
      absurd x.2 (Nat.not_lt.2 far)
  | yield back here =>
    refine inv.calm locks here (update_self ..) other rfl rfl rfl rfl ?_ rfl ?_ <;> cases back
    · exact ⟨nofun, nofun⟩
    · exact ⟨nofun, nofun⟩
    · exact fun _ => id
    · exact fun _ => id
  | yieldLock back here free =>
    exact inv.calm locks here (update_self ..) other rfl rfl rfl rfl ⟨nofun, nofun⟩ rfl fun _ => id
  | yieldState back here =>
    have sched : (s.goto i (.yieldSched back)).Inv :=
      inv.calm ⟨locks.exclusive, locks.placed, locks.lk, locks.table, locks.sched⟩ here (update_self ..) other rfl rfl
        rfl rfl ⟨nofun, nofun⟩ rfl fun _ => id
    exact sched.setOwnState runs (.inr ⟨rfl, back, update_self ..⟩)
  | yieldUnlock back here =>
    refine inv.calm locks here (update_self ..) other rfl rfl rfl rfl ⟨nofun, nofun⟩ ?_ fun _ => id
    cases back <;> rfl

end Inv

end SleepSystem

end MiniOS
