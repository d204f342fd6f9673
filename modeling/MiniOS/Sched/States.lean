import MiniOS.Proc.Effects
import MiniOS.Sched.Cpus

namespace MiniOS

open Function

variable {locks : Type} {state a b : ProcState} {pc : ThreadPc locks}

/-- The states of a process that has called `sched`. -/
def SchedCaller.Fits {locks : Type} : SchedCaller locks → ProcState → Prop
  | exit, state => state = .zombie
  | _, state => state = .runnable ∨ state = .sleeping

/-- The states of a process whose thread is at this place on some processor. -/
def ThreadPc.Fits {locks : Type} : ThreadPc locks → ProcState → Prop
  | sched caller, state => caller.Fits state
  | swtch caller _, state => caller.Fits state
  | resume .exit _, _ => False
  | _, state => state = .running

/-- Where the thread of a process is that may be run. -/
def ThreadPc.resumes {locks : Type} : ThreadPc locks → Bool
  | resume (.yield _) _ => true
  | resume (.sleep _) _ => true
  | forkret => true
  | _ => false

theorem ThreadPc.fits_of_resumes (resumes : pc.resumes = true) : pc.Fits .running := by
  cases pc with
  | resume caller intena =>
    cases caller with
    | exit => cases resumes
    | _ => rfl
  | forkret => rfl
  | _ => cases resumes

theorem ThreadPc.locked_of_resumes (resumes : pc.resumes = true) :
    pc.locked = true := by
  cases pc with
  | work => cases resumes
  | _ => rfl

theorem ThreadPc.mayHold_of_resumes (resumes : pc.resumes = true) (lk : locks) :
    pc.MayHold lk := by
  cases pc with
  | resume => trivial
  | forkret => trivial
  | _ => cases resumes

theorem SchedCaller.Fits.alive {caller : SchedCaller locks} (fits : caller.Fits state) :
    state ≠ .unused ∧ state ≠ .embryo ∧ state ≠ .running := by
  cases caller with
  | exit =>
    have fits : state = .zombie := fits
    rw [fits]
    exact ⟨nofun, nofun, nofun⟩
  | _ =>
    have fits : state = .runnable ∨ state = .sleeping := fits
    rcases fits with rfl | rfl <;> exact ⟨nofun, nofun, nofun⟩

theorem ThreadPc.Fits.cases (fits : pc.Fits state) :
    state = .running ∨ pc.locked = true ∧ state ≠ .running ∧ state ≠ .unused ∧ state ≠ .embryo := by
  cases pc with
  | sched caller | swtch caller =>
    have fits : caller.Fits state := fits
    exact .inr ⟨rfl, fits.alive.2.2, fits.alive.1, fits.alive.2.1⟩
  | resume caller intena =>
    cases caller with
    | exit => exact fits.elim
    | _ => exact .inl fits
  | _ => exact .inl fits

theorem ThreadPc.Fits.alive (fits : pc.Fits state) :
    state ≠ .unused ∧ state ≠ .embryo := by
  rcases fits.cases with rfl | ⟨_, _, used, grown⟩
  · exact ⟨nofun, nofun⟩
  · exact ⟨used, grown⟩

open Ptable (Woken)

theorem ThreadPc.Fits.woken (wakes : Woken a b)
    (fits : pc.Fits a) : pc.Fits b := by
  cases wakes with
  | same => exact fits
  | woken =>
    cases pc with
    | sched caller | swtch caller =>
      cases caller with
      | exit => cases fits
      | _ => exact .inl rfl
    | resume caller intena =>
      cases caller with
      | exit => exact fits.elim
      | _ => cases fits
    | _ => cases fits

theorem Ptable.Woken.eq (wakes : Woken a b) (awake : a ≠ .sleeping) : b = a := by
  cases wakes with
  | same => rfl
  | woken => exact absurd rfl awake

theorem Ptable.Woken.running_iff (wakes : Woken a b) : b = .running ↔ a = .running := by
  cases wakes <;> simp

theorem Ptable.Woken.waits (wakes : Woken a b) (waits : b = .runnable ∨ b = .sleeping) :
    a = .runnable ∨ a = .sleeping := by
  cases wakes with
  | same => exact waits
  | woken => exact .inr rfl

namespace Machine

variable {cpus locks : Type} {s t : Machine cpus locks} {c d : cpus} {p q np : Fin nproc}

/-- A processor that is there neither executes the thread of the process nor has chosen it. -/
abbrev Off (pc : CpuPc nproc) (q : Fin nproc) : Prop := pc ≠ .runs q ∧ pc ≠ .setRunning q ∧ pc ≠ .switch q

theorem off_of_current {k : Fin nproc} {pc : CpuPc nproc} (own : pc.current = some k ∨ pc.current = none)
    (other : q ≠ k) : Off pc q := by
  have different : ∀ pc' : CpuPc nproc, pc'.current = some q → pc ≠ pc' := by
    rintro pc' theirs rfl
    rcases own with own | own
    · exact other (Option.some.inj (theirs.symm.trans own))
    · cases theirs.symm.trans own
  exact ⟨different _ rfl, different _ rfl, different _ rfl⟩

theorem outside_mayHold (out : s.Outside c) (q : Fin nproc) (runs : (s.cpu c).pc = .runs q) (lk : locks) :
    (s.pc q).MayHold lk := by
  rcases out with scheduler | ⟨p, back, at_p, work⟩
  · rw [runs] at scheduler
    cases scheduler
  · rw [runs] at at_p
    cases at_p
    rw [work]
    trivial

/-- The process runs on one processor at most, and its state fits the place where its thread and
the schedulers are. -/
structure PlacedAt (s : Machine cpus locks) (p : Fin nproc) : Prop where
  one : ∀ c d, (s.cpu c).pc = .runs p → (s.cpu d).pc = .runs p → c = d
  fits : ∀ c, (s.cpu c).pc = .runs p → (s.pc p).Fits (s.proc p).state
  ready : ∀ c, (s.cpu c).pc = .setRunning p →
    (s.proc p).state = .runnable ∧ (s.pc p).resumes = true ∧ ∀ d, (s.cpu d).pc ≠ .runs p
  switch : ∀ c, (s.cpu c).pc = .switch p →
    (s.proc p).state = .running ∧ (s.pc p).resumes = true ∧ ∀ d, (s.cpu d).pc ≠ .runs p
  running : (s.proc p).state = .running → ∃ c, (s.cpu c).pc = .switch p ∨ (s.cpu c).pc = .runs p
  waits : (s.proc p).state = .runnable ∨ (s.proc p).state = .sleeping →
    (∃ c, (s.cpu c).pc = .runs p) ∨ (s.pc p).resumes = true

namespace PlacedAt

/-- The process is woken or nothing happens to it. -/
theorem woken (placed : s.PlacedAt q)
    (cpu : ∀ d, (t.cpu d).pc = (s.cpu d).pc ∨ Off (s.cpu d).pc q ∧ Off (t.cpu d).pc q) (pc : t.pc q = s.pc q)
    (wakes : Woken (s.proc q).state (t.proc q).state) : t.PlacedAt q := by
  have same : ∀ d, ((t.cpu d).pc = .runs q ↔ (s.cpu d).pc = .runs q) ∧
      ((t.cpu d).pc = .setRunning q ↔ (s.cpu d).pc = .setRunning q) ∧
      ((t.cpu d).pc = .switch q ↔ (s.cpu d).pc = .switch q) := by
    intro d
    rcases cpu d with same | ⟨before, after⟩
    · rw [same]
      exact ⟨Iff.rfl, Iff.rfl, Iff.rfl⟩
    · exact ⟨iff_of_false after.1 before.1, iff_of_false after.2.1 before.2.1, iff_of_false after.2.2 before.2.2⟩
  refine ⟨?_, ?_, ?_, ?_, ?_, ?_⟩ <;> simp only [ne_eq, (same _).1, (same _).2.1, (same _).2.2, pc]
  · exact placed.one
  · exact fun c runs => (placed.fits c runs).woken wakes
  · intro c ready
    obtain ⟨runnable, resumes, nobody⟩ := placed.ready c ready
    exact ⟨(wakes.eq (by rw [runnable]; nofun)).trans runnable, resumes, nobody⟩
  · intro c switch
    obtain ⟨running, resumes, nobody⟩ := placed.switch c switch
    exact ⟨wakes.running_iff.2 running, resumes, nobody⟩
  · exact fun running => placed.running (wakes.running_iff.1 running)
  · exact fun waits => placed.waits (wakes.waits waits)

/-- No processor has to do with the process. -/
theorem off (nobody : ∀ d, Off (t.cpu d).pc q) (idle : (t.proc q).state ≠ .running)
    (waits : (t.proc q).state = .runnable ∨ (t.proc q).state = .sleeping → (t.pc q).resumes = true) :
    t.PlacedAt q where
  one d _ runs := absurd runs (nobody d).1
  fits d runs := absurd runs (nobody d).1
  ready d ready := absurd ready (nobody d).2.1
  switch d switch := absurd switch (nobody d).2.2
  running running := absurd running idle
  waits stays := .inr (waits stays)

section

variable (only : ∀ d, d ≠ c → Off (t.cpu d).pc q)
include only

theorem executed (runs : (t.cpu c).pc = .runs q) (fits : (t.pc q).Fits (t.proc q).state) : t.PlacedAt q := by
  have same : ∀ d, (t.cpu d).pc = .runs q → d = c := fun d at_q => by_contra fun other => (only d other).1 at_q
  have busy : ∀ d pc, (t.cpu d).pc = pc → pc = .setRunning q ∨ pc = .switch q → False := by
    rintro d _ rfl chosen
    by_cases here : d = c
    · rw [here, runs] at chosen
      rcases chosen with chosen | chosen <;> cases chosen
    · exact chosen.elim (only d here).2.1 (only d here).2.2
  exact ⟨fun d e left right => (same d left).trans (same e right).symm, fun _ _ => fits,
    fun d ready => (busy d _ ready (.inl rfl)).elim, fun d switch => (busy d _ switch (.inr rfl)).elim,
    fun _ => ⟨c, .inr runs⟩, fun _ => .inl ⟨c, runs⟩⟩

theorem chosen (resumes : (t.pc q).resumes = true)
    (place : (t.cpu c).pc = .setRunning q ∧ (t.proc q).state = .runnable ∨
      (t.cpu c).pc = .switch q ∧ (t.proc q).state = .running) : t.PlacedAt q := by
  have idle : ∀ d, (t.cpu d).pc ≠ .runs q := by
    intro d runs
    by_cases here : d = c
    · rw [here] at runs
      rcases place with ⟨place, _⟩ | ⟨place, _⟩ <;> cases place.symm.trans runs
    · exact (only d here).1 runs
  refine ⟨fun d _ runs => absurd runs (idle d), fun d runs => absurd runs (idle d),
    fun d ready => ?_, fun d switch => ?_,
    fun running => ?_, fun _ => .inr resumes⟩
  · by_cases here : d = c
    · rw [here] at ready
      rcases place with ⟨_, runnable⟩ | ⟨place, _⟩
      · exact ⟨runnable, resumes, idle⟩
      · cases place.symm.trans ready
    · exact absurd ready (only d here).2.1
  · by_cases here : d = c
    · rw [here] at switch
      rcases place with ⟨place, _⟩ | ⟨_, running⟩
      · cases place.symm.trans switch
      · exact ⟨running, resumes, idle⟩
    · exact absurd switch (only d here).2.2
  · rcases place with ⟨_, runnable⟩ | ⟨place, _⟩
    · cases runnable.symm.trans running
    · exact ⟨c, .inl place⟩

end

theorem alone (placed : s.PlacedAt p) (runs : (s.cpu c).pc = .runs p) (d : cpus) (other : d ≠ c) :
    Off (s.cpu d).pc p :=
  ⟨fun at_p => other (placed.one d c at_p runs), fun ready => (placed.ready d ready).2.2 c runs,
    fun switch => (placed.switch d switch).2.2 c runs⟩

end PlacedAt

/-- Every process is placed. Entries that are being created are used by nobody else. -/
structure Placed (s : Machine cpus locks) : Prop where
  each : ∀ p, s.PlacedAt p
  embryo : ∀ p np, s.fork p = some np → (s.proc np).state = .embryo ∧ s.pc np = .forkret
  parents : ∀ p q np, s.fork p = some np → s.fork q = some np → p = q

namespace Placed

theorem initial (cpus locks : Type) (kstack pgdir : Nat) : (initial cpus locks kstack pgdir).Placed where
  each p := by
    refine .off (fun _ => ⟨nofun, nofun, nofun⟩) (fun running => ?_) fun _ => rfl
    simp only [Machine.initial, Procs.userinit] at running
    split at running <;> cases running
  embryo _ _ forks := nomatch forks
  parents _ _ _ forks := nomatch forks

section

variable (placed : s.Placed)
include placed

/-- Nothing happens but wakeups. -/
theorem calm (cpu : ∀ d, (t.cpu d).pc = (s.cpu d).pc) (pc : t.pc = s.pc) (fork : t.fork = s.fork)
    (state : ∀ q, Woken (s.proc q).state (t.proc q).state) : t.Placed := by
  refine ⟨fun p => (placed.each p).woken (fun d => .inl (cpu d)) (by rw [pc]) (state p),
    fun p np forks => ?_, fork ▸ placed.parents⟩
  rw [fork] at forks
  obtain ⟨embryo, fresh⟩ := placed.embryo p np forks
  exact ⟨(state np).embryo_iff.2 embryo, by rw [pc, fresh]⟩

/-- What happens to one process that is not being created is to be shown for it alone. -/
theorem but (own : t.PlacedAt p) (grown : (s.proc p).state ≠ .embryo) (fork : t.fork = s.fork)
    (others : ∀ q, q ≠ p → t.PlacedAt q ∧ t.pc q = s.pc q ∧
      ((s.proc q).state = .embryo → (t.proc q).state = .embryo)) :
    t.Placed := by
  refine ⟨fun q => ?_, fun q np forks => ?_, fork ▸ placed.parents⟩
  · by_cases here : q = p
    · rwa [here]
    · exact (others q here).1
  · rw [fork] at forks
    obtain ⟨embryo, fresh⟩ := placed.embryo q np forks
    have here : np ≠ p := by
      rintro rfl
      exact grown embryo
    exact ⟨(others np here).2.2 embryo, (others np here).2.1.trans fresh⟩

/-- A thread goes on. Other processes are woken, or were not running and are released. -/
theorem thread {b : ThreadPc locks} (runs : (s.cpu c).pc = .runs p)
    (cpu : ∀ d, (t.cpu d).pc = (s.cpu d).pc) (pc : t.pc = update s.pc p b) (fork : t.fork = s.fork)
    (state : ∀ q, q ≠ p → Woken (s.proc q).state (t.proc q).state ∨
      (∀ d, (s.cpu d).pc ≠ .runs q) ∧ (s.proc q).state = .zombie ∧ (t.proc q).state = .unused)
    (fits : b.Fits (t.proc p).state) : t.Placed := by
  refine placed.but (.executed (c := c) (fun d other => ?_) ((cpu c).trans runs) (by rwa [pc, update_self]))
    ((placed.each p).fits c runs).alive.2 fork fun q other => ?_
  · rw [cpu]
    exact (placed.each p).alone runs d other
  · have still : t.pc q = s.pc q := by rw [pc, update_of_ne other]
    rcases state q other with wakes | ⟨nobody, zombie, unused⟩
    · exact ⟨(placed.each q).woken (fun d => .inl (cpu d)) still wakes, still, wakes.embryo_iff.2⟩
    · refine ⟨.off (fun d => ?_) (by rw [unused]; nofun)
        (by rw [unused]; rintro (wrong | wrong) <;> cases wrong), still,
        fun embryo => by cases zombie.symm.trans embryo⟩
      rw [cpu]
      refine ⟨nobody d, fun ready => ?_, fun switch => ?_⟩
      · cases zombie.symm.trans ((placed.each q).ready d ready).1
      · cases zombie.symm.trans ((placed.each q).switch d switch).1

/-- An entry that no process uses yet changes its state. -/
theorem entry {e : Proc} (cpu : ∀ d, (t.cpu d).pc = (s.cpu d).pc)
    (early : (s.proc np).state = .unused ∨ (s.proc np).state = .embryo) (proc : t.proc = update s.proc np e)
    (pc : ∀ q, q ≠ np → t.pc q = s.pc q)
    (new : e.state = .unused ∨ e.state = .embryo ∨ e.state = .runnable ∧ t.pc np = .forkret)
    (fork : ∀ q k, t.fork q = some k → k ≠ np ∧ s.fork q = some k ∨
      k = np ∧ q = p ∧ e.state = .embryo ∧ t.pc np = .forkret) :
    t.Placed := by
  have same : ∀ q, q ≠ np → t.proc q = s.proc q := fun q here => by rw [proc, update_of_ne here]
  have self : t.proc np = e := by rw [proc, update_self]
  have at_np := placed.each np
  refine ⟨fun q => ?_, fun q k forks => ?_, fun q r k left right => ?_⟩
  · by_cases here : q = np
    · rw [here]
      refine .off (fun d => ?_) (fun running => ?_) fun waits => ?_
      · rw [cpu]
        refine ⟨fun runs => early.elim (at_np.fits d runs).alive.1 (at_np.fits d runs).alive.2,
          fun ready => ?_, fun switch => ?_⟩
        · rcases early with early | early <;> cases early.symm.trans (at_np.ready d ready).1
        · rcases early with early | early <;> cases early.symm.trans (at_np.switch d switch).1
      · rw [self] at running
        rw [running] at new
        rcases new with new | new | ⟨new, _⟩ <;> cases new
      · rw [self] at waits
        rcases new with new | new | ⟨_, fresh⟩
        · rcases waits with waits | waits <;> cases new.symm.trans waits
        · rcases waits with waits | waits <;> cases new.symm.trans waits
        · rw [fresh]
          rfl
    · exact (placed.each q).woken (fun d => .inl (cpu d)) (pc q here) (by rw [same q here]; exact .same _)
  · rcases fork q k forks with ⟨here, old⟩ | ⟨rfl, _, embryo, fresh⟩
    · rw [same k here, pc k here]
      exact placed.embryo q k old
    · rw [self]
      exact ⟨embryo, fresh⟩
  · rcases fork q k left with ⟨here, old⟩ | ⟨rfl, rfl, _⟩
    · rcases fork r k right with ⟨_, older⟩ | ⟨same, _⟩
      · exact placed.parents q r k old older
      · exact absurd same here
    · rcases fork r k right with ⟨here, _⟩ | ⟨_, same, _⟩
      · exact absurd rfl here
      · exact same.symm

/-- A scheduler goes on without a process. -/
theorem loops (others : ∀ d, d ≠ c → (t.cpu d).pc = (s.cpu d).pc)
    (before : (s.cpu c).pc = .lock ∨ (∃ k, (s.cpu c).pc = .loop k) ∨ ∃ k, (s.cpu c).pc = .back k)
    (after : (t.cpu c).pc = .lock ∨ ∃ k, (t.cpu c).pc = .loop k)
    (proc : t.proc = s.proc) (pc : t.pc = s.pc) (fork : t.fork = s.fork) : t.Placed := by
  refine ⟨fun q => (placed.each q).woken (fun d => ?_) (by rw [pc]) (by rw [proc]; exact .same _),
    ?_, fork ▸ placed.parents⟩
  · by_cases here : d = c
    · subst here
      right
      rcases before with before | ⟨k, before⟩ | ⟨k, before⟩ <;> rcases after with after | ⟨k, after⟩ <;>
        rw [before, after] <;> exact ⟨⟨nofun, nofun, nofun⟩, nofun, nofun, nofun⟩
    · exact .inl (others d here)
  · rw [proc, pc, fork]
    exact placed.embryo

/-- A processor changes what it does with the process `k`. What is to be shown is about `k`. -/
theorem moves {k : Fin nproc} (others : ∀ d, d ≠ c → (t.cpu d).pc = (s.cpu d).pc)
    (before : (s.cpu c).pc.current = some k ∨ (s.cpu c).pc.current = none) (after : (t.cpu c).pc.current = some k)
    (proc : ∀ q, q ≠ k → t.proc q = s.proc q) (pc : ∀ q, q ≠ k → t.pc q = s.pc q) (fork : t.fork = s.fork)
    (grown : (s.proc k).state ≠ .embryo) (own : t.PlacedAt k) : t.Placed := by
  refine placed.but own grown fork fun q other => ⟨(placed.each q).woken (fun d => ?_) (pc q other) ?_,
    pc q other, ?_⟩
  · by_cases here : d = c
    · subst here
      exact .inr ⟨off_of_current before other, off_of_current (.inl after) other⟩
    · exact .inl (others d here)
  · rw [proc q other]
    exact .same _
  · rw [proc q other]
    exact id

end

end Placed

end Machine

end MiniOS
