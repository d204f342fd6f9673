import MiniOS.Lib.Run
import MiniOS.Proc.Effects

namespace MiniOS

open Lib Relation Function

namespace Procs

/-- No unused entry still has the pid: 0 where the entry was never used or its
process has been waited for, the pid of a `fork` that failed until the entry is
used again. -/
def NoStale (s : Procs) (pid : BitVec 32) : Prop := ∀ i, (s.proc i).state = .unused → (s.proc i).pid ≠ pid

/-- The new process has not been killed. -/
def Unkilled (s : Procs) (np : Fin nproc) : Prop := (s.proc np).killed = false

/-- Runs in which `kill` is only called with pids that no unused entry has, and
`fork` only fails while its child has not been killed. -/
def CleanRun : Procs → Procs → Prop := ReflTransGen fun s t => ∃ event, ProcStep NoStale Unkilled s event t

/-- What `kill` does and what `fork` leaves in this state. -/
structure KillRight (s : Procs) : Prop where
  returns : ∀ pid, s.NoStale pid → (s.proc.kill pid).2 = 0 → ∃ i, (s.proc i).state ≠ .unused ∧ (s.proc i).pid = pid
  unused : ∀ pid, s.NoStale pid → ∀ i, (s.proc i).state = .unused → (s.proc.kill pid).1 i = s.proc i
  clean : ∀ p np, s.pc p = .forked np → (s.proc np).killed = true → s.called np = true

/-- A process is marked as killed only after `kill` was called with its pid. -/
def KillInv (s : Procs) : Prop := ∀ i, (s.proc i).killed = true → (s.proc i).state ≠ .unused ∧ s.called i = true

end Procs

namespace Procs.KillInv

variable {s u : Procs}

/-- The marks stay, and an entry that becomes unused has none. -/
theorem keep (inv : s.KillInv) (called : u.called = s.called) (killed : ∀ i, (u.proc i).killed = (s.proc i).killed)
    (unused : ∀ i, (u.proc i).state = .unused → (s.proc i).state = .unused ∨ (s.proc i).killed = false) :
    u.KillInv := by
  intro i marked
  rw [killed] at marked
  obtain ⟨used, call⟩ := inv i marked
  refine ⟨fun free => ?_, by rw [called, call]⟩
  rcases unused i free with before | clean
  · exact used before
  · rw [marked] at clean
    cases clean

/-- A step that changes one entry and leaves it used. -/
theorem update (inv : s.KillInv) {p : Fin nproc} {e : Proc} (proc : u.proc = update s.proc p e)
    (called : u.called = s.called) (killed : e.killed = (s.proc p).killed)
    (unused : e.state = .unused → (s.proc p).state = .unused ∨ (s.proc p).killed = false) : u.KillInv := by
  refine inv.keep called (fun i => ?_) fun i free => ?_
  · rw [proc]
    exact Ptable.part_update Proc.killed killed i
  · rw [proc] at free
    by_cases here : i = p
    · subst here
      rw [update_self] at free
      exact unused free
    · rw [update_of_ne here] at free
      exact .inl free

theorem kill (inv : s.KillInv) {pid : BitVec 32} (fresh : s.NoStale pid) :
    KillInv { s with
      proc := (s.proc.kill pid).1, called := fun i => s.called i || decide ((s.proc i).pid = pid) } := by
  intro i marked
  rcases s.proc.kill_cases pid with missed | ⟨k, same, hit⟩
  · simp only [missed] at marked ⊢
    exact ⟨(inv i marked).1, by rw [(inv i marked).2, Bool.true_or]⟩
  · simp only [hit] at marked ⊢
    have used : (s.proc k).state ≠ .unused := fun unused => fresh k unused same
    by_cases here : i = k
    · subst here
      refine ⟨fun free => ?_, by simp [same]⟩
      simp only [update_self] at free
      split at free
      · cases free
      · exact used free
    · rw [update_of_ne here] at marked ⊢
      exact ⟨(inv i marked).1, by rw [(inv i marked).2, Bool.true_or]⟩

theorem step (inv : s.KillInv) {event : Option ProcEvent} (step : ProcStep NoStale Unkilled s event u) :
    u.KillInv := by
  cases step with
  | schedule | yield | sleep | forked | waitSleeps => exact inv.update rfl rfl rfl nofun
  | awake | kstack | waitAwake => exact inv.update rfl rfl rfl .inl
  | wakeup address =>
    exact inv.keep rfl (Ptable.wakeup1_killed _ _) fun i free =>
      .inl ((Ptable.woken_wakeup1 _ _ i).unused_iff.1 free)
  | kill pid fresh => exact inv.kill fresh
  | allocproc p np free found =>
    obtain ⟨unused, rfl⟩ := Ptable.allocproc_eq_some found
    intro i marked
    by_cases here : i = np
    · subst here
      simp only [update_self] at marked
      exact absurd unused (inv i marked).1
    · simp only [update_of_ne here] at marked ⊢
      exact inv i marked
  | noStack p np running forking unkilled => exact inv.update rfl rfl rfl fun _ => .inr unkilled
  | noMemory p np running forking unkilled =>
    have dir : KillInv (s.withProc (s.proc.setDir np 0)) := inv.update rfl rfl rfl .inl
    refine dir.update rfl rfl rfl fun _ => .inr ?_
    exact (Ptable.part_update Proc.killed (by rfl) np).trans unkilled
  | copied p np pgdir running forking =>
    have dir : KillInv (s.withProc (s.proc.setDir np pgdir)) := inv.update rfl rfl rfl .inl
    exact dir.update rfl rfl rfl .inl
  | exit p free other =>
    have exits := s.proc.exits_exit p s.initproc
    refine inv.keep rfl exits.killed fun i free => ?_
    have here : i ≠ p := by
      rintro rfl
      rw [show (s.withProc (s.proc.exit i s.initproc)).proc i = s.proc.exit i s.initproc i from rfl,
        exits.self] at free
      cases free
    exact .inl ((exits.state i here).unused_iff.1 free)
  | waitEnter | waitFails => exact inv
  | waited p child running waiting found =>
    intro i marked
    by_cases here : i = child
    · subst here
      simp [withProc, goto, Ptable.reap] at marked
    · simp only [withProc, goto, Ptable.reap, update_of_ne here] at marked ⊢
      exact inv i marked

theorem right (inv : s.KillInv) : s.KillRight where
  returns pid fresh zero := by
    rcases s.proc.kill_cases pid with missed | ⟨k, same, hit⟩
    · rw [missed] at zero
      cases zero
    · exact ⟨k, fun unused => fresh k unused same, same⟩
  unused pid fresh i free := by
    rcases s.proc.kill_cases pid with missed | ⟨k, same, hit⟩
    · rw [missed]
    · rw [hit]
      refine update_of_ne ?_ ..
      rintro rfl
      exact fresh i free same
  clean p np forked marked := (inv np marked).2

end Procs.KillInv

theorem Procs.KillInv.userinit (kstack pgdir : Nat) : (Procs.userinit kstack pgdir).KillInv := by
  intro i marked
  simp only [Procs.userinit] at marked
  split at marked <;> cases marked

/-- In a clean run `kill` returns 0 only for a process that exists, leaves the
unused entries alone, and a new process is marked as killed only if `kill` was
called with its pid. -/
theorem kill_touches_live {kstack pgdir : Nat} {s : Procs} (run : (Procs.userinit kstack pgdir).CleanRun s) :
    s.KillRight := by
  have inv : s.KillInv :=
    run_induction (fun inv ⟨_, step⟩ => inv.step step) (Procs.KillInv.userinit kstack pgdir) run
  exact inv.right

theorem kill_touches_live_embryo : ∃ s : Procs, s.pc 0 = .forked 1 ∧ (s.proc 1).killed = true ∧ s.KillRight := by
  have run : (Procs.userinit 4096 8192).CleanRun _ := ReflTransGen.refl
  have run := run.tail ⟨_, .schedule 0 rfl⟩
  have run := run.tail ⟨_, .allocproc 0 1 ⟨rfl, rfl⟩ rfl⟩
  have run := run.tail ⟨_, .kill 2 (by unfold Procs.NoStale; decide)⟩
  have run := run.tail ⟨_, .kstack 0 1 12288 rfl rfl⟩
  have run := run.tail ⟨_, .copied 0 1 16384 rfl rfl⟩
  exact ⟨_, rfl, rfl, kill_touches_live run⟩

/-- `kill(0)` reports success for an entry that was never used and marks it, and
the process that `fork` puts there starts as killed. -/
theorem kill_zero_marks_unused :
    ((Procs.userinit 4096 8192).proc.kill 0).2 = 0 ∧
      (∀ i, ((Procs.userinit 4096 8192).proc i).state ≠ .unused → ((Procs.userinit 4096 8192).proc i).pid ≠ 0) ∧
      ((Procs.userinit 4096 8192).proc 1).state = .unused ∧
      ((Procs.userinit 4096 8192).proc.kill 0).1 1 ≠ (Procs.userinit 4096 8192).proc 1 ∧
      ∃ s : Procs, ReflTransGen (fun s t => ∃ event, ProcStep (fun _ _ => True) (fun _ _ => True) s event t)
        (Procs.userinit 4096 8192) s ∧ (s.proc 0).state = .running ∧ s.pc 0 = .forked 1 ∧
        (s.proc 1).killed = true ∧ s.called 1 = false := by
  refine ⟨by decide, by decide, rfl, by decide, ?_⟩
  have run : ReflTransGen (fun s t => ∃ event, ProcStep (fun _ _ => True) (fun _ _ => True) s event t)
    (Procs.userinit 4096 8192) _ := ReflTransGen.refl
  have run := run.tail ⟨_, .schedule 0 rfl⟩
  have run := run.tail ⟨_, .kill 0 trivial⟩
  have run := run.tail ⟨_, .allocproc 0 1 ⟨rfl, rfl⟩ rfl⟩
  have run := run.tail ⟨_, .kstack 0 1 12288 rfl rfl⟩
  have run := run.tail ⟨_, .copied 0 1 16384 rfl rfl⟩
  exact ⟨_, run, rfl, rfl, rfl, rfl⟩

end MiniOS
