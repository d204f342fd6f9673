import MiniOS.Lib.Trace
import MiniOS.Proc.Births

namespace MiniOS

open Lib Function

variable {mayKill : Procs → BitVec 32 → Prop} {mayFail : Procs → Fin nproc → Prop} {s u : Procs}

/-- A run of the system, with the exits and the calls of `wait` that return a pid. -/
abbrev Procs.Run : Procs → List ProcEvent → Procs → Prop := Trace (ProcStep (fun _ _ => True) (fun _ _ => True))

/-- The process whose pid a call of `wait` returns. -/
def ProcEvent.reaped : ProcEvent → Option Nat
  | exited _ => none
  | waited _ _ birth _ => some birth

/-- No process that sleeps in `wait` has a child that is a zombie. -/
def Ptable.WaitRight (t : Ptable) : Prop := ∀ p c, (t p).state = .sleeping → (t p).chan = some (.proc p) →
  (t c).parent = some p → (t c).state ≠ .zombie

namespace Ptable.WaitRight

variable {t u : Ptable} {i : Fin nproc} {e : Proc} {p : Fin nproc}

section

variable (right : t.WaitRight)
include right

/-- No process goes to sleep in `wait`, and no process becomes a zombie or the child of another one. -/
theorem mono (asleep : ∀ i, (u i).state = .sleeping → (u i).chan = some (.proc i) →
      (t i).state = .sleeping ∧ (t i).chan = some (.proc i))
    (zombie : ∀ i, (u i).state = .zombie → (t i).state = .zombie ∧ (u i).parent = (t i).parent) : u.WaitRight := by
  intro p c sleeps waits child dead
  obtain ⟨before, parent⟩ := zombie c dead
  obtain ⟨slept, chan⟩ := asleep p sleeps waits
  exact right p c slept chan (parent ▸ child) before

theorem update (asleep : e.state = .sleeping → e.chan = some (.proc i) →
      (t i).state = .sleeping ∧ (t i).chan = some (.proc i))
    (zombie : e.state = .zombie → (t i).state = .zombie ∧ e.parent = (t i).parent) :
    Ptable.WaitRight (update t i e) := by
  refine right.mono (fun j sleeps waits => ?_) fun j dead => ?_
  · by_cases here : j = i
    · subst here
      rw [update_self] at sleeps waits
      exact asleep sleeps waits
    · rw [update_of_ne here] at sleeps waits
      exact ⟨sleeps, waits⟩
  · by_cases here : j = i
    · subst here
      rw [update_self] at dead ⊢
      exact zombie dead
    · rw [update_of_ne here] at dead ⊢
      exact ⟨dead, rfl⟩

theorem woken (state : ∀ i, Woken (t i).state (u i).state) (chan : ∀ i, (u i).chan = (t i).chan)
    (parent : ∀ i, (u i).parent = (t i).parent) : u.WaitRight := by
  refine right.mono (fun i sleeps waits => ⟨?_, chan i ▸ waits⟩) fun i dead => ⟨(state i).zombie_iff.1 dead, parent i⟩
  have before := state i
  rw [sleeps] at before
  exact before.of_sleeping

theorem exit {initproc : Fin nproc} (selfless : (t p).parent ≠ some p) :
    (t.exit p initproc).WaitRight := by
  have exits := t.exits_exit p initproc
  intro w c sleeps waits child dead
  rw [exits.chan] at waits
  have awake : w ≠ p := by
    rintro rfl
    rw [exits.self] at sleeps
    cases sleeps
  have slept : (t w).state = .sleeping := by
    have before := exits.state w awake
    rw [sleeps] at before
    exact before.of_sleeping
  rw [exits.parent] at child
  by_cases here : c = p
  · rw [here, if_neg selfless] at child
    exact exits.wakesParent w child waits sleeps
  · have before := (exits.state c here).zombie_iff.1 dead
    split at child
    · rename_i mine
      cases child
      exact exits.wakesInit c mine before waits sleeps
    · exact right w c slept waits child before

/-- A process goes to sleep in `wait` when it has no child that is a zombie. -/
theorem waitSleeps (none : t.exitedChild p = none)
    (running : (t p).state = .running) : (t.sleep p (.proc p)).WaitRight := by
  intro w c sleeps waits child dead
  have kids : ∀ i, (t.sleep p (.proc p) i).parent = (t i).parent := part_update Proc.parent (by rfl)
  have alive : c ≠ p := by
    rintro rfl
    simp [Ptable.sleep] at dead
  rw [kids] at child
  rw [Ptable.sleep, update_of_ne alive] at dead
  by_cases here : w = p
  · rw [here] at child
    exact exitedChild_eq_none none c child dead
  · rw [Ptable.sleep, update_of_ne here] at sleeps waits
    exact right w c sleeps waits child dead

end

end Ptable.WaitRight

theorem ProcStep.waitRight {event : Option ProcEvent} (inv : s.Inv) (right : s.proc.WaitRight)
    (step : ProcStep mayKill mayFail s event u) :
    u.proc.WaitRight := by
  cases step with
  | schedule | yield | sleep | noStack | forked | waited => exact right.update nofun nofun
  | awake | waitAwake => exact right.update nofun fun dead => ⟨dead, rfl⟩
  | wakeup address =>
    exact right.woken (Ptable.woken_wakeup1 _ _) (Ptable.wakeup1_chan _ _) (Ptable.wakeup1_parent _ _)
  | kill pid may => exact right.woken (Ptable.woken_kill _ _) (Ptable.kill_chan _ _) (Ptable.kill_parent _ _)
  | allocproc p np free found =>
    obtain ⟨unused, rfl⟩ := Ptable.allocproc_eq_some found
    exact right.update nofun nofun
  | kstack p np kstack running forking =>
    exact right.update (fun sleeps waits => ⟨sleeps, waits⟩) fun dead => ⟨dead, rfl⟩
  | noMemory p np running forking may =>
    have dir : (s.proc.setDir np 0).WaitRight :=
      right.update (fun sleeps waits => ⟨sleeps, waits⟩) fun dead => ⟨dead, rfl⟩
    exact dir.update nofun nofun
  | copied p np pgdir running forking =>
    have dir : (s.proc.setDir np pgdir).WaitRight :=
      right.update (fun sleeps waits => ⟨sleeps, waits⟩) fun dead => ⟨dead, rfl⟩
    have embryo : (s.proc.setDir np pgdir np).state = .embryo :=
      (Ptable.part_update Proc.state (by rfl) np).trans (inv.embryo p np (by rw [forking]; rfl))
    exact dir.update (fun sleeps waits => ⟨sleeps, waits⟩) fun dead => nomatch embryo.symm.trans dead
  | exit p free other => exact right.exit (inv.selfless p)
  | waitEnter | waitFails => exact right
  | waitSleeps p running waiting none kids alive => exact right.waitSleeps none running

/-- What holds after a run with the given events. -/
structure Procs.History (events : List ProcEvent) (s : Procs) : Prop where
  inv : s.Inv
  wait : s.proc.WaitRight
  once : (events.filterMap ProcEvent.reaped).Nodup
  gone : ∀ b ∈ events.filterMap ProcEvent.reaped, b < s.births ∧ ∀ i, (s.proc i).state ≠ .unused → s.birth i ≠ b
  dead : ∀ i, (s.proc i).state = .zombie → ProcEvent.exited (s.birth i) ∈ events

/-- What a `wait` that returns a pid finds and leaves. -/
structure Procs.Waits (s : Procs) (p c : Fin nproc) (birth : Nat) (pid : BitVec 32) (u : Procs) : Prop where
  parent : (s.proc c).parent = some p
  zombie : (s.proc c).state = .zombie
  birth : s.birth c = birth
  pid : (s.proc c).pid = pid
  unused : (u.proc c).state = .unused

theorem ProcStep.waits {p c : Fin nproc} {birth : Nat} {pid : BitVec 32}
    (step : ProcStep mayKill mayFail s (some (.waited p c birth pid)) u) : s.Waits p c birth pid u := by
  cases step with
  | waited p child running waiting found =>
    obtain ⟨parent, zombie⟩ := Ptable.exitedChild_eq_some found
    exact ⟨parent, zombie, rfl, rfl, by simp [Procs.withProc, Procs.goto, Ptable.reap]⟩

namespace Procs.History

variable {s u : Procs} {events : List ProcEvent} {event : Option ProcEvent}
  {mayKill : Procs → BitVec 32 → Prop} {mayFail : Procs → Fin nproc → Prop}

/-- The processes that have been waited for are gone after a step as well. -/
theorem gone_step (history : s.History events)
    (step : ProcStep mayKill mayFail s event u) (b : Nat) (reaped : b ∈ events.filterMap ProcEvent.reaped) :
    b < u.births ∧ ∀ i, (u.proc i).state ≠ .unused → u.birth i ≠ b := by
  obtain ⟨below, gone⟩ := history.gone b reaped
  rcases step.quiet history.inv with quiet | ⟨p, np, unused, _, _, proc, pc, births, birth, _⟩
  · rw [quiet.births, quiet.birth]
    exact ⟨below, fun i used => gone i (quiet.used i used)⟩
  · refine ⟨by omega, fun i used => ?_⟩
    rw [birth]
    by_cases here : i = np
    · rw [here, update_self]
      omega
    · rw [update_of_ne here]
      rw [proc, update_of_ne here] at used
      exact gone i used

theorem dead_step (history : s.History events)
    (step : ProcStep mayKill mayFail s event u) (i : Fin nproc) (zombie : (u.proc i).state = .zombie) :
    ProcEvent.exited (u.birth i) ∈ events ++ event.toList := by
  rcases step.quiet history.inv with quiet | ⟨p, np, unused, _, _, proc, pc, births, birth, _⟩
  · rw [quiet.birth]
    rcases quiet.dead i zombie with before | exits
    · exact List.mem_append_left _ (history.dead i before)
    · rw [exits]
      exact List.mem_append_right _ (.head _)
  · have here : i ≠ np := by
      rintro rfl
      rw [proc, update_self] at zombie
      cases zombie
    rw [proc, update_of_ne here] at zombie
    rw [birth, update_of_ne here]
    exact List.mem_append_left _ (history.dead i zombie)

theorem step (history : s.History events)
    (step : ProcStep mayKill mayFail s event u) : u.History (events ++ event.toList) := by
  have inv := history.inv.step step
  have wait := step.waitRight history.inv history.wait
  have gone := history.gone_step step
  have dead := history.dead_step step
  rcases event with _ | (birth | ⟨p, c, birth, pid⟩)
  · exact ⟨inv, wait, by simpa using history.once, by simpa using gone, dead⟩
  · exact ⟨inv, wait, by simpa [List.filterMap_cons, ProcEvent.reaped] using history.once,
      by simpa [List.filterMap_cons, ProcEvent.reaped] using gone, dead⟩
  · have waits := step.waits
    have used : (s.proc c).state ≠ .unused := by
      rw [waits.zombie]
      nofun
    have more : (events ++ (some (ProcEvent.waited p c birth pid)).toList).filterMap ProcEvent.reaped =
        events.filterMap ProcEvent.reaped ++ [birth] := by
      simp [ProcEvent.reaped]
    have fresh : birth ∉ events.filterMap ProcEvent.reaped := fun old => (history.gone birth old).2 c used waits.birth
    refine ⟨inv, wait, ?_, ?_, dead⟩
    · rw [more]
      exact List.Nodup.append history.once (List.nodup_singleton birth) (by simpa using fresh)
    · rw [more]
      intro b member
      rcases List.mem_append.1 member with old | new
      · exact gone b old
      · rw [List.mem_singleton.1 new]
        rcases step.quiet history.inv with quiet | ⟨_, _, _, _, none, _⟩
        · rw [quiet.births, quiet.birth]
          refine ⟨waits.birth ▸ history.inv.born c used, fun i live same => ?_⟩
          have here := history.inv.apart i c (quiet.used i live) used (same.trans waits.birth.symm)
          rw [here] at live
          exact live waits.unused
        · cases none

end Procs.History

/-- No process that sleeps in `wait` has a zombie child, every process is waited
for at most once, and then it has exited, its parent is the one who waits, its
pid is returned and its entry becomes unused. -/
theorem exit_and_wait_meet {kstack pgdir : Nat} {events : List ProcEvent} {s : Procs}
    (run : (Procs.userinit kstack pgdir).Run events s) :
    s.proc.WaitRight ∧ (events.filterMap ProcEvent.reaped).Nodup ∧
      ∀ p c birth pid u, ProcStep (fun _ _ => True) (fun _ _ => True) s (some (.waited p c birth pid)) u →
        .exited birth ∈ events ∧ s.Waits p c birth pid u := by
  have history : s.History events := by
    induction run with
    | start =>
      refine ⟨.userinit kstack pgdir, fun p c sleeps => ?_, List.nodup_nil, nofun, fun i zombie => ?_⟩
      · simp only [Procs.userinit] at sleeps
        split at sleeps <;> cases sleeps
      · simp only [Procs.userinit] at zombie
        split at zombie <;> cases zombie
    | next _ last ih => exact ih.step last
  refine ⟨history.wait, history.once, fun p c birth pid u last => ?_⟩
  have waits := last.waits
  exact ⟨waits.birth ▸ history.dead c waits.zombie, waits⟩

theorem exit_and_wait_meet_one_child : ∃ s : Procs, (s.proc 0).state = .running ∧ (s.proc 1).state = .unused ∧
    (Procs.userinit 4096 8192).Run [.exited 1, .waited 0 1 1 2] s ∧ s.proc.WaitRight := by
  have run : (Procs.userinit 4096 8192).Run [] _ := .start
  have run := run.silent (.schedule 0 rfl)
  have run := run.silent (.allocproc 0 1 ⟨rfl, rfl⟩ rfl)
  have run := run.silent (.kstack 0 1 12288 rfl rfl)
  have run := run.silent (.copied 0 1 16384 rfl rfl)
  have run := run.silent (.forked 0 1 rfl rfl)
  have run := run.silent (.waitEnter 0 ⟨rfl, rfl⟩)
  have run := run.silent (.waitSleeps 0 rfl rfl rfl ⟨1, rfl⟩ rfl)
  have run := run.silent (.schedule 1 rfl)
  have run := run.next (.exit 1 ⟨rfl, rfl⟩ (by decide))
  have run := run.silent (.schedule 0 rfl)
  have run := run.silent (.waitAwake 0 rfl rfl)
  have run := run.next (.waited 0 1 rfl rfl rfl)
  exact ⟨_, rfl, rfl, run, (exit_and_wait_meet run).1⟩

end MiniOS
