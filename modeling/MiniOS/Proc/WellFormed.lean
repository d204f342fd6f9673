import MiniOS.Lib.Run
import MiniOS.Proc.PageSteps

namespace MiniOS

open Lib Relation Function

variable {mayKill : Procs → BitVec 32 → Prop} {mayFail : Procs → Fin nproc → Prop} {s t : Procs}
  {event : Option ProcEvent}

/-- The pid of a process is its number of birth plus one, as `int`. -/
structure Procs.Numbered (s : Procs) : Prop where
  next : s.nextpid = BitVec.ofNat 32 (s.births + 1)
  pid : ∀ i, (s.proc i).state ≠ .unused → (s.proc i).pid = BitVec.ofNat 32 (s.birth i + 1)

namespace Procs.Numbered

variable {s t : Procs}

theorem userinit (kstack pgdir : Nat) : (Procs.userinit kstack pgdir).Numbered where
  next := rfl
  pid i used := by
    by_cases here : i = 0
    · subst here
      rfl
    · simp [Procs.userinit, here] at used

/-- No process is created, and no process that is left has another pid. -/
theorem keep (numbered : s.Numbered) {event : Option ProcEvent} (quiet : s.Quiet event t)
    (next : t.nextpid = s.nextpid) (pid : ∀ i, (t.proc i).pid = (s.proc i).pid ∨ (t.proc i).state = .unused) :
    t.Numbered where
  next := by rw [next, quiet.births, numbered.next]
  pid i used := by
    rw [(pid i).resolve_right used, quiet.birth]
    exact numbered.pid i (quiet.used i used)

theorem alloc (numbered : s.Numbered) {np : Fin nproc} {e : Proc} (proc : t.proc = update s.proc np e)
    (own : e.pid = s.nextpid) (next : t.nextpid = s.nextpid + 1) (births : t.births = s.births + 1)
    (birth : t.birth = update s.birth np s.births) : t.Numbered where
  next := by
    rw [next, births, numbered.next]
    exact (BitVec.ofNat_add ..).symm
  pid i used := by
    rw [proc] at used ⊢
    rw [birth]
    by_cases here : i = np
    · rw [here, update_self, update_self, own, numbered.next]
    · rw [update_of_ne here] at used ⊢
      rw [update_of_ne here]
      exact numbered.pid i used

end Procs.Numbered

/-- Only `allocproc` assigns a pid; an entry that is released may lose it. -/
theorem ProcStep.pids (step : ProcStep mayKill mayFail s event t) :
    (t.births = s.births ∧ t.nextpid = s.nextpid ∧
      ∀ i, (t.proc i).pid = (s.proc i).pid ∨ (t.proc i).state = .unused) ∨
    ∃ np e, t.proc = update s.proc np e ∧ e.pid = s.nextpid ∧ t.nextpid = s.nextpid + 1 ∧
      t.births = s.births + 1 ∧ t.birth = update s.birth np s.births := by
  have update : ∀ {p : Fin nproc} {e : Proc}, e.pid = (s.proc p).pid → ∀ i,
      (update s.proc p e i).pid = (s.proc i).pid ∨ (update s.proc p e i).state = .unused :=
    fun same i => .inl (Ptable.part_update Proc.pid same i)
  cases step with
  | schedule | yield | sleep | awake | noStack | kstack | forked | waitSleeps | waitAwake =>
    exact .inl ⟨rfl, rfl, update rfl⟩
  | wakeup address => exact .inl ⟨rfl, rfl, fun i => .inl (Ptable.wakeup1_pid ..)⟩
  | kill pid _ =>
    refine .inl ⟨rfl, rfl, ?_⟩
    rcases s.proc.kill_cases pid with missed | ⟨k, _, hit⟩
    · rw [missed]
      exact fun _ => .inl rfl
    · rw [hit]
      exact update rfl
  | allocproc p np _ found =>
    obtain ⟨_, rfl⟩ := Ptable.allocproc_eq_some found
    exact .inr ⟨np, _, rfl, rfl, rfl, rfl, rfl⟩
  | noMemory | copied =>
    refine .inl ⟨rfl, rfl, fun i => .inl ?_⟩
    exact (Ptable.part_update Proc.pid (by rfl) i).trans (Ptable.part_update Proc.pid (by rfl) i)
  | exit p _ _ => exact .inl ⟨rfl, rfl, fun i => .inl ((s.proc.exits_exit ..).pid i)⟩
  | waitEnter | waitFails => exact .inl ⟨rfl, rfl, fun _ => .inl rfl⟩
  | waited p child _ _ _ =>
    refine .inl ⟨rfl, rfl, fun i => ?_⟩
    by_cases here : i = child
    · exact .inr (here ▸ Ptable.reap_state ..)
    · exact .inl (congrArg Proc.pid (update_of_ne here _ s.proc))

theorem Procs.Numbered.step (inv : s.Inv) (numbered : s.Numbered) (step : ProcStep mayKill mayFail s event t) :
    t.Numbered := by
  rcases step.pids with ⟨births, next, pid⟩ | ⟨np, e, proc, own, next, births, birth⟩
  · have quiet : s.Quiet event t := by
      refine (step.quiet inv).resolve_right ?_
      rintro ⟨_, _, _, _, _, _, _, more, _⟩
      omega
    exact numbered.keep quiet next pid
  · exact numbered.alloc proc own next births birth

/-- Every step is one of the process table or leaves it as it is. -/
theorem PagedStep.procStep {s t : PagedProcs} (step : PagedStep s t) :
    t.procs = s.procs ∨ ∃ event, ProcStep (fun _ _ => True) (fun _ _ => True) s.procs event t.procs := by
  cases step with
  | kstack p np page running forking _ => exact .inr ⟨_, .kstack p np page running forking⟩
  | copied p np page running stacked _ => exact .inr ⟨_, .copied p np page running stacked⟩
  | noMemory p np running stacked => exact .inr ⟨_, .noMemory p np running stacked trivial⟩
  | waited p child running waiting found => exact .inr ⟨_, .waited p child running waiting found⟩
  | rest step _ _ => exact .inr ⟨_, step⟩
  | takes | returns => exact .inl rfl

namespace PagedProcs

variable {s t : PagedProcs}

theorem Apart.userinit {pages : Finset Nat} {kstack pgdir : Nat} (stack : kstack ∈ pages)
    (dir : pgdir ∈ pages.erase kstack) (null : 0 ∉ pages) : (userinit pages kstack pgdir).Apart := by
  obtain ⟨different, member⟩ := Finset.mem_erase.1 dir
  have holds : ∀ {x page}, (Procs.userinit kstack pgdir).Holds x page →
      x = .stack 0 ∧ page = kstack ∨ x = .dir 0 ∧ page = pgdir := by
    intro x page held
    have first : ∀ i, (Procs.userinit kstack pgdir).Settled i → i = 0 := by
      intro i settled
      by_contra other
      simp [Procs.Settled, Procs.userinit, other] at settled
    cases x with
    | stack i =>
      obtain ⟨settled | ⟨_, now | now⟩, found⟩ := held
      · cases first i settled
        exact .inl ⟨rfl, found.symm⟩
      · cases now
      · cases now
    | dir i =>
      obtain ⟨settled | ⟨_, now⟩, found⟩ := held
      · cases first i settled
        exact .inr ⟨rfl, found.symm⟩
      · cases now
  refine ⟨fun here there => ?_, fun here => ?_, fun fresh => ?_, Finset.notMem_empty 0⟩
  · rcases holds here with ⟨rfl, rfl⟩ | ⟨rfl, rfl⟩ <;> rcases holds there with ⟨rfl, same⟩ | ⟨rfl, same⟩
    · rfl
    · exact absurd same.symm different
    · exact absurd same different
    · rfl
  · rcases holds here with ⟨rfl, rfl⟩ | ⟨rfl, rfl⟩
    · exact ⟨fun zero => null (zero ▸ stack), fun free => Finset.notMem_erase _ _ (Finset.mem_of_mem_erase free),
        Finset.notMem_empty _⟩
    · exact ⟨fun zero => null (zero ▸ member), Finset.notMem_erase _ _, Finset.notMem_empty _⟩
  · have listed := Finset.mem_of_mem_erase (Finset.mem_of_mem_erase fresh)
    exact ⟨fun zero => null (zero ▸ listed), Finset.notMem_empty _⟩

theorem Apart.step (inv : s.procs.Inv) (apart : s.Apart) (step : PagedStep s t) : t.Apart := by
  have after : t.procs.Inv := by
    rcases step.procStep with same | ⟨event, step⟩
    · rwa [same]
    · exact inv.step step
  cases step with
  | kstack p np page running forking fresh => exact apart.take fresh (Procs.holds_kstack inv forking)
  | copied p np page running stacked fresh => exact apart.take fresh (Procs.holds_copied stacked)
  | @noMemory s free others p np running stacked =>
    have gone := Procs.not_holds_unused after (k := np) (Ptable.giveBack_state ..)
    have returned := apart.give {(s.proc np).kstack} (fun b member => ?_)
      (Procs.holds_release after (update_idem ..) rfl rfl)
    · exact returned
    · rw [Finset.mem_singleton.1 member]
      exact ⟨.stack np, ⟨.inr ⟨p, .inl stacked⟩, rfl⟩, fun c => (gone c).1⟩
  | @waited s free others p child running waiting found =>
    have gone := Procs.not_holds_unused after (k := child) (Ptable.reap_state ..)
    have zombie := (Ptable.exitedChild_eq_some found).2
    have settled : s.Settled child := by
      rw [Procs.Settled, zombie]
      exact ⟨fun wrong => (by cases wrong), fun wrong => by cases wrong⟩
    have returned := apart.give {(s.proc child).kstack, (s.proc child).pgdir} (fun b member => ?_)
      (Procs.holds_release after rfl rfl rfl)
    · have both : {(s.proc child).kstack, (s.proc child).pgdir} ∪ free =
          insert (s.proc child).kstack (insert (s.proc child).pgdir free) := by
        ext b
        simp only [Finset.mem_union, Finset.mem_insert, Finset.mem_singleton, or_assoc]
      rwa [both] at returned
    · rcases Finset.mem_insert.1 member with rfl | second
      · exact ⟨.stack child, ⟨.inl settled, rfl⟩, fun c => (gone c).1⟩
      · rw [Finset.mem_singleton.1 second]
        exact ⟨.dir child, ⟨.inl settled, rfl⟩, fun c => (gone c).2⟩
  | rest step stacked nobody => exact apart.keep (Procs.holds_rest inv step stacked nobody)
  | takes page fresh => exact apart.takes fresh
  | returns page used => exact apart.returns used

/-- Every process that is there has a pid of its own, greater than 0; every one past its
creation other than init has a parent that is there and has not exited, and two pages that are
on no free list and that no other process has; an unused entry has no parent. -/
structure WellFormed (s : PagedProcs) : Prop where
  distinct : ∀ i j, (s.procs.proc i).state ≠ .unused → (s.procs.proc j).state ≠ .unused →
    (s.procs.proc i).pid = (s.procs.proc j).pid → i = j
  positive : ∀ i, (s.procs.proc i).state ≠ .unused → 0 < (s.procs.proc i).pid.toInt
  parent : ∀ i, s.procs.Settled i → i ≠ s.procs.initproc → ∃ q, (s.procs.proc i).parent = some q ∧
    (s.procs.proc q).state ≠ .unused ∧ (s.procs.proc q).state ≠ .zombie
  unused : ∀ i, (s.procs.proc i).state = .unused → (s.procs.proc i).parent = none
  stack : ∀ i, s.procs.Settled i → (s.procs.proc i).kstack ≠ 0 ∧ (s.procs.proc i).kstack ∉ s.free
  dir : ∀ i, s.procs.Settled i → (s.procs.proc i).pgdir ≠ 0 ∧ (s.procs.proc i).pgdir ∉ s.free
  ownStack : ∀ i j, s.procs.Settled i → s.procs.Settled j → (s.procs.proc i).kstack = (s.procs.proc j).kstack → i = j
  ownDir : ∀ i j, s.procs.Settled i → s.procs.Settled j → (s.procs.proc i).pgdir = (s.procs.proc j).pgdir → i = j
  stackNoDir : ∀ i j, s.procs.Settled i → s.procs.Settled j → (s.procs.proc i).kstack ≠ (s.procs.proc j).pgdir

theorem pid_toInt (numbered : s.procs.Numbered) (inv : s.procs.Inv) (few : s.procs.births < 2 ^ 31 - 1)
    {i : Fin nproc} (used : (s.procs.proc i).state ≠ .unused) : (s.procs.proc i).pid.toInt = s.procs.birth i + 1 := by
  have born := inv.born i used
  have small : (BitVec.ofNat 32 (s.procs.birth i + 1)).toNat = s.procs.birth i + 1 := by
    rw [BitVec.toNat_ofNat, Nat.mod_eq_of_lt (by omega)]
  rw [numbered.pid i used, BitVec.toInt_eq_toNat_of_lt (by omega), small]
  rfl

/-- All that the steps keep. -/
structure Kept (s : PagedProcs) : Prop where
  inv : s.procs.Inv
  family : s.procs.Family
  numbered : s.procs.Numbered
  apart : s.Apart

theorem Kept.step (kept : s.Kept) (step : PagedStep s t) : t.Kept := by
  obtain ⟨inv, family, numbered, apart⟩ := kept
  rcases step.procStep with same | ⟨event, procStep⟩
  · exact ⟨same ▸ inv, same ▸ family, same ▸ numbered, apart.step inv step⟩
  · exact ⟨inv.step procStep, family.step inv procStep, numbered.step inv procStep, apart.step inv step⟩

/-- The process table is well formed in every state of a run that creates fewer than 2³¹ - 1
processes. -/
theorem table_well_formed {pages : Finset Nat} {kstack pgdir : Nat} (stack : kstack ∈ pages)
    (dir : pgdir ∈ pages.erase kstack) (null : 0 ∉ pages)
    (run : ReflTransGen PagedStep (userinit pages kstack pgdir) s) (few : s.procs.births < 2 ^ 31 - 1) :
    s.WellFormed := by
  obtain ⟨inv, family, numbered, apart⟩ : s.Kept :=
    run_induction Kept.step ⟨.userinit .., .userinit .., .userinit .., .userinit stack dir null⟩ run
  have hasStack : ∀ {i}, s.procs.Settled i → s.procs.Holds (.stack i) (s.procs.proc i).kstack :=
    fun settled => ⟨Or.inl settled, rfl⟩
  have hasDir : ∀ {i}, s.procs.Settled i → s.procs.Holds (.dir i) (s.procs.proc i).pgdir :=
    fun settled => ⟨Or.inl settled, rfl⟩
  refine ⟨fun i j left right same => ?_, fun i used => ?_, fun i settled other => ?_, family.unused,
    fun i settled => ?_, fun i settled => ?_, fun i j left right same => ?_, fun i j left right same => ?_,
    fun i j left right same => ?_⟩
  · have births := congrArg BitVec.toInt same
    rw [pid_toInt numbered inv few left, pid_toInt numbered inv few right] at births
    exact inv.apart i j left right (by omega)
  · rw [pid_toInt numbered inv few used]
    omega
  · obtain ⟨q, child, active⟩ := family.parent i settled.1 settled.2 other
    obtain ⟨used, _, living⟩ := ProcState.active_iff.mp active
    exact ⟨q, child, used, living⟩
  · exact ⟨(apart.held (hasStack settled)).1, (apart.held (hasStack settled)).2.1⟩
  · exact ⟨(apart.held (hasDir settled)).1, (apart.held (hasDir settled)).2.1⟩
  · exact PageUse.stack.inj (apart.one (hasStack left) (same ▸ hasStack right))
  · exact PageUse.dir.inj (apart.one (hasDir left) (same ▸ hasDir right))
  · exact nomatch apart.one (x := .stack i) (y := .dir j) (hasStack left) (same ▸ hasDir right)

/-- A fork that succeeds. -/
theorem table_well_formed_fork : ∃ s : PagedProcs, (s.procs.proc 1).state = .runnable ∧ s.WellFormed := by
  obtain ⟨s, run, runnable, births⟩ : ∃ s, ReflTransGen PagedStep (userinit {1, 2, 3, 4} 1 2) s ∧
      (s.procs.proc 1).state = .runnable ∧ s.procs.births = 2 := by
    refine ⟨_, .tail (.tail (.tail (.tail (.tail .refl
      (.rest (.schedule 0 rfl) (fun _ _ => Iff.rfl) nofun))
      (.rest (.allocproc 0 1 ⟨rfl, rfl⟩ rfl) (fun q i => ?_) nofun))
      (.kstack 0 1 3 rfl rfl (by decide)))
      (.copied 0 1 4 rfl rfl (by decide)))
      (.rest (.forked 0 1 rfl rfl) (fun q i => ?_) nofun), rfl, rfl⟩
    · revert q i
      decide
    · revert q i
      decide
  exact ⟨s, runnable, table_well_formed (by decide) (by decide) (by decide) run (by rw [births]; decide)⟩

end PagedProcs

end MiniOS
