import MiniOS.Proc.Effects

namespace MiniOS

open Function

/-- The entry of the child that the process creates. -/
def ProcPc.child : ProcPc → Option (Fin nproc)
  | forking np | stacked np | forked np => some np
  | _ => none

/-- The states of a process that can run or will. -/
def ProcState.Active : ProcState → Prop
  | sleeping => True
  | runnable => True
  | running => True
  | _ => False

/-- The entries of children that are being created are used by no other
process, processes are numbered in the order of their births, init never exits
and has no parent, and no process is its own parent. -/
structure Procs.Inv (s : Procs) : Prop where
  embryo : ∀ p np, (s.pc p).child = some np → (s.proc np).state = .embryo
  one : ∀ p q np, (s.pc p).child = some np → (s.pc q).child = some np → p = q
  born : ∀ i, (s.proc i).state ≠ .unused → s.birth i < s.births
  apart : ∀ i j, (s.proc i).state ≠ .unused → (s.proc j).state ≠ .unused → s.birth i = s.birth j → i = j
  init : (s.proc s.initproc).state.Active
  orphan : (s.proc s.initproc).parent = none
  selfless : ∀ i, (s.proc i).parent ≠ some i

/-- A step that creates no process: entries that are used stay where they are,
who creates a process goes on to do so or gives up, and who exits shows it. -/
structure Procs.Quiet (s : Procs) (event : Option ProcEvent) (u : Procs) : Prop where
  births : u.births = s.births
  birth : u.birth = s.birth
  initproc : u.initproc = s.initproc
  used : ∀ i, (u.proc i).state ≠ .unused → (s.proc i).state ≠ .unused
  child : ∀ p np, (u.pc p).child = some np → (s.pc p).child = some np
  embryo : ∀ p np, (u.pc p).child = some np → (s.proc np).state = .embryo → (u.proc np).state = .embryo
  dead : ∀ i, (u.proc i).state = .zombie → (s.proc i).state = .zombie ∨ event = some (.exited (s.birth i))
  init : (u.proc s.initproc).state.Active
  parent : ∀ i q, (u.proc i).parent = some q → (s.proc i).parent = some q ∨ (q ≠ i ∧ i ≠ s.initproc)

theorem Ptable.Woken.active {a b : ProcState} (wakes : Woken a b) (active : a.Active) : b.Active := by
  cases wakes with
  | same => exact active
  | woken => trivial

namespace Procs.Quiet

variable {s u : Procs} {event : Option ProcEvent} {p np : Fin nproc} {e : Proc}

theorem creates_update {pc : ProcPc} (goes : ∀ np, pc.child = some np → (s.pc p).child = some np) (q np : Fin nproc)
    (creates : (Function.update s.pc p pc q).child = some np) : (s.pc q).child = some np := by
  by_cases here : q = p
  · subst here
    rw [update_self] at creates
    exact goes np creates
  · rwa [update_of_ne here] at creates

section Step

variable (inv : s.Inv) (births : u.births = s.births) (birth : u.birth = s.birth) (initproc : u.initproc = s.initproc)

include inv births birth initproc

/-- A step that changes one entry, of a process that is not being created or is
released by the process that created it. -/
theorem update (proc : u.proc = Function.update s.proc p e)
    (child : ∀ q np, (u.pc q).child = some np → (s.pc q).child = some np ∧ np ≠ p)
    (used : (s.proc p).state ≠ .unused) (alive : e.state ≠ .zombie) (active : e.state.Active ∨ p ≠ s.initproc)
    (parent : ∀ q, e.parent = some q → (s.proc p).parent = some q) : s.Quiet event u := by
  refine ⟨births, birth, initproc, fun i live => ?_, fun q np creates => (child q np creates).1,
    fun q np creates embryo => ?_, fun i zombie => ?_, ?_, fun i q new => ?_⟩
  · by_cases here : i = p
    · rwa [here]
    · rwa [proc, update_of_ne here] at live
  · rwa [proc, update_of_ne (child q np creates).2]
  · by_cases here : i = p
    · rw [proc, here, update_self] at zombie
      exact absurd zombie alive
    · rw [proc, update_of_ne here] at zombie
      exact .inl zombie
  · rw [proc]
    by_cases here : s.initproc = p
    · rw [here, update_self]
      exact active.resolve_right fun other => other here.symm
    · rw [update_of_ne here]
      exact inv.init
  · by_cases here : i = p
    · rw [proc, here, update_self] at new
      exact .inl (here ▸ parent q new)
    · rw [proc, update_of_ne here] at new
      exact .inl new

/-- A process that is not being created changes its own entry or has it changed. -/
theorem own (proc : u.proc = Function.update s.proc p e)
    (child : ∀ q np, (u.pc q).child = some np → (s.pc q).child = some np)
    (used : (s.proc p).state ≠ .unused) (grown : (s.proc p).state ≠ .embryo) (alive : e.state ≠ .zombie)
    (active : e.state.Active ∨ p ≠ s.initproc)
    (parent : ∀ q, e.parent = some q → (s.proc p).parent = some q) : s.Quiet event u := by
  refine update inv births birth initproc proc (fun q np creates => ⟨child q np creates, ?_⟩) used alive active parent
  rintro rfl
  exact grown (inv.embryo q np (child q np creates))

/-- The process that creates `np` is done with it. -/
theorem done (proc : u.proc = Function.update s.proc np e) (creates : (s.pc p).child = some np)
    (pc : u.pc = Function.update s.pc p .elsewhere) (alive : e.state ≠ .zombie)
    (parent : e.parent = (s.proc np).parent) : s.Quiet event u := by
  have embryo := inv.embryo p np creates
  have child : ∀ q i, (u.pc q).child = some i → (s.pc q).child = some i := by
    rw [pc]
    exact creates_update nofun
  refine update inv births birth initproc proc (fun q i others => ⟨child q i others, ?_⟩)
    (by rw [embryo]; nofun) alive
    (.inr ?_) fun q new => parent ▸ new
  · rintro rfl
    have same : q = p := inv.one q p i (child q i others) creates
    rw [pc, same, update_self] at others
    cases others
  · rintro rfl
    have active := inv.init
    rw [embryo] at active
    exact active

/-- The process that creates `np` works on its entry. -/
theorem working (proc : u.proc = Function.update s.proc np e)
    (child : ∀ q i, (u.pc q).child = some i → (s.pc q).child = some i) (creates : (s.pc p).child = some np)
    (state : e.state = (s.proc np).state)
    (parent : ∀ q, e.parent = some q → (s.proc np).parent = some q ∨ q ≠ np) : s.Quiet event u := by
  have same : ∀ i, (u.proc i).state = (s.proc i).state :=
    fun i => by rw [proc]; exact Ptable.part_update Proc.state state i
  refine ⟨births, birth, initproc, fun i used => same i ▸ used, child, fun _ i _ embryo => (same i).trans embryo,
    fun i zombie => .inl ((same i).symm.trans zombie), (same s.initproc).symm ▸ inv.init, fun i q new => ?_⟩
  by_cases here : i = np
  · rw [proc, here, update_self] at new
    rw [here]
    refine (parent q new).imp_right fun other => ⟨other, ?_⟩
    rintro rfl
    have active := inv.init
    rw [inv.embryo p _ creates] at active
    exact active
  · rw [proc, update_of_ne here] at new
    exact .inl new

/-- The table stays as it is up to wakeups and marks. -/
theorem woken (child : ∀ q np, (u.pc q).child = some np → (s.pc q).child = some np)
    (state : ∀ i, Ptable.Woken (s.proc i).state (u.proc i).state)
    (parent : ∀ i, (u.proc i).parent = (s.proc i).parent) :
    s.Quiet event u where
  births := births
  birth := birth
  initproc := initproc
  used i used free := used ((state i).unused_iff.2 free)
  child := child
  embryo _ np _ := (state np).embryo_iff.2
  dead i zombie := .inl ((state i).zombie_iff.1 zombie)
  init := (state s.initproc).active inv.init
  parent i _ new := .inl (parent i ▸ new)

end Step

theorem exit (inv : s.Inv) (free : s.Free p) (other : p ≠ s.initproc) :
    s.Quiet (some (.exited (s.birth p))) (s.withProc (s.proc.exit p s.initproc)) := by
  have exits := s.proc.exits_exit p s.initproc
  refine ⟨rfl, rfl, rfl, fun i used => ?_, fun _ _ creates => creates, fun _ np _ embryo => ?_, fun i zombie => ?_,
    (exits.state _ (Ne.symm other)).active inv.init, fun i q new => ?_⟩
  · by_cases here : i = p
    · rw [here, free.1]
      nofun
    · exact fun unused => used ((exits.state i here).unused_iff.2 unused)
  · have here : np ≠ p := by
      rintro rfl
      rw [free.1] at embryo
      cases embryo
    exact (exits.state np here).embryo_iff.2 embryo
  · by_cases here : i = p
    · exact .inr (by rw [here])
    · exact .inl ((exits.state i here).zombie_iff.1 zombie)
  · have passed : (s.withProc (s.proc.exit p s.initproc)).proc i = s.proc.exit p s.initproc i := rfl
    rw [passed, exits.parent] at new
    split at new
    · rename_i mine
      cases new
      have child : i ≠ s.initproc := by
        rintro rfl
        rw [inv.orphan] at mine
        cases mine
      exact .inr ⟨Ne.symm child, child⟩
    · exact .inl new

end Procs.Quiet

/-- A step creates no process, or it is the section of `allocproc`. -/
theorem ProcStep.quiet {mayKill : Procs → BitVec 32 → Prop} {mayFail : Procs → Fin nproc → Prop} {s u : Procs}
    {event : Option ProcEvent} (inv : s.Inv) (step : ProcStep mayKill mayFail s event u) :
    s.Quiet event u ∨ ∃ p np, (s.proc np).state = .unused ∧ (s.pc p).child = none ∧ event = none ∧
      u.proc = Function.update s.proc np { s.proc np with state := .embryo, pid := s.nextpid } ∧
      u.pc = Function.update s.pc p (.forking np) ∧ u.births = s.births + 1 ∧
      u.birth = Function.update s.birth np s.births ∧ u.initproc = s.initproc := by
  have same : ∀ q np, (s.pc q).child = some np → (s.pc q).child = some np := fun _ _ creates => creates
  have kept : ∀ i q, (s.proc i).parent = some q → (s.proc i).parent = some q := fun _ _ parent => parent
  cases step with
  | schedule p runnable =>
    exact .inl (.own inv rfl rfl rfl rfl same (by rw [runnable]; nofun) (by rw [runnable]; nofun) nofun
      (.inl trivial) (kept p))
  | yield p running =>
    exact .inl (.own inv rfl rfl rfl rfl same (by rw [running]; nofun) (by rw [running]; nofun) nofun
      (.inl trivial) (kept p))
  | sleep p address free =>
    exact .inl (.own inv rfl rfl rfl rfl (Procs.Quiet.creates_update nofun) (by rw [free.1]; nofun)
      (by rw [free.1]; nofun)
      nofun (.inl trivial) (kept p))
  | awake p running | waitAwake p running =>
    exact .inl (.own inv rfl rfl rfl rfl (Procs.Quiet.creates_update nofun) (by rw [running]; nofun)
      (by rw [running]; nofun) (fun zombie => nomatch running.symm.trans zombie)
      (.inl (running.symm ▸ trivial)) (kept p))
  | wakeup address => exact .inl (.woken inv rfl rfl rfl same (Ptable.woken_wakeup1 _ _) (Ptable.wakeup1_parent _ _))
  | kill pid may => exact .inl (.woken inv rfl rfl rfl same (Ptable.woken_kill _ _) (Ptable.kill_parent _ _))
  | allocproc p np free found =>
    obtain ⟨unused, rfl⟩ := Ptable.allocproc_eq_some found
    exact .inr ⟨p, np, unused, by rw [free.2]; rfl, rfl, rfl, rfl, rfl, rfl, rfl⟩
  | noStack p np running forking may =>
    exact .inl (.done inv rfl rfl rfl rfl (by rw [forking]; rfl) rfl nofun rfl)
  | kstack p np kstack running forking =>
    refine .inl (.working inv rfl rfl rfl rfl (Procs.Quiet.creates_update fun i creates => ?_)
      (by rw [forking]; rfl) rfl
      fun q new => .inl new)
    exact (congrArg ProcPc.child forking).trans creates
  | noMemory p np running forking may =>
    exact .inl (.done inv rfl rfl rfl (update_idem ..) (by rw [forking]; rfl) rfl nofun
      (Ptable.part_update Proc.parent (by rfl) np))
  | copied p np pgdir running forking =>
    have creates : (s.pc p).child = some np := by rw [forking]; rfl
    refine .inl (.working inv rfl rfl rfl (update_idem ..) (Procs.Quiet.creates_update fun i child => ?_) creates
      (Ptable.part_update Proc.state (by rfl) np) fun q new => .inr ?_)
    · exact (congrArg ProcPc.child forking).trans child
    · cases new
      rintro rfl
      have embryo := inv.embryo p p creates
      rw [running] at embryo
      cases embryo
  | forked p np running forked => exact .inl (.done inv rfl rfl rfl rfl (by rw [forked]; rfl) rfl nofun rfl)
  | exit p free other => exact .inl (.exit inv free other)
  | waitEnter | waitFails =>
    exact .inl (.woken inv rfl rfl rfl (Procs.Quiet.creates_update nofun) (fun _ => .same _) fun _ => rfl)
  | waited p child running waiting found =>
    have zombie := (Ptable.exitedChild_eq_some found).2
    refine .inl (.own inv rfl rfl rfl rfl (Procs.Quiet.creates_update nofun) (by rw [zombie]; nofun)
      (by rw [zombie]; nofun)
      nofun (.inr ?_) nofun)
    rintro rfl
    have active := inv.init
    rw [zombie] at active
    exact active
  | waitSleeps p running waiting none kids alive =>
    exact .inl (.own inv rfl rfl rfl rfl (Procs.Quiet.creates_update nofun) (by rw [running]; nofun)
      (by rw [running]; nofun) nofun (.inl trivial) (kept p))

namespace Procs.Inv

variable {s u : Procs} {event : Option ProcEvent}

theorem quiet (inv : s.Inv) (quiet : s.Quiet event u) : u.Inv where
  embryo p np creates := quiet.embryo p np creates (inv.embryo p np (quiet.child p np creates))
  one p q np left right := inv.one p q np (quiet.child p np left) (quiet.child q np right)
  born i used := by
    rw [quiet.births, quiet.birth]
    exact inv.born i (quiet.used i used)
  apart i j left right same := by
    rw [quiet.birth] at same
    exact inv.apart i j (quiet.used i left) (quiet.used j right) same
  init := quiet.initproc ▸ quiet.init
  orphan := by
    rw [quiet.initproc]
    cases parent : (u.proc s.initproc).parent with
    | none => rfl
    | some q =>
      rcases quiet.parent _ q parent with old | ⟨_, other⟩
      · rw [inv.orphan] at old
        cases old
      · exact absurd rfl other
  selfless i own := by
    rcases quiet.parent i i own with old | ⟨other, _⟩
    · exact inv.selfless i old
    · exact other rfl

theorem userinit (kstack pgdir : Nat) : (Procs.userinit kstack pgdir).Inv where
  embryo _ _ creates := nomatch creates
  one _ _ _ creates := nomatch creates
  born _ _ := Nat.zero_lt_one
  apart i j left right _ := by
    have first : ∀ k, ((Procs.userinit kstack pgdir).proc k).state ≠ .unused → k = 0 := by
      intro k used
      by_contra other
      simp [Procs.userinit, other] at used
    rw [first i left, first j right]
  init := trivial
  orphan := rfl
  selfless i := by
    simp only [Procs.userinit]
    split <;> nofun

theorem alloc (inv : s.Inv) {p np : Fin nproc} {e : Proc} (unused : (s.proc np).state = .unused)
    (proc : u.proc = Function.update s.proc np e) (embryo : e.state = .embryo)
    (parent : e.parent = (s.proc np).parent) (pc : u.pc = Function.update s.pc p (.forking np))
    (births : u.births = s.births + 1) (birth : u.birth = Function.update s.birth np s.births)
    (initproc : u.initproc = s.initproc) : u.Inv := by
  have creates : ∀ q i, (u.pc q).child = some i → (q = p ∧ i = np) ∨ (q ≠ p ∧ i ≠ np ∧ (s.pc q).child = some i) := by
    intro q i creates
    rw [pc] at creates
    by_cases here : q = p
    · rw [here, update_self] at creates
      exact .inl ⟨here, (Option.some.inj creates).symm⟩
    · rw [update_of_ne here] at creates
      refine .inr ⟨here, ?_, creates⟩
      rintro rfl
      have before := inv.embryo q i creates
      rw [unused] at before
      cases before
  have used : ∀ i, i ≠ np → (u.proc i).state ≠ .unused → (s.proc i).state ≠ .unused := by
    intro i other used
    rwa [proc, update_of_ne other] at used
  have init : s.initproc ≠ np := by
    rintro rfl
    have active := inv.init
    rw [unused] at active
    exact active
  have parents : ∀ i, (u.proc i).parent = (s.proc i).parent := fun i => by
    rw [proc]
    exact Ptable.part_update Proc.parent parent i
  refine ⟨fun q i child => ?_, fun q r i left right => ?_, fun i live => ?_, fun i j left right same => ?_, ?_, ?_,
    fun i => parents i ▸ inv.selfless i⟩
  · rcases creates q i child with ⟨_, rfl⟩ | ⟨_, other, before⟩
    · rw [proc, update_self, embryo]
    · rw [proc, update_of_ne other]
      exact inv.embryo q i before
  · rcases creates q i left with ⟨rfl, rfl⟩ | ⟨_, other, before⟩
    · rcases creates r i right with ⟨rfl, _⟩ | ⟨_, other, _⟩
      · rfl
      · exact absurd rfl other
    · rcases creates r i right with ⟨_, same⟩ | ⟨_, _, before'⟩
      · exact absurd same other
      · exact inv.one q r i before before'
  · rw [births, birth]
    by_cases here : i = np
    · rw [here, update_self]
      exact Nat.lt_succ_self _
    · rw [update_of_ne here]
      exact Nat.lt_succ_of_lt (inv.born i (used i here live))
  · rw [birth] at same
    by_cases first : i = np
    · by_cases second : j = np
      · rw [first, second]
      · rw [first, update_self, update_of_ne second] at same
        exact absurd same (Nat.ne_of_gt (inv.born j (used j second right)))
    · by_cases second : j = np
      · rw [second, update_self, update_of_ne first] at same
        exact absurd same (Nat.ne_of_lt (inv.born i (used i first left)))
      · rw [update_of_ne first, update_of_ne second] at same
        exact inv.apart i j (used i first left) (used j second right) same
  · rw [initproc, proc, update_of_ne init]
    exact inv.init
  · rw [initproc, parents, inv.orphan]

theorem step {mayKill : Procs → BitVec 32 → Prop} {mayFail : Procs → Fin nproc → Prop} (inv : s.Inv)
    (step : ProcStep mayKill mayFail s event u) : u.Inv := by
  rcases step.quiet inv with quiet | ⟨p, np, unused, _, _, proc, pc, births, birth, initproc⟩
  · exact inv.quiet quiet
  · exact inv.alloc unused proc rfl rfl pc births birth initproc

end Procs.Inv

end MiniOS
