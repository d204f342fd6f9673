import MiniOS.Proc.Births

namespace MiniOS

open Function

theorem ProcState.active_iff {state : ProcState} :
    state.Active ↔ state ≠ .unused ∧ state ≠ .embryo ∧ state ≠ .zombie := by
  cases state <;> simp [ProcState.Active]

/-- The two states are the same stage in the life of a process. -/
structure ProcState.SameStage (a b : ProcState) : Prop where
  unused : b = .unused ↔ a = .unused
  embryo : b = .embryo ↔ a = .embryo
  zombie : b = .zombie ↔ a = .zombie

namespace ProcState.SameStage

variable {a b : ProcState}

theorem refl (a : ProcState) : SameStage a a := ⟨Iff.rfl, Iff.rfl, Iff.rfl⟩

theorem of_active (before : a.Active) (after : b.Active) : SameStage a b := by
  rw [ProcState.active_iff] at before after
  exact ⟨iff_of_false after.1 before.1, iff_of_false after.2.1 before.2.1, iff_of_false after.2.2 before.2.2⟩

theorem of_woken (wakes : Ptable.Woken a b) : SameStage a b := ⟨wakes.unused_iff, wakes.embryo_iff, wakes.zombie_iff⟩

theorem active (same : SameStage a b) (active : a.Active) : b.Active := by
  rw [ProcState.active_iff] at active ⊢
  exact ⟨mt same.unused.1 active.1, mt same.embryo.1 active.2.1, mt same.zombie.1 active.2.2⟩

end ProcState.SameStage

namespace Procs

/-- A process in a kernel function is alive. An entry gets its parent from the process that
creates it, and from then on has one that is alive; an unused one has none. -/
structure Family (s : Procs) : Prop where
  busy : ∀ p, s.pc p ≠ .elsewhere → (s.proc p).state.Active
  unused : ∀ i, (s.proc i).state = .unused → (s.proc i).parent = none
  embryo : ∀ i q, (s.proc i).state = .embryo → (s.proc i).parent = some q → s.pc q = .forked i
  forked : ∀ p np, s.pc p = .forked np → (s.proc np).parent = some p
  parent : ∀ i, (s.proc i).state ≠ .unused → (s.proc i).state ≠ .embryo → i ≠ s.initproc →
    ∃ q, (s.proc i).parent = some q ∧ (s.proc q).state.Active

namespace Family

variable {s u : Procs} {p np : Fin nproc} {pc : ProcPc} {e : Proc}

theorem userinit (kstack pgdir : Nat) : (Procs.userinit kstack pgdir).Family where
  busy _ busy := absurd rfl busy
  unused i _ := by
    simp only [Procs.userinit]
    split <;> rfl
  embryo i _ embryo := by
    simp only [Procs.userinit] at embryo
    split at embryo <;> cases embryo
  forked _ _ forked := nomatch forked
  parent i used _ other := by
    have other : i ≠ 0 := other
    simp [Procs.userinit, other] at used

/-- No process gets to another stage of its life or has another parent. -/
theorem keep (family : s.Family) (stage : ∀ i, ProcState.SameStage (s.proc i).state (u.proc i).state)
    (parent : ∀ i, (u.proc i).parent = (s.proc i).parent) (initproc : u.initproc = s.initproc)
    (forked : ∀ q i, u.pc q = .forked i ↔ s.pc q = .forked i)
    (busy : ∀ q, u.pc q ≠ .elsewhere → (s.proc q).state.Active) : u.Family where
  busy q away := (stage q).active (busy q away)
  unused i unused := (parent i).trans (family.unused i ((stage i).unused.1 unused))
  embryo i q embryo child :=
    (forked q i).2 (family.embryo i q ((stage i).embryo.1 embryo) ((parent i).symm.trans child))
  forked q i creates := (parent i).trans (family.forked q i ((forked q i).1 creates))
  parent i used grown other := by
    rw [initproc] at other
    obtain ⟨q, child, active⟩ := family.parent i (mt (stage i).unused.2 used) (mt (stage i).embryo.2 grown) other
    exact ⟨q, (parent i).trans child, (stage q).active active⟩

theorem forked_update {old : ProcPc} (at_pc : s.pc p = old) (before : ∀ i, old ≠ .forked i)
    (after : ∀ i, pc ≠ .forked i) (q i : Fin nproc) : update s.pc p pc q = .forked i ↔ s.pc q = .forked i := by
  by_cases here : q = p
  · subst here
    rw [update_self, at_pc]
    exact iff_of_false (after i) (before i)
  · rw [update_of_ne here]

theorem busy_update (family : s.Family) (alive : (s.proc p).state.Active) (q : Fin nproc)
    (away : update s.pc p pc q ≠ .elsewhere) : (s.proc q).state.Active := by
  by_cases here : q = p
  · rwa [here]
  · rw [update_of_ne here] at away
    exact family.busy q away

/-- One entry changes. What is to be shown is about that entry. -/
theorem change (family : s.Family) {k : Fin nproc} (proc : u.proc = update s.proc k e)
    (initproc : u.initproc = s.initproc) (busy : ∀ q, u.pc q ≠ .elsewhere → (s.proc q).state.Active)
    (stays : (s.proc k).state.Active → e.state.Active)
    (others : ∀ q i, i ≠ k → (u.pc q = .forked i ↔ s.pc q = .forked i))
    (unused : e.state = .unused → e.parent = none)
    (embryo : ∀ q, e.state = .embryo → e.parent = some q → u.pc q = .forked k)
    (forked : ∀ q, u.pc q = .forked k → e.parent = some q)
    (parent : e.state ≠ .unused → e.state ≠ .embryo → k ≠ s.initproc →
      ∃ q, e.parent = some q ∧ (s.proc q).state.Active) : u.Family := by
  have active : ∀ q, (s.proc q).state.Active → (u.proc q).state.Active := by
    intro q before
    rw [proc]
    by_cases here : q = k
    · rw [here, update_self]
      exact stays (here ▸ before)
    · rwa [update_of_ne here]
  refine ⟨fun q away => active q (busy q away), fun i free => ?_, fun i q fresh child => ?_, fun q i creates => ?_,
    fun i used grown init => ?_⟩
  · rw [proc] at free ⊢
    by_cases here : i = k
    · rw [here, update_self] at free ⊢
      exact unused free
    · rw [update_of_ne here] at free ⊢
      exact family.unused i free
  · rw [proc] at fresh child
    by_cases here : i = k
    · rw [here, update_self] at fresh child
      exact here ▸ embryo q fresh child
    · rw [update_of_ne here] at fresh child
      exact (others q i here).2 (family.embryo i q fresh child)
  · rw [proc]
    by_cases here : i = k
    · rw [here, update_self]
      exact forked q (here ▸ creates)
    · rw [update_of_ne here]
      exact family.forked q i ((others q i here).1 creates)
  · have found : ∃ q, (u.proc i).parent = some q ∧ (s.proc q).state.Active := by
      rw [initproc] at init
      rw [proc] at used grown ⊢
      by_cases here : i = k
      · rw [here, update_self] at used grown ⊢
        exact parent used grown (here ▸ init)
      · rw [update_of_ne here] at used grown ⊢
        exact family.parent i used grown init
    obtain ⟨q, child, before⟩ := found
    exact ⟨q, child, active q before⟩

/-- A process that is alive and not being created changes in its own entry something other
than its parent, or has it changed. -/
theorem own (inv : s.Inv) (family : s.Family) (proc : u.proc = update s.proc p e)
    (initproc : u.initproc = s.initproc) (busy : ∀ q, u.pc q ≠ .elsewhere → (s.proc q).state.Active)
    (forked : ∀ q i, u.pc q = .forked i ↔ s.pc q = .forked i) (alive : (s.proc p).state.Active)
    (active : e.state.Active) (parent : e.parent = (s.proc p).parent) : u.Family := by
  obtain ⟨used, grown, _⟩ := ProcState.active_iff.1 active
  refine family.change proc initproc busy (fun _ => active) (fun q i _ => forked q i) (absurd · used)
    (fun _ embryo => absurd embryo grown) (fun q creates => ?_) fun _ _ other => ?_
  · have embryo := inv.embryo q p (by rw [(forked q p).1 creates]; rfl)
    exact absurd embryo (ProcState.active_iff.1 alive).2.1
  · rw [parent]
    exact family.parent p (ProcState.active_iff.1 alive).1 (ProcState.active_iff.1 alive).2.1 other

/-- The process that creates `np` has given it no parent yet. -/
theorem no_parent (inv : s.Inv) (family : s.Family) (creates : (s.pc p).child = some np)
    (early : s.pc p ≠ .forked np) : (s.proc np).parent = none := by
  cases child : (s.proc np).parent with
  | none => rfl
  | some q =>
    have forked := family.embryo np q (inv.embryo p np creates) child
    have same : q = p := inv.one q p np (by rw [forked]; rfl) creates
    exact absurd (same ▸ forked) early

theorem alive (family : s.Family) (creates : (s.pc p).child = some np) : (s.proc p).state.Active :=
  family.busy p fun away => by
    rw [away] at creates
    cases creates

/-- An entry without a parent is taken or given back. -/
theorem orphan (family : s.Family) {k : Fin nproc} (proc : u.proc = update s.proc k e) (pcs : u.pc = update s.pc p pc)
    (initproc : u.initproc = s.initproc) (alive : (s.proc p).state.Active) (before : ∀ i, s.pc p ≠ .forked i)
    (after : ∀ i, pc ≠ .forked i) (idle : ¬(s.proc k).state.Active) (nobody : ∀ q, s.pc q ≠ .forked k)
    (early : e.state = .unused ∨ e.state = .embryo) (orphan : e.parent = none) : u.Family := by
  have forked : ∀ q i, u.pc q = .forked i ↔ s.pc q = .forked i := by
    rw [pcs]
    exact forked_update rfl before after
  refine family.change proc initproc ?_ (absurd · idle) (fun q i _ => forked q i) (fun _ => orphan)
    (fun q _ child => ?_) (fun q creates => absurd ((forked q k).1 creates) (nobody q))
    fun used grown => (early.elim used grown).elim
  · rw [pcs]
    exact family.busy_update alive
  · rw [orphan] at child
    cases child

/-- The process that creates `np` gives it up before it has a parent. -/
theorem giveUp (inv : s.Inv) (family : s.Family) (proc : u.proc = update s.proc np e)
    (pcs : u.pc = update s.pc p .elsewhere) (initproc : u.initproc = s.initproc)
    (creates : (s.pc p).child = some np) (early : ∀ i, s.pc p ≠ .forked i) (unused : e.state = .unused)
    (parent : e.parent = (s.proc np).parent) : u.Family := by
  refine family.orphan proc pcs initproc (family.alive creates) early (fun _ => nofun) ?_
    (fun q later => ?_) (.inl unused)
    (parent.trans (no_parent inv family creates (early np)))
  · rw [inv.embryo p np creates]
    exact id
  · have same : q = p := inv.one q p np (by rw [later]; rfl) creates
    exact early np (same ▸ later)

/-- `fork` sets the parent of the new process. -/
theorem copied (inv : s.Inv) (family : s.Family) (proc : u.proc = update s.proc np e)
    (pc : u.pc = update s.pc p (.forked np)) (initproc : u.initproc = s.initproc)
    (stacked : s.pc p = .stacked np) (embryo : e.state = .embryo) (parent : e.parent = some p) : u.Family := by
  have creates : (s.pc p).child = some np := by rw [stacked]; rfl
  have self : u.pc p = .forked np := by rw [pc, update_self]
  refine family.change proc initproc ?_ (fun active => ?_) (fun q i other => ?_) (fun unused => ?_)
    (fun q _ child => ?_) (fun q forked => ?_) fun _ grown => absurd embryo grown
  · rw [pc]
    exact family.busy_update (family.alive creates)
  · rw [inv.embryo p np creates] at active
    exact active.elim
  · by_cases here : q = p
    · rw [here, self, stacked]
      exact iff_of_false (fun same => other (ProcPc.forked.inj same).symm) nofun
    · rw [pc, update_of_ne here]
  · rw [embryo] at unused
    cases unused
  · cases parent.symm.trans child
    exact self
  · by_cases here : q = p
    · rw [here, parent]
    · rw [pc, update_of_ne here] at forked
      exact absurd (inv.one q p np (by rw [forked]; rfl) creates) here

/-- `fork` makes the new process runnable. -/
theorem start (inv : s.Inv) (family : s.Family) (proc : u.proc = update s.proc np e)
    (pc : u.pc = update s.pc p .elsewhere) (initproc : u.initproc = s.initproc) (last : s.pc p = .forked np)
    (active : e.state.Active) (parent : e.parent = (s.proc np).parent) : u.Family := by
  have creates : (s.pc p).child = some np := by rw [last]; rfl
  obtain ⟨used, grown, _⟩ := ProcState.active_iff.1 active
  refine family.change proc initproc ?_ (fun _ => active) (fun q i other => ?_) (absurd · used)
    (fun _ embryo => absurd embryo grown) (fun q forked => ?_) fun _ _ _ => ?_
  · rw [pc]
    exact family.busy_update (family.alive creates)
  · by_cases here : q = p
    · rw [here, pc, update_self, last]
      exact iff_of_false nofun fun same => other (ProcPc.forked.inj same).symm
    · rw [pc, update_of_ne here]
  · by_cases here : q = p
    · rw [here, pc, update_self] at forked
      cases forked
    · rw [pc, update_of_ne here] at forked
      exact absurd (inv.one q p np (by rw [forked]; rfl) creates) here
  · exact ⟨p, parent.trans (family.forked p np last), family.alive creates⟩

/-- `exit` passes the children of the process to init, which never exits. -/
theorem exit (inv : s.Inv) (family : s.Family) (free : s.Free p) (other : p ≠ s.initproc) :
    (s.withProc (s.proc.exit p s.initproc)).Family := by
  have exits := s.proc.exits_exit p s.initproc
  have stage : ∀ i, i ≠ p → ProcState.SameStage (s.proc i).state (s.proc.exit p s.initproc i).state :=
    fun i away => .of_woken (exits.state i away)
  have gone : ∀ {i state}, (s.proc.exit p s.initproc i).state = state → state ≠ .zombie → i ≠ p := by
    rintro i state found living rfl
    exact living (found.symm.trans exits.self)
  have elsewhere : ∀ {q i}, s.pc q = .forked i → q ≠ p := by
    rintro q i forked rfl
    rw [free.2] at forked
    cases forked
  refine ⟨fun q away => ?_, fun i unused => ?_, fun i q embryo child => ?_, fun q i forked => ?_,
    fun i used grown init => ?_⟩
  · have here : q ≠ p := by
      rintro rfl
      exact away free.2
    exact (stage q here).active (family.busy q away)
  · have here := gone unused nofun
    have orphan := family.unused i ((stage i here).unused.1 unused)
    show (s.proc.exit p s.initproc i).parent = none
    rw [exits.parent, orphan, if_neg nofun]
  · have here := gone embryo nofun
    have child : (s.proc.exit p s.initproc i).parent = some q := child
    have embryo := (stage i here).embryo.1 embryo
    rw [exits.parent] at child
    split at child
    · rename_i mine
      exact absurd rfl (elsewhere (family.embryo i p embryo mine))
    · exact family.embryo i q embryo child
  · have child := family.forked q i forked
    show (s.proc.exit p s.initproc i).parent = some q
    rw [exits.parent, child, if_neg fun same => elsewhere forked (Option.some.inj same)]
  · have old : ∃ q, (s.proc i).parent = some q ∧ (s.proc q).state.Active := by
      by_cases here : i = p
      · refine family.parent i ?_ ?_ init <;> rw [here, free.1] <;> nofun
      · exact family.parent i (mt (stage i here).unused.2 used) (mt (stage i here).embryo.2 grown) init
    obtain ⟨q, child, active⟩ := old
    by_cases mine : q = p
    · refine ⟨s.initproc, ?_, (stage _ (Ne.symm other)).active inv.init⟩
      show (s.proc.exit p s.initproc i).parent = _
      rw [exits.parent, child, mine, if_pos rfl]
    · refine ⟨q, ?_, (stage q mine).active active⟩
      show (s.proc.exit p s.initproc i).parent = _
      rw [exits.parent, child, if_neg fun same => mine (Option.some.inj same)]

theorem step {mayKill : Procs → BitVec 32 → Prop} {mayFail : Procs → Fin nproc → Prop} {event : Option ProcEvent}
    (inv : s.Inv) (family : s.Family) (step : ProcStep mayKill mayFail s event u) : u.Family := by
  have same : ∀ q i, s.pc q = .forked i ↔ s.pc q = .forked i := fun _ _ => Iff.rfl
  cases step with
  | schedule p runnable =>
    exact own inv family rfl rfl family.busy same (by rw [runnable]; trivial) trivial rfl
  | yield p running => exact own inv family rfl rfl family.busy same (by rw [running]; trivial) trivial rfl
  | sleep p address free =>
    have alive : (s.proc p).state.Active := by rw [free.1]; trivial
    exact own inv family rfl rfl (family.busy_update alive)
      (forked_update free.2 (fun _ => nofun) fun _ => nofun) alive trivial rfl
  | awake p running asleep | waitAwake p running asleep =>
    have alive : (s.proc p).state.Active := by rw [running]; trivial
    exact own inv family rfl rfl (family.busy_update alive)
      (forked_update asleep (fun _ => nofun) fun _ => nofun) alive alive rfl
  | wakeup address =>
    exact family.keep (fun i => .of_woken (Ptable.woken_wakeup1 ..)) (Ptable.wakeup1_parent _ _) rfl same family.busy
  | kill pid may =>
    exact family.keep (fun i => .of_woken (Ptable.woken_kill ..)) (Ptable.kill_parent _ _) rfl same family.busy
  | allocproc p np free found =>
    obtain ⟨unused, rfl⟩ := Ptable.allocproc_eq_some found
    refine family.orphan rfl rfl rfl (by rw [free.1]; trivial) (fun _ => by rw [free.2]; nofun) (fun _ => nofun)
      (by rw [unused]; exact id) (fun q creates => ?_) (.inr rfl) (family.unused np unused)
    cases (family.unused np unused).symm.trans (family.forked q np creates)
  | noStack p np running forking may =>
    exact giveUp inv family rfl rfl rfl (by rw [forking]; rfl) (fun _ => by rw [forking]; nofun) rfl rfl
  | kstack p np kstack running forking =>
    have alive : (s.proc p).state.Active := by rw [running]; trivial
    refine family.keep (fun i => ?_) (Ptable.part_update Proc.parent (by rfl)) rfl
      (forked_update forking (fun _ => nofun) fun _ => nofun) (family.busy_update alive)
    have state : (s.proc.setStack np kstack i).state = (s.proc i).state := Ptable.part_update Proc.state (by rfl) i
    show ProcState.SameStage _ (s.proc.setStack np kstack i).state
    rw [state]
    exact .refl _
  | noMemory p np running stacked may =>
    exact giveUp inv family (update_idem ..) rfl rfl (by rw [stacked]; rfl) (fun _ => by rw [stacked]; nofun) rfl
      (Ptable.part_update Proc.parent (by rfl) np)
  | copied p np pgdir running stacked =>
    have embryo := inv.embryo p np (by rw [stacked]; rfl)
    exact copied inv family (update_idem ..) rfl rfl stacked
      ((Ptable.part_update Proc.state (by rfl) np).trans embryo) rfl
  | forked p np running last => exact start inv family rfl rfl rfl last trivial rfl
  | exit p free other => exact exit inv family free other
  | waitEnter p free =>
    exact family.keep (fun _ => .refl _) (fun _ => rfl) rfl
      (forked_update free.2 (fun _ => nofun) fun _ => nofun) (family.busy_update (by rw [free.1]; trivial))
  | waited p child running waiting found =>
    obtain ⟨_, zombie⟩ := Ptable.exitedChild_eq_some found
    refine family.orphan rfl rfl rfl (by rw [running]; trivial) (fun _ => by rw [waiting]; nofun) (fun _ => nofun)
      (by rw [zombie]; exact id) (fun q creates => ?_) (.inl rfl) rfl
    cases zombie.symm.trans (inv.embryo q child (by rw [creates]; rfl))
  | waitFails p running waiting none alone =>
    exact family.keep (fun _ => .refl _) (fun _ => rfl) rfl
      (forked_update waiting (fun _ => nofun) fun _ => nofun) (family.busy_update (by rw [running]; trivial))
  | waitSleeps p running waiting none kids alive =>
    have alive : (s.proc p).state.Active := by rw [running]; trivial
    exact own inv family rfl rfl (family.busy_update alive)
      (forked_update waiting (fun _ => nofun) fun _ => nofun) alive trivial rfl

end Family

end Procs

end MiniOS
