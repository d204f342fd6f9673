import MiniOS.Proc.Family
import MiniOS.Proc.Pages

namespace MiniOS

open Function

namespace Ptable

/-- A part of the entries that depends neither on the state nor on the parent survives wakeups
and `exit`. -/
structure Fixed {α : Type} (part : Proc → α) : Prop where
  state : ∀ e state, part { e with state := state } = part e
  parent : ∀ e parent, part { e with parent := parent } = part e

variable {α : Type} {part : Proc → α}

theorem Fixed.wakeup1 (fixed : Fixed part) (t : Ptable) (chan : Option Chan) (i : Fin nproc) :
    part (t.wakeup1 chan i) = part (t i) := by
  unfold Ptable.wakeup1
  split
  · exact fixed.state _ _
  · rfl

theorem Fixed.abandon (fixed : Fixed part) (t : Ptable) (curproc initproc p i : Fin nproc) :
    part (t.abandon curproc initproc p i) = part (t i) := by
  have adopted := part_update (t := t) part (fixed.parent (t p) (some initproc)) i
  unfold Ptable.abandon
  split
  · dsimp only
    split
    · rw [fixed.wakeup1, adopted]
    · exact adopted
  · rfl

theorem Fixed.exit (fixed : Fixed part) (t : Ptable) (curproc initproc i : Fin nproc) :
    part (t.exit curproc initproc i) = part (t i) := by
  have loop : ∀ (rest : List (Fin nproc)) (u : Ptable),
      part (rest.foldl (fun u p => u.abandon curproc initproc p) u i) = part (u i) := by
    intro rest
    induction rest with
    | nil => exact fun _ => rfl
    | cons p rest ih => exact fun u => (ih _).trans (fixed.abandon u curproc initproc p i)
  have last := part_update (t := (t.wakeup1 ((t curproc).parent.map .proc)).abandonAll curproc initproc)
    (p := curproc)
    part (fixed.state _ .zombie) i
  exact last.trans ((loop _ _).trans (fixed.wakeup1 t _ i))

/-- The two pages that an entry points to. -/
def pages (e : Proc) : Nat × Nat := (e.kstack, e.pgdir)

theorem fixed_pages : Fixed pages := ⟨fun _ _ => rfl, fun _ _ => rfl⟩

theorem kill_pages (t : Ptable) (pid : BitVec 32) (i : Fin nproc) : pages ((t.kill pid).1 i) = pages (t i) := by
  rcases t.kill_cases pid with missed | ⟨k, _, hit⟩
  · rw [missed]
  · rw [hit]
    exact part_update pages (by rfl) i

theorem giveBack_state (t : Ptable) (np : Fin nproc) : (t.giveBack np np).state = .unused := by
  rw [giveBack, update_self]

theorem reap_state (t : Ptable) (p : Fin nproc) : (t.reap p p).state = .unused := by
  rw [reap, update_self]

end Ptable

namespace Procs

variable {s t : Procs} {p np : Fin nproc} {i k : Fin nproc} {e : Proc} {pc : ProcPc} {page : Nat}

theorem Settled.iff_of_stage (stage : ProcState.SameStage (s.proc i).state (t.proc i).state) :
    t.Settled i ↔ s.Settled i := and_congr (not_congr stage.unused) (not_congr stage.embryo)

/-- What a step may do that gives no page a use. -/
theorem holds_of_rest (inv : t.Inv) (x : PageUse) (page : Nat)
    (settled : ∀ i, t.Settled i → s.Settled i ∨ ∃ p, s.pc p = .forked i)
    (stacked : ∀ p i, t.pc p = .stacked i → s.pc p = .stacked i)
    (forked : ∀ p i, t.pc p = .forked i → s.pc p = .forked i)
    (same : ∀ i, Ptable.pages (t.proc i) = Ptable.pages (s.proc i) ∨ (t.proc i).state = .unused)
    (held : t.Holds x page) : s.Holds x page := by
  have used : ∀ i, (t.Settled i ∨ ∃ p, t.pc p = .stacked i ∨ t.pc p = .forked i) →
      Ptable.pages (t.proc i) = Ptable.pages (s.proc i) := by
    intro i use
    refine (same i).resolve_right fun unused => ?_
    rcases use with settled | ⟨p, stacked | forked⟩
    · exact settled.1 unused
    · exact nomatch unused.symm.trans (inv.embryo p i (by rw [stacked]; rfl))
    · exact nomatch unused.symm.trans (inv.embryo p i (by rw [forked]; rfl))
  cases x with
  | stack i =>
    obtain ⟨use, found⟩ := held
    refine ⟨?_, (congrArg Prod.fst (used i use)).symm.trans found⟩
    rcases use with now | ⟨p, now | now⟩
    · exact (settled i now).imp_right fun ⟨p, before⟩ => ⟨p, .inr before⟩
    · exact .inr ⟨p, .inl (stacked p i now)⟩
    · exact .inr ⟨p, .inr (forked p i now)⟩
  | dir i =>
    obtain ⟨use, found⟩ := held
    refine ⟨?_, (congrArg Prod.snd (used i (use.imp_right fun ⟨p, now⟩ => ⟨p, .inr now⟩))).symm.trans found⟩
    rcases use with now | ⟨p, now⟩
    · exact settled i now
    · exact .inr ⟨p, forked p i now⟩

theorem pc_goto (s : Procs) (p : Fin nproc) (pc : ProcPc) : (s.goto p pc).pc p = pc := update_self ..

theorem stage_update (alive : (s.proc p).state.Active) (active : e.state.Active) (i : Fin nproc) :
    ProcState.SameStage (s.proc i).state (update s.proc p e i).state := by
  by_cases here : i = p
  · rw [here, update_self]
    exact .of_active alive active
  · rw [update_of_ne here]
    exact .refl _

/-- An entry that becomes no process of its own. -/
theorem settled_of_update (new : e.state ≠ .unused ∧ e.state ≠ .embryo → s.Settled np)
    (now : (update s.proc np e i).state ≠ .unused ∧ (update s.proc np e i).state ≠ .embryo) :
    s.Settled i := by
  by_cases here : i = np
  · rw [here, update_self] at now
    exact here ▸ new now
  · rwa [update_of_ne here] at now

theorem forked_of_update (after : ∀ i, pc ≠ .forked i) (q i : Fin nproc)
    (forked : update s.pc p pc q = .forked i) : s.pc q = .forked i := by
  by_cases here : q = p
  · rw [here, update_self] at forked
    exact absurd forked (after i)
  · rwa [update_of_ne here] at forked

theorem stacked_of_update (after : ∀ i, pc ≠ .stacked i) (q i : Fin nproc)
    (stacked : update s.pc p pc q = .stacked i) : s.pc q = .stacked i := by
  by_cases here : q = p
  · rw [here, update_self] at stacked
    exact absurd stacked (after i)
  · rwa [update_of_ne here] at stacked

/-- No step of `rest` gives a page a use. -/
theorem holds_rest {event : Option ProcEvent} (inv : s.Inv)
    (step : ProcStep (fun _ _ => True) (fun _ _ => True) s event t)
    (stacked : ∀ p np, t.pc p = .stacked np ↔ s.pc p = .stacked np)
    (nobody : ∀ p child birth pid, event ≠ some (.waited p child birth pid)) (x : PageUse) (page : Nat)
    (held : t.Holds x page) : s.Holds x page := by
  have rest := holds_of_rest (s := s) (inv.step step) x page
  have calm := fun (stage : ∀ i, ProcState.SameStage (s.proc i).state (t.proc i).state)
      (forked : ∀ p i, t.pc p = .forked i → s.pc p = .forked i)
      (same : ∀ i, Ptable.pages (t.proc i) = Ptable.pages (s.proc i)) =>
    rest (fun i now => .inl ((Settled.iff_of_stage (stage i)).1 now)) (fun p i => (stacked p i).1) forked
      (fun i => .inl (same i)) held
  have still : ∀ p i, s.pc p = .forked i → s.pc p = .forked i := fun _ _ forked => forked
  cases step with
  | schedule p runnable =>
    exact calm (stage_update (by rw [runnable]; trivial) trivial) still (Ptable.part_update Ptable.pages (by rfl))
  | yield p running =>
    exact calm (stage_update (by rw [running]; trivial) trivial) still (Ptable.part_update Ptable.pages (by rfl))
  | sleep p address free =>
    exact calm (stage_update (by rw [free.1]; trivial) trivial) (forked_of_update nofun)
      (Ptable.part_update Ptable.pages (by rfl))
  | awake p running | waitAwake p running =>
    have alive : (s.proc p).state.Active := by rw [running]; trivial
    exact calm (stage_update alive alive) (forked_of_update nofun) (Ptable.part_update Ptable.pages (by rfl))
  | wakeup address =>
    exact calm (fun i => .of_woken (Ptable.woken_wakeup1 ..)) still (Ptable.fixed_pages.wakeup1 _ _)
  | kill pid may => exact calm (fun i => .of_woken (Ptable.woken_kill ..)) still (Ptable.kill_pages _ _)
  | allocproc p np free found =>
    obtain ⟨unused, rfl⟩ := Ptable.allocproc_eq_some found
    refine rest (fun i now => ?_) (fun p i => (stacked p i).1) (forked_of_update nofun)
      (fun i => .inl (Ptable.part_update Ptable.pages (by rfl) i)) held
    exact .inl (settled_of_update (fun grown => absurd rfl grown.2) now)
  | noStack p np running forking may =>
    refine rest (fun i now => ?_) (fun p i => (stacked p i).1) (forked_of_update nofun) (fun i => ?_) held
    · exact .inl (settled_of_update (fun used => absurd rfl used.1) now)
    · by_cases here : i = np
      · exact .inr (here ▸ Ptable.giveBack_state ..)
      · exact .inl (congrArg Ptable.pages (update_of_ne here _ s.proc))
  | kstack p np kstack running forking =>
    have now := (stacked p np).1 (update_self ..)
    rw [forking] at now
    cases now
  | noMemory p np running at_pc may =>
    exact nomatch (pc_goto _ p .elsewhere).symm.trans ((stacked p np).2 at_pc)
  | copied p np pgdir running at_pc =>
    exact nomatch (pc_goto _ p (.forked np)).symm.trans ((stacked p np).2 at_pc)
  | forked p np running last =>
    refine rest (fun i now => ?_) (fun p i => (stacked p i).1) (forked_of_update nofun)
      (fun i => .inl (Ptable.part_update Ptable.pages (by rfl) i)) held
    by_cases here : i = np
    · exact .inr ⟨p, here ▸ last⟩
    · have now : (s.proc.setState np .runnable i).state ≠ .unused ∧
        (s.proc.setState np .runnable i).state ≠ .embryo := now
      rw [Ptable.setState_of_ne here] at now
      exact .inl now
  | exit p free other =>
    have exits := s.proc.exits_exit p s.initproc
    refine rest (fun i now => .inl ?_) (fun p i => (stacked p i).1) still
      (fun i => .inl (Ptable.fixed_pages.exit ..)) held
    by_cases here : i = p
    · rw [here, Settled, free.1]
      exact ⟨nofun, nofun⟩
    · exact (Settled.iff_of_stage (.of_woken (exits.state i here))).1 now
  | waitEnter | waitFails =>
    exact calm (fun _ => .refl _) (forked_of_update nofun) fun _ => rfl
  | waited p child running waiting found => exact absurd rfl (nobody p child _ _)
  | waitSleeps p running waiting none kids alive =>
    exact calm (stage_update (by rw [running]; trivial) trivial) (forked_of_update nofun)
      (Ptable.part_update Ptable.pages (by rfl))

/-- A step that changes the entry `k` gives no other entry a page. -/
theorem holds_change (proc : t.proc = update s.proc k e)
    (stacked : ∀ q i, i ≠ k → t.pc q = .stacked i → s.pc q = .stacked i)
    (forked : ∀ q i, i ≠ k → t.pc q = .forked i → s.pc q = .forked i) {x : PageUse} {b : Nat} (held : t.Holds x b) :
    s.Holds x b ∨ x = .stack k ∨ x = .dir k := by
  have entry : ∀ i, i ≠ k → t.proc i = s.proc i := fun i here => by rw [proc, update_of_ne here]
  cases x with
  | stack i =>
    by_cases here : i = k
    · exact .inr (.inl (by rw [here]))
    · obtain ⟨use, found⟩ := held
      rw [Settled, entry i here] at use
      rw [entry i here] at found
      refine .inl ⟨use.imp_right fun ⟨q, now⟩ => ⟨q, ?_⟩, found⟩
      exact now.imp (stacked q i here) (forked q i here)
  | dir i =>
    by_cases here : i = k
    · exact .inr (.inr (by rw [here]))
    · obtain ⟨use, found⟩ := held
      rw [Settled, entry i here] at use
      rw [entry i here] at found
      exact .inl ⟨use.imp_right fun ⟨q, now⟩ => ⟨q, forked q i here now⟩, found⟩

/-- An unused entry has no page. -/
theorem not_holds_unused (inv : s.Inv) (unused : (s.proc k).state = .unused) (b : Nat) :
    ¬s.Holds (.stack k) b ∧ ¬s.Holds (.dir k) b := by
  have nobody : ∀ q, (s.pc q).child ≠ some k := fun q creates => nomatch unused.symm.trans (inv.embryo q k creates)
  refine ⟨fun held => ?_, fun held => ?_⟩
  · rcases held.1 with settled | ⟨q, stacked | forked⟩
    · exact settled.1 unused
    · exact nobody q (by rw [stacked]; rfl)
    · exact nobody q (by rw [forked]; rfl)
  · rcases held.1 with settled | ⟨q, forked⟩
    · exact settled.1 unused
    · exact nobody q (by rw [forked]; rfl)

/-- A step that releases the entry `k` gives no page a use. -/
theorem holds_release (inv : t.Inv) (proc : t.proc = update s.proc k e)
    (pc : t.pc = update s.pc p .elsewhere) (unused : e.state = .unused) (x : PageUse) (b : Nat)
    (held : t.Holds x b) : s.Holds x b := by
  have none_left := not_holds_unused inv (k := k) (by rw [proc, update_self]; exact unused) b
  have stacked : ∀ q i, i ≠ k → t.pc q = .stacked i → s.pc q = .stacked i := fun q i _ => by
    rw [pc]
    exact stacked_of_update (show ∀ i, ProcPc.elsewhere ≠ .stacked i from nofun) q i
  have forked : ∀ q i, i ≠ k → t.pc q = .forked i → s.pc q = .forked i := fun q i _ => by
    rw [pc]
    exact forked_of_update (show ∀ i, ProcPc.elsewhere ≠ .forked i from nofun) q i
  rcases holds_change proc stacked forked held with old | rfl | rfl
  · exact old
  · exact absurd held none_left.1
  · exact absurd held none_left.2

/-- `fork` has a stack for the new process. -/
theorem holds_kstack (inv : s.Inv) (forking : s.pc p = .forking np) (x : PageUse) (b : Nat)
    (held : ((s.withProc (s.proc.setStack np page)).goto p (.stacked np)).Holds x b) :
    s.Holds x b ∨ x = .stack np ∧ b = page := by
  have creates : (s.pc p).child = some np := by rw [forking]; rfl
  have forked := forked_of_update (s := s) (p := p) (show ∀ i, ProcPc.stacked np ≠ .forked i from nofun)
  have stacked : ∀ q i, i ≠ np → update s.pc p (.stacked np) q = .stacked i → s.pc q = .stacked i := by
    intro q i other now
    by_cases here : q = p
    · rw [here, update_self] at now
      exact absurd (ProcPc.stacked.inj now).symm other
    · rwa [update_of_ne here] at now
  rcases holds_change rfl stacked (fun q i _ => forked q i) held with old | rfl | rfl
  · exact .inl old
  · refine .inr ⟨rfl, held.2.symm.trans ?_⟩
    show (update s.proc np _ np).kstack = page
    rw [update_self]
  · exfalso
    rcases held.1 with settled | ⟨q, now⟩
    · have same : (s.proc.setStack np page np).state = (s.proc np).state := Ptable.part_update Proc.state (by rfl) np
      exact settled.2 (same.trans (inv.embryo p np creates))
    · have before := forked q np now
      have same : q = p := inv.one q p np (by rw [before]; rfl) creates
      rw [same, forking] at before
      cases before

/-- `fork` has a page directory for the new process. -/
theorem holds_copied (stacked : s.pc p = .stacked np) (x : PageUse) (b : Nat)
    (held : ((s.withProc ((s.proc.setDir np page).setParent np p)).goto p (.forked np)).Holds x b) :
    s.Holds x b ∨ x = .dir np ∧ b = page := by
  have proc : (s.proc.setDir np page).setParent np p = update s.proc np
      { s.proc.setDir np page np with parent := some p } := update_idem ..
  have still := stacked_of_update (s := s) (p := p) (show ∀ i, ProcPc.forked np ≠ .stacked i from nofun)
  have forked : ∀ q i, i ≠ np → update s.pc p (.forked np) q = .forked i → s.pc q = .forked i := by
    intro q i other now
    by_cases here : q = p
    · rw [here, update_self] at now
      exact absurd (ProcPc.forked.inj now).symm other
    · rwa [update_of_ne here] at now
  rcases holds_change proc (fun q i _ => still q i) forked held with old | rfl | rfl
  · exact .inl old
  · refine .inl ⟨.inr ⟨p, .inl stacked⟩, Eq.trans ?_ held.2⟩
    show _ = ((s.proc.setDir np page).setParent np p np).kstack
    rw [proc, update_self]
    exact (Ptable.part_update Proc.kstack (by rfl) np).symm
  · refine .inr ⟨rfl, held.2.symm.trans ?_⟩
    show ((s.proc.setDir np page).setParent np p np).pgdir = page
    rw [proc, update_self]
    show (update s.proc np _ np).pgdir = page
    rw [update_self]

end Procs

end MiniOS
