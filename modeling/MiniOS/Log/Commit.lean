import MiniOS.Lib.Run
import MiniOS.Log.Bracket

namespace MiniOS.BracketSystem

open Lib Relation

variable {ι : Type} {s t : BracketSystem ι} {p q : ι} {pc : BracketPc}

/-- One process at most commits, and who sleeps has a reason to. -/
structure Ordered (s : BracketSystem ι) : Prop where
  committer : s.log.committing = true ↔ ∃ p, (s.pc p).inCommit = true
  one : ∀ p q, (s.pc p).inCommit = true → (s.pc q).inCommit = true → p = q
  erased : ∀ p, s.pc p = .committed → s.log.lh = []
  empty : s.log.outstanding = 0 → s.log.committing = false → s.log.lh = []
  sleepers : ∀ p, s.pc p = .asleep →
    s.log.committing = true ∨ s.log.lh.length + (s.log.outstanding + 1) * maxopblocks > logsize
  running : s.stopped ≠ some (.panic "log.committing")

/-- What holds in every state that the processes reach. -/
structure Bracketed [Fintype ι] (s : BracketSystem ι) : Prop extends Ordered s where
  counts : s.log.Counts s.brackets

/-- The facts that are left to show of a state in which nobody commits. -/
theorem Ordered.of_idle (nobody : ∀ q, (t.pc q).inCommit = false) (idle : t.log.committing = false)
    (empty : t.log.outstanding = 0 → t.log.lh = [])
    (sleepers : ∀ q, t.pc q = .asleep → t.log.lh.length + (t.log.outstanding + 1) * maxopblocks > logsize)
    (running : t.stopped ≠ some (.panic "log.committing")) : Ordered t where
  committer := by
    simp only [nobody, idle]
    exact ⟨nofun, fun ⟨_, commits⟩ => nomatch commits⟩
  one q _ commits := absurd (nobody q) (ne_of_eq_of_ne commits nofun)
  erased q at_pc := by
    have nobody := nobody q
    rw [at_pc] at nobody
    cases nobody
  empty none_left _ := empty none_left
  sleepers q at_pc := .inr (sleepers q at_pc)
  running := running

namespace Bracketed

variable [Fintype ι] {log : Log}

theorem initial (area : LogArea) : Bracketed (.initial ι area) where
  counts := ⟨by simp [BracketSystem.initial, brackets, BracketPc.between], fun wrong => by cases wrong⟩
  committer := by simp [BracketSystem.initial, BracketPc.inCommit]
  one _ _ commits := by cases commits
  erased _ at_pc := by cases at_pc
  empty _ _ := rfl
  sleepers _ at_pc := by cases at_pc
  running := nofun

/-- Nobody commits while an operation goes on. -/
theorem idle (inv : Bracketed s) (inside : (s.pc p).between = true) : s.log.committing = false :=
  inv.counts.idle (brackets_pos inside).ne'

theorem not_inCommit (inv : Bracketed s) (idle : s.log.committing = false) (q : ι) : (s.pc q).inCommit = false := by
  by_contra commits
  rw [inv.committer.2 ⟨q, Bool.of_not_eq_false commits⟩] at idle
  cases idle

theorem stop (inv : Bracketed s) {e : Stop} (other : e ≠ .panic "log.committing") : Ordered (s.stop e) where
  committer := inv.committer
  one := inv.one
  erased := inv.erased
  empty := inv.empty
  sleepers := inv.sleepers
  running same := other (Option.some.inj same)

variable [DecidableEq ι]

section

variable (inv : Bracketed s)
include inv

/-- A process that neither commits nor starts to goes on, while the log stays as it is or
grows. -/
theorem proceed {lh : List (BitVec 32)} (before : (s.pc p).inCommit = false)
    (after : pc.inCommit = false)
    (grows : lh = s.log.lh ∨ (s.pc p).between = true ∧ s.log.lh.length ≤ lh.length)
    (waits : pc = .asleep →
      s.log.committing = true ∨ s.log.lh.length + (s.log.outstanding + 1) * maxopblocks > logsize) :
    Ordered ((s.setLog { s.log with lh := lh }).goto p pc) := by
  have commits : ∀ q, (((s.setLog { s.log with lh := lh }).goto p pc).pc q).inCommit = (s.pc q).inCommit := by
    intro q
    by_cases same : q = p
    · subst same
      rw [goto_self, after, before]
    · rw [goto_of_ne same]
      rfl
  have length : s.log.lh.length ≤ lh.length := grows.elim (fun same => Nat.le_of_eq (by rw [same])) And.right
  refine ⟨?_, ?_, ?_, ?_, ?_, inv.running⟩
  · simp only [commits]
    exact inv.committer
  · simp only [commits]
    exact inv.one
  · intro q at_pc
    rcases goto_eq at_pc with ⟨_, same⟩ | ⟨_, at_pc⟩
    · rw [same] at after
      cases after
    · rcases grows with same | ⟨inside, _⟩
      · exact same.trans (inv.erased q at_pc)
      · have commits := inv.not_inCommit (inv.idle inside) q
        have at_pc : s.pc q = .committed := at_pc
        rw [at_pc] at commits
        cases commits
  · intro none_left idle
    rcases grows with same | ⟨inside, _⟩
    · exact same.trans (inv.empty none_left idle)
    · have some_left := brackets_pos inside
      have outstanding := inv.counts.outstanding
      have none_left : s.log.outstanding = 0 := none_left
      omega
  · intro q at_pc
    have old : s.log.committing = true ∨ s.log.lh.length + (s.log.outstanding + 1) * maxopblocks > logsize := by
      rcases goto_eq at_pc with ⟨_, same⟩ | ⟨_, at_pc⟩
      · exact waits same
      · exact inv.sleepers q at_pc
    refine old.imp_right fun full => ?_
    have full : s.log.lh.length + (s.log.outstanding + 1) * maxopblocks > logsize := full
    show (lh.length : Int) + (s.log.outstanding + 1) * maxopblocks > logsize
    omega

/-- A process that neither commits nor starts to goes on, and the log stays as it is. -/
theorem move (before : (s.pc p).inCommit = false) (after : pc.inCommit = false)
    (waits : pc = .asleep →
      s.log.committing = true ∨ s.log.lh.length + (s.log.outstanding + 1) * maxopblocks > logsize) :
    Ordered (s.goto p pc) :=
  inv.proceed before after (.inl rfl) waits

theorem admitted (begins : beginOp s.log = some log) :
    Ordered ((s.setLog log).goto p .inside) := by
  obtain ⟨idle, _, found⟩ := beginOp_eq_some begins
  have one_more : log.outstanding = s.log.outstanding + 1 := by rw [found]
  have lh : log.lh = s.log.lh := by rw [found]
  have outstanding := inv.counts.outstanding
  refine .of_idle (nobody_goto (fun q _ => inv.not_inCommit idle q) rfl)
    (by rw [← idle, found]; rfl) ?_ ?_ inv.running
  · intro none_left
    have none_left : log.outstanding = 0 := none_left
    omega
  · intro q at_pc
    rcases goto_eq at_pc with ⟨_, same⟩ | ⟨_, at_pc⟩
    · cases same
    · rcases inv.sleepers q at_pc with commits | full
      · exact absurd idle (ne_of_eq_of_ne commits nofun)
      · show (log.lh.length : Int) + (log.outstanding + 1) * maxopblocks > logsize
        rw [lh, one_more]
        simp only [maxopblocks] at full ⊢
        omega

/-- `end_op` of an operation that is not the last one. -/
theorem endOp (ends : MiniOS.endOp s.log = .ok (log, false)) :
    Ordered ((s.setLog log).wakeup.goto p .idle) := by
  obtain ⟨idle, others, found⟩ := endOp_eq_ok ends
  have others : s.log.outstanding ≠ 1 := of_decide_eq_false others.symm
  have one_less : log.outstanding = s.log.outstanding - 1 := by rw [found]
  have nobody : ∀ q, q ≠ p → ((s.setLog log).wakeup.pc q).inCommit = false := fun q _ => by
    rw [wakeup_inCommit]
    exact inv.not_inCommit idle q
  refine .of_idle (nobody_goto nobody rfl) (by rw [found]; rfl) ?_ ?_ inv.running
  · intro none_left
    have none_left : log.outstanding = 0 := none_left
    omega
  · intro q at_pc
    rcases goto_eq at_pc with ⟨_, same⟩ | ⟨_, at_pc⟩
    · cases same
    · exact absurd at_pc (wakeup_ne_asleep q)

/-- `end_op` of the last operation, which goes on to `commit`. -/
theorem endsLast (inside : s.pc p = .inside)
    (ends : MiniOS.endOp s.log = .ok (log, true)) : Ordered ((s.setLog log).goto p .commits) := by
  obtain ⟨idle, -, found⟩ := endOp_eq_ok ends
  have commits : log.committing = true := by rw [found]
  have alone : ∀ q, (((s.setLog log).goto p .commits).pc q).inCommit = true → q = p := by
    intro q commits
    by_contra other
    rw [goto_of_ne other] at commits
    exact absurd (inv.not_inCommit idle q) (ne_of_eq_of_ne commits nofun)
  refine ⟨?_, ?_, ?_, ?_, fun _ _ => .inl commits, inv.running⟩
  · refine ⟨fun _ => ⟨p, ?_⟩, fun _ => commits⟩
    rw [goto_self]
    rfl
  · intro q r first second
    rw [alone q first, alone r second]
  · intro q at_pc
    have same := alone q (by rw [at_pc]; rfl)
    subst same
    rw [goto_self] at at_pc
    cases at_pc
  · intro _ idle
    exact absurd idle (ne_of_eq_of_ne commits nofun)

/-- The end of `commit`, where the log is empty. -/
theorem commits (at_pc : s.pc p = .commits) :
    Ordered ((s.setLog { s.log with lh := [] }).goto p .committed) := by
  have active : s.log.committing = true := inv.committer.2 ⟨p, by rw [at_pc]; rfl⟩
  have same : ∀ q, (((s.setLog { s.log with lh := [] }).goto p .committed).pc q).inCommit = (s.pc q).inCommit := by
    intro q
    by_cases same : q = p
    · subst same
      rw [goto_self, at_pc]
      rfl
    · rw [goto_of_ne same]
      rfl
  refine ⟨?_, ?_, fun _ _ => rfl, fun _ _ => rfl, fun _ _ => .inl active, inv.running⟩
  · simp only [same]
    exact inv.committer
  · simp only [same]
    exact inv.one

/-- The second section of `end_op` under the lock. -/
theorem finishes (at_pc : s.pc p = .committed) :
    Ordered ((s.setLog { s.log with committing := false }).wakeup.goto p .idle) := by
  have committer : (s.pc p).inCommit = true := by
    rw [at_pc]
    rfl
  have nobody : ∀ q, q ≠ p → ((s.setLog { s.log with committing := false }).wakeup.pc q).inCommit = false := by
    intro q other
    rw [wakeup_inCommit]
    exact Bool.eq_false_iff.2 fun commits => other (inv.one q p commits committer)
  refine .of_idle (nobody_goto nobody rfl) rfl (fun _ => inv.erased p at_pc) ?_ inv.running
  · intro q at_pc
    rcases goto_eq at_pc with ⟨_, same⟩ | ⟨_, at_pc⟩
    · cases same
    · exact absurd at_pc (wakeup_ne_asleep q)

theorem step (step : BracketStep p s t) : Bracketed t := by
  refine ⟨?_, step.logStep.counts inv.counts⟩
  cases step with
  | begins _ at_pc | woken _ at_pc | tests _ _ at_pc => exact inv.move (by rw [at_pc]; rfl) rfl nofun
  | admitted _ _ begins => exact inv.admitted begins
  | sleeps _ at_pc blocked =>
    exact inv.move (by rw [at_pc]; rfl) rfl fun _ => beginOp_eq_none blocked
  | testPanics _ _ fails => exact inv.stop (logWriteTests_ne_committing fails)
  | locked b _ at_pc =>
    exact inv.proceed (by rw [at_pc]; rfl) rfl (.inr ⟨by rw [at_pc]; rfl, length_le_absorb b _⟩) nofun
  | endOp _ _ ends => exact inv.endOp ends
  | endsLast _ at_pc ends => exact inv.endsLast at_pc ends
  | endPanics _ at_pc fails =>
    have idle := inv.idle (p := p) (by rw [at_pc]; rfl)
    rw [endOp_eq_error fails] at idle
    cases idle
  | commits _ at_pc _ => exact inv.commits at_pc
  | commitsNothing _ at_pc empty =>
    have same : s.setLog { s.log with lh := [] } = s := by
      rw [← empty]
      rfl
    have done := inv.commits at_pc
    rwa [same] at done
  | finishes _ at_pc => exact inv.finishes at_pc

/-- While a process commits no other process changes the log. -/
theorem steady (commits : (s.pc p).inCommit = true) (other : q ≠ p) (step : BracketStep q s t) :
    t.log.lh = s.log.lh := by
  have inside : (s.pc q).between ≠ true := fun inside => by
    have idle := inv.idle inside
    rw [inv.committer.2 ⟨p, commits⟩] at idle
    cases idle
  have outside : (s.pc q).inCommit ≠ true := fun second => other (inv.one q p second commits)
  cases step with
  | begins | sleeps | woken | tests | testPanics | endPanics | commitsNothing | finishes => rfl
  | admitted _ _ begins =>
    obtain ⟨_, _, rfl⟩ := beginOp_eq_some begins
    rfl
  | locked b _ at_pc => exact absurd (by rw [at_pc]; rfl) inside
  | endOp _ _ ends | endsLast _ _ ends =>
    obtain ⟨_, _, rfl⟩ := endOp_eq_ok ends
    rfl
  | commits _ at_pc _ => exact absurd (by rw [at_pc]; rfl) outside

end

end Bracketed

/-- In every state that the processes reach `outstanding` counts the processes between
`begin_op` and `end_op`; one process at most commits, no other one is then between them,
and only that one changes the log; a log that nobody uses is empty; and a process that
sleeps in `begin_op` has its reason to. -/
theorem brackets_in_order [Fintype ι] [DecidableEq ι] (area : LogArea)
    (run : ReflTransGen (fun s t => ∃ p, BracketStep p s t) (initial ι area) s) :
    s.log.outstanding = s.brackets ∧
      (s.log.committing = true → s.log.outstanding = 0) ∧
      s.stopped ≠ some (.panic "log.committing") ∧
      (∀ p q, (s.pc p).inCommit = true → (s.pc q).inCommit = true → p = q) ∧
      (∀ p q, (s.pc p).inCommit = true → (s.pc q).between = false) ∧
      (∀ p q t, (s.pc p).inCommit = true → q ≠ p → BracketStep q s t → t.log.lh = s.log.lh) ∧
      (s.log.outstanding = 0 → s.log.committing = false → s.log.lh = []) ∧
      ∀ p, s.pc p = .asleep →
        s.log.committing = true ∨ s.log.lh.length + (s.log.outstanding + 1) * maxopblocks > logsize := by
  have inv : Bracketed s := run_induction (fun inv ⟨_, step⟩ => Bracketed.step inv step) (.initial area) run
  refine ⟨inv.counts.outstanding, fun commits => ?_, inv.running, inv.one, fun p q commits => ?_,
    fun p q t commits other => ?_,
    inv.empty, inv.sleepers⟩
  · rw [inv.counts.outstanding, inv.counts.quiet commits]
    rfl
  · refine Bool.eq_false_iff.mpr fun inside => ?_
    have idle := inv.idle inside
    rw [inv.committer.mpr ⟨p, commits⟩] at idle
    cases idle
  · exact inv.steady commits other

/-- A process that begins while another one commits sleeps. -/
theorem brackets_in_order_sleeper : ∃ s : BracketSystem (Fin 2), s.pc 1 = .asleep ∧ s.log.committing = true ∧
    s.log.outstanding = s.brackets := by
  obtain ⟨s, run, asleep, commits⟩ : ∃ s : BracketSystem (Fin 2),
      ReflTransGen (fun s t => ∃ p, BracketStep p s t) (initial (Fin 2) ⟨2, logsize⟩) s ∧ s.pc 1 = .asleep ∧
        s.log.committing = true := by
    refine ⟨_, .tail (.tail (.tail (.tail (.tail .refl ⟨0, .begins rfl rfl⟩) ⟨0, .admitted rfl rfl rfl⟩)
      ⟨0, .endsLast rfl rfl rfl⟩) ⟨1, .begins rfl rfl⟩) ⟨1, .sleeps rfl rfl rfl⟩, rfl, rfl⟩
  exact ⟨s, asleep, commits, (brackets_in_order ⟨2, logsize⟩ run).1⟩

end MiniOS.BracketSystem
