import MiniOS.Lib.Count
import MiniOS.Log.Transaction

namespace MiniOS

open Lib Function

variable {log : Log} {e : Stop}

/-- Where a process is: in `begin_op` at the test of the loop or asleep on `&log`,
between `begin_op` and `end_op`, in a call of `log_write` that is past the tests, in
`commit`, or behind it. -/
inductive BracketPc
  | idle
  | entering
  | asleep
  | inside
  | writing (b : BitVec 32)
  | commits
  | committed
  deriving DecidableEq

/-- The process is between `begin_op` and `end_op`. -/
def BracketPc.between : BracketPc → Bool
  | inside => true
  | writing _ => true
  | _ => false

/-- The process is the one that commits. -/
def BracketPc.inCommit : BracketPc → Bool
  | commits => true
  | committed => true
  | _ => false

/-- The log and the processes that use it. `stopped` is set by a panic. -/
structure BracketSystem (ι : Type) where
  log : Log
  pc : ι → BracketPc
  stopped : Option Stop

namespace BracketSystem

variable {ι : Type}

/-- `wakeup(&log)`. -/
def wakeup (s : BracketSystem ι) : BracketSystem ι :=
  { s with pc := fun p => if s.pc p = .asleep then .entering else s.pc p }

def setLog (s : BracketSystem ι) (log : Log) : BracketSystem ι := { s with log := log }

def stop (s : BracketSystem ι) (e : Stop) : BracketSystem ι := { s with stopped := some e }

/-- The state after `initlog`. -/
def initial (ι : Type) (area : LogArea) : BracketSystem ι := ⟨⟨area, [], 0, false⟩, fun _ => .idle, none⟩

def goto [DecidableEq ι] (s : BracketSystem ι) (p : ι) (pc : BracketPc) : BracketSystem ι :=
  { s with pc := update s.pc p pc }

/-- The number of processes between `begin_op` and `end_op`. -/
def brackets [Fintype ι] (s : BracketSystem ι) : Nat := (Finset.univ.filter fun p => (s.pc p).between = true).card

end BracketSystem

/-- The steps of process `p`, each section under `log.lock` one step. `woken` is a
wakeup by `kill`. -/
inductive BracketStep {ι : Type} [DecidableEq ι] (p : ι) (s : BracketSystem ι) : BracketSystem ι → Prop
  | begins : s.stopped = none → s.pc p = .idle → BracketStep p s (s.goto p .entering)
  | admitted {log : Log} : s.stopped = none → s.pc p = .entering → beginOp s.log = some log →
      BracketStep p s ((s.setLog log).goto p .inside)
  | sleeps : s.stopped = none → s.pc p = .entering → beginOp s.log = none →
      BracketStep p s (s.goto p .asleep)
  | woken : s.stopped = none → s.pc p = .asleep → BracketStep p s (s.goto p .entering)
  | tests (b : BitVec 32) : s.stopped = none → s.pc p = .inside → logWriteTests s.log = .ok () →
      BracketStep p s (s.goto p (.writing b))
  | testPanics {e : Stop} : s.stopped = none → s.pc p = .inside → logWriteTests s.log = .error e →
      BracketStep p s (s.stop e)
  | locked (b : BitVec 32) : s.stopped = none → s.pc p = .writing b →
      BracketStep p s ((s.setLog (logWriteLocked s.log b)).goto p .inside)
  | endOp {log : Log} : s.stopped = none → s.pc p = .inside → endOp s.log = .ok (log, false) →
      BracketStep p s ((s.setLog log).wakeup.goto p .idle)
  | endsLast {log : Log} : s.stopped = none → s.pc p = .inside → endOp s.log = .ok (log, true) →
      BracketStep p s ((s.setLog log).goto p .commits)
  | endPanics {e : Stop} : s.stopped = none → s.pc p = .inside → endOp s.log = .error e →
      BracketStep p s (s.stop e)
  | commits : s.stopped = none → s.pc p = .commits → s.log.lh.length > 0 →
      BracketStep p s ((s.setLog { s.log with lh := [] }).goto p .committed)
  | commitsNothing : s.stopped = none → s.pc p = .commits → s.log.lh = [] →
      BracketStep p s (s.goto p .committed)
  | finishes : s.stopped = none → s.pc p = .committed →
      BracketStep p s ((s.setLog { s.log with committing := false }).wakeup.goto p .idle)

theorem beginOp_eq_none (blocks : beginOp log = none) :
    log.committing = true ∨ log.lh.length + (log.outstanding + 1) * maxopblocks > logsize := by
  unfold beginOp at blocks
  split at blocks
  · exact .inl (by assumption)
  · split at blocks
    · exact .inr (by assumption)
    · cases blocks

theorem endOp_eq_error (fails : endOp log = .error e) : log.committing = true := by
  unfold endOp at fails
  split at fails
  · assumption
  · split at fails <;> cases fails

theorem logWriteTests_ne_committing (fails : logWriteTests log = .error e) :
    e ≠ .panic "log.committing" := by
  unfold logWriteTests at fails
  split at fails
  · cases fails
    decide
  · split at fails
    · cases fails
      decide
    · cases fails

theorem length_le_absorb (blockno : BitVec 32) (lh : List (BitVec 32)) : lh.length ≤ (absorb blockno lh).length := by
  by_cases member : blockno ∈ lh
  · rw [absorb_of_mem member]
  · rw [absorb_of_not_mem member, List.length_append]
    exact Nat.le_add_right ..

namespace BracketSystem

variable {ι : Type} {s t : BracketSystem ι} {p q : ι} {pc : BracketPc}

theorem wakeup_between (q : ι) : (s.wakeup.pc q).between = (s.pc q).between := by
  simp only [wakeup]
  split
  · rename_i asleep
    rw [asleep]
    rfl
  · rfl

theorem wakeup_inCommit (q : ι) : (s.wakeup.pc q).inCommit = (s.pc q).inCommit := by
  simp only [wakeup]
  split
  · rename_i asleep
    rw [asleep]
    rfl
  · rfl

theorem wakeup_ne_asleep (q : ι) : s.wakeup.pc q ≠ .asleep := by
  simp only [wakeup]
  split
  · nofun
  · assumption

theorem brackets_eq [Fintype ι] (s : BracketSystem ι) :
    s.brackets = countAt (fun p => if (s.pc p).between = true then some () else none) () := by
  simp only [brackets, countAt]
  congr 1
  refine Finset.filter_congr fun q _ => ?_
  split <;> simp [*]

theorem wakeup_brackets [Fintype ι] : s.wakeup.brackets = s.brackets := by
  simp only [brackets, wakeup_between]

theorem brackets_pos [Fintype ι] (inside : (s.pc p).between = true) : 0 < s.brackets :=
  Finset.card_pos.2 ⟨p, Finset.mem_filter.2 ⟨Finset.mem_univ p, inside⟩⟩

section Goto

variable [DecidableEq ι]

theorem goto_self : (s.goto p pc).pc p = pc := update_self ..

theorem goto_of_ne (other : q ≠ p) : (s.goto p pc).pc q = s.pc q := update_of_ne other ..

/-- The process that goes to `pc` is there and every other one is where it was. -/
theorem goto_eq {found : BracketPc} (at_pc : (s.goto p pc).pc q = found) :
    q = p ∧ pc = found ∨ q ≠ p ∧ s.pc q = found := by
  by_cases same : q = p
  · subst same
    exact .inl ⟨rfl, goto_self.symm.trans at_pc⟩
  · exact .inr ⟨same, (goto_of_ne same).symm.trans at_pc⟩

theorem brackets_goto [Fintype ι] (s : BracketSystem ι) (p : ι) (pc : BracketPc) :
    (s.goto p pc).brackets + (if (s.pc p).between = true then 1 else 0) =
      s.brackets + (if pc.between = true then 1 else 0) := by
  have moved : (fun q => if ((s.goto p pc).pc q).between = true then some () else none) =
      update (fun q => if (s.pc q).between = true then some () else none) p
        (if pc.between = true then some () else none) := by
    funext q
    by_cases same : q = p
    · subst same
      rw [goto_self, update_self]
    · rw [goto_of_ne same, update_of_ne same]
  have counted := countAt_update (fun q => if (s.pc q).between = true then some () else none) p
    (if pc.between = true then some () else none) ()
  rw [brackets_eq, brackets_eq, moved]
  simpa using counted

theorem brackets_stay [Fintype ι] (between : pc.between = (s.pc p).between) :
    (s.goto p pc).brackets = s.brackets := by
  have count := brackets_goto s p pc
  rw [between] at count
  exact Nat.add_right_cancel count

theorem brackets_leave [Fintype ι] (inside : (s.pc p).between = true) (outside : pc.between = false) :
    (s.goto p pc).brackets + 1 = s.brackets := by
  have count := brackets_goto s p pc
  rw [inside, outside] at count
  exact count

theorem nobody_goto (nobody : ∀ q, q ≠ p → (s.pc q).inCommit = false) (after : pc.inCommit = false) (q : ι) :
    ((s.goto p pc).pc q).inCommit = false := by
  by_cases same : q = p
  · subst same
    rw [goto_self]
    exact after
  · rw [goto_of_ne same]
    exact nobody q same

end Goto

end BracketSystem

open BracketSystem in
theorem BracketStep.logStep {ι : Type} [Fintype ι] [DecidableEq ι] {p : ι} {s t : BracketSystem ι}
    (step : BracketStep p s t) : LogStep s.log s.brackets t.log t.brackets := by
  have goes {pc : BracketPc} {log : Log} (between : pc.between = (s.pc p).between)
    (step : LogStep s.log s.brackets log s.brackets) :
      LogStep s.log s.brackets log ((s.setLog log).goto p pc).brackets := by
    have same : ((s.setLog log).goto p pc).brackets = s.brackets := brackets_stay (s := s.setLog log) between
    rw [same]
    exact step
  have leaves {pc : BracketPc} {log : Log} {doCommit : Bool} {u : BracketSystem ι} (same : u.brackets = s.brackets)
      (inside : (u.pc p).between = true) (outside : pc.between = false)
      (ends : MiniOS.endOp s.log = .ok (log, doCommit)) :
      LogStep s.log s.brackets log (u.goto p pc).brackets := by
    rw [← same, ← brackets_leave inside outside]
    exact .endOp ends
  cases step with
  | begins _ at_pc | sleeps _ at_pc | woken _ at_pc | tests _ _ at_pc | commitsNothing _ at_pc =>
    exact goes (by rw [at_pc]; rfl) .stays
  | admitted _ at_pc begins =>
    rename_i log _
    have count := brackets_goto (s.setLog log) p .inside
    rw [show (s.setLog log).pc p = .entering from at_pc] at count
    have more : ((s.setLog log).goto p .inside).brackets = s.brackets + 1 := count
    rw [more]
    exact .beginOp begins
  | testPanics => exact .stays
  | locked b _ at_pc => exact goes (by rw [at_pc]; rfl) (.locked b)
  | endOp _ at_pc ends => exact leaves wakeup_brackets (by rw [wakeup_between]; exact at_pc ▸ rfl) rfl ends
  | endsLast _ at_pc ends => exact leaves rfl (at_pc ▸ rfl) rfl ends
  | endPanics => exact .stays
  | commits _ at_pc => exact goes (by rw [at_pc]; rfl) .erase
  | finishes _ at_pc =>
    rw [brackets_stay (by rw [wakeup_between]; exact at_pc ▸ rfl), wakeup_brackets]
    exact .committed

end MiniOS
