import MiniOS.Log.Transaction
import MiniOS.Lib.Run
import Mathlib.Algebra.BigOperators.Group.Multiset.Basic
import Mathlib.Data.Finset.Card

namespace MiniOS

open Lib Relation

/-- An operation between `begin_op` and `end_op`: the blocks it has logged, and
the block of a call of `log_write` that is past the tests but has not got the lock. -/
structure Op where
  logged : Finset (BitVec 32)
  writing : Option (BitVec 32)

/-- The log with all operations that are going on. `sinceCommit` has the blocks
that were logged since the last commit, and `stopped` is set by a panic. -/
structure LogSystem where
  log : Log
  ops : Multiset Op
  sinceCommit : Finset (BitVec 32)
  stopped : Option Stop

/-- The steps of the processes. No operation logs more than `MAXOPBLOCKS`
different blocks. `calls` says when `log_write` may be called, and `enters`
when the call may go on to the section under the lock. -/
inductive OpStep (calls : Finset (BitVec 32) → Prop) (enters : Finset (BitVec 32) → BitVec 32 → Prop) :
    LogSystem → LogSystem → Prop
  | beginOp {log log' : Log} {ops : Multiset Op} {since : Finset (BitVec 32)} : beginOp log = some log' →
      OpStep calls enters ⟨log, ops, since, none⟩ ⟨log', ⟨∅, none⟩ ::ₘ ops, since, none⟩
  | tests {log : Log} {ops : Multiset Op} {since logged : Finset (BitVec 32)} {b : BitVec 32} :
      (insert b logged).card ≤ maxopblocks → calls since → logWriteTests log = .ok () →
      OpStep calls enters ⟨log, ⟨logged, none⟩ ::ₘ ops, since, none⟩ ⟨log, ⟨logged, some b⟩ ::ₘ ops, since, none⟩
  | testPanics {log : Log} {ops : Multiset Op} {since logged : Finset (BitVec 32)} {b : BitVec 32} {e : Stop} :
      (insert b logged).card ≤ maxopblocks → calls since → logWriteTests log = .error e →
      OpStep calls enters ⟨log, ⟨logged, none⟩ ::ₘ ops, since, none⟩ ⟨log, ⟨logged, none⟩ ::ₘ ops, since, some e⟩
  | locked {log : Log} {ops : Multiset Op} {since logged : Finset (BitVec 32)} {b : BitVec 32} : enters since b →
      OpStep calls enters ⟨log, ⟨logged, some b⟩ ::ₘ ops, since, none⟩
        ⟨logWriteLocked log b, ⟨insert b logged, none⟩ ::ₘ ops, insert b since, none⟩
  | endOp {log log' : Log} {ops : Multiset Op} {since logged : Finset (BitVec 32)} {doCommit : Bool} :
      endOp log = .ok (log', doCommit) →
      OpStep calls enters ⟨log, ⟨logged, none⟩ ::ₘ ops, since, none⟩ ⟨log', ops, since, none⟩
  | endPanics {log : Log} {ops : Multiset Op} {since logged : Finset (BitVec 32)} {e : Stop} :
      endOp log = .error e →
      OpStep calls enters ⟨log, ⟨logged, none⟩ ::ₘ ops, since, none⟩ ⟨log, ⟨logged, none⟩ ::ₘ ops, since, some e⟩
  | erase {log : Log} {ops : Multiset Op} {since : Finset (BitVec 32)} : log.committing = true → log.lh.length > 0 →
      OpStep calls enters ⟨log, ops, since, none⟩ ⟨{ log with lh := [] }, ops, ∅, none⟩
  | committed {log : Log} {ops : Multiset Op} {since : Finset (BitVec 32)} : log.committing = true → log.lh = [] →
      OpStep calls enters ⟨log, ops, since, none⟩ ⟨{ log with committing := false }, ops, since, none⟩

theorem OpStep.logStep {calls : Finset (BitVec 32) → Prop} {enters : Finset (BitVec 32) → BitVec 32 → Prop}
    {s t : LogSystem} (step : OpStep calls enters s t) : LogStep s.log s.ops.card t.log t.ops.card := by
  cases step with
  | beginOp begins => exact Multiset.card_cons .. ▸ .beginOp begins
  | tests | testPanics | endPanics => simpa using .stays
  | locked => simpa using .locked _
  | endOp ends => exact Multiset.card_cons .. ▸ .endOp ends
  | erase => exact .erase
  | committed => exact .committed

/-- The log right after `initlog`, with the layout that `mkfs` writes. -/
def LogSystem.initial (start : Nat) : LogSystem := ⟨⟨⟨start, logsize⟩, [], 0, false⟩, 0, ∅, none⟩

/-- The log space that an operation may still use of what was set aside for it. -/
def Op.reserved (op : Op) : Nat := maxopblocks - op.logged.card

/-- The operation logs no more than it may and everything it logged is in the log. -/
structure Op.Fair (op : Op) (lh : List (BitVec 32)) : Prop where
  logged : ∀ b ∈ op.logged, b ∈ lh
  limit : ∀ b, op.writing = some b → (insert b op.logged).card ≤ maxopblocks

/-- The log and the operations fit the space that was set aside. -/
structure Booked (s : LogSystem) : Prop where
  nodup : s.log.lh.Nodup
  since : ∀ b, b ∈ s.sinceCommit ↔ b ∈ s.log.lh
  fair : ∀ op ∈ s.ops, op.Fair s.log.lh
  reserve : s.log.lh.length + (s.ops.map Op.reserved).sum ≤ logsize

theorem Booked.card_since {s : LogSystem} (inv : Booked s) : s.sinceCommit.card = s.log.lh.length := by
  have same : s.sinceCommit = s.log.lh.toFinset := Finset.ext fun b => by rw [inv.since, List.mem_toFinset]
  rw [same, List.toFinset_card_of_nodup inv.nodup]

/-- What holds in every state that the processes reach, whatever they do. -/
structure Reserved (s : LogSystem) : Prop extends Booked s where
  size : s.log.size = logsize
  counts : s.log.Counts s.ops.card

namespace Reserved

variable {log log' : Log} {op op' : Op} {ops : Multiset Op} {since logged : Finset (BitVec 32)} {b : BitVec 32}
  {doCommit : Bool} {stopped : Option Stop} {s : LogSystem}

theorem initial (start : Nat) : Reserved (.initial start) where
  size := rfl
  counts := ⟨rfl, fun _ => rfl⟩
  nodup := List.nodup_nil
  since b := by simp [LogSystem.initial]
  fair op member := absurd member (Multiset.notMem_zero op)
  reserve := Nat.zero_le _

theorem length_le (inv : Reserved s) : s.log.lh.length ≤ logsize :=
  Nat.le_trans (Nat.le_add_right _ _) inv.reserve

theorem outstanding_cons (inv : Reserved ⟨log, op ::ₘ ops, since, stopped⟩) : log.outstanding = ops.card + 1 := by
  have outstanding : log.outstanding = (op ::ₘ ops).card := inv.counts.outstanding
  rw [outstanding, Multiset.card_cons]
  rfl

theorem sum_reserved_le (ops : Multiset Op) : (ops.map Op.reserved).sum ≤ maxopblocks * ops.card := by
  induction ops using Multiset.induction with
  | empty => exact Nat.le_refl 0
  | cons op ops ih =>
    have : op.reserved ≤ maxopblocks := Nat.sub_le _ _
    rw [Multiset.map_cons, Multiset.sum_cons, Multiset.card_cons, Nat.mul_succ]
    omega

theorem beginOp (inv : Reserved ⟨log, ops, since, none⟩) (admitted : MiniOS.beginOp log = some log') :
    Booked ⟨log', ⟨∅, none⟩ ::ₘ ops, since, none⟩ := by
  obtain ⟨-, room, rfl⟩ := beginOp_eq_some admitted
  have outstanding : log.outstanding = ops.card := inv.counts.outstanding
  refine ⟨inv.nodup, inv.since, ?_, ?_⟩
  · intro op member
    rcases Multiset.mem_cons.1 member with rfl | old
    · exact ⟨by simp, by simp⟩
    · exact inv.fair op old
  · have each := sum_reserved_le ops
    have new : Op.reserved ⟨∅, none⟩ = maxopblocks := rfl
    simp only [outstanding, maxopblocks, logsize] at room each
    simp only [Multiset.map_cons, Multiset.sum_cons, new, maxopblocks, logsize]
    omega

/-- An operation goes on, and the log with it. -/
theorem proceed {lh : List (BitVec 32)} {since' : Finset (BitVec 32)} (inv : Reserved ⟨log, op ::ₘ ops, since, none⟩)
    (nodup : lh.Nodup) (grows : ∀ b ∈ log.lh, b ∈ lh) (same : ∀ b, b ∈ since' ↔ b ∈ lh) (fair : op'.Fair lh)
    (reserve : lh.length + op'.reserved ≤ log.lh.length + op.reserved) :
    Booked ⟨{ log with lh := lh }, op' ::ₘ ops, since', none⟩ := by
  refine ⟨nodup, same, ?_, ?_⟩
  · intro op₁ member
    rcases Multiset.mem_cons.1 member with rfl | old
    · exact fair
    · have fair₁ := inv.fair op₁ (Multiset.mem_cons_of_mem old)
      exact ⟨fun b inside => grows b (fair₁.logged b inside), fair₁.limit⟩
  · have before := inv.reserve
    simp only [Multiset.map_cons, Multiset.sum_cons] at before ⊢
    omega

theorem tests (inv : Reserved ⟨log, ⟨logged, none⟩ ::ₘ ops, since, none⟩)
    (limit : (insert b logged).card ≤ maxopblocks) : Booked ⟨log, ⟨logged, some b⟩ ::ₘ ops, since, none⟩ := by
  have fair := inv.fair _ (Multiset.mem_cons_self _ _)
  refine inv.proceed inv.nodup (fun _ => id) inv.since ⟨fair.logged, fun c same => ?_⟩ Nat.le.refl
  cases same
  exact limit

/-- A block that is new to the log is new to the operation, so it uses up space
that was set aside. -/
theorem locked (inv : Reserved ⟨log, ⟨logged, some b⟩ ::ₘ ops, since, none⟩) :
    Booked ⟨logWriteLocked log b, ⟨insert b logged, none⟩ ::ₘ ops, insert b since, none⟩ := by
  have fair := inv.fair _ (Multiset.mem_cons_self _ _)
  have limit : (insert b logged).card ≤ maxopblocks := fair.limit b rfl
  refine inv.proceed (nodup_absorb inv.nodup) (fun c old => mem_absorb.2 (.inr old)) (fun c => ?_)
    ⟨fun c inside => mem_absorb.2 ((Finset.mem_insert.1 inside).imp_right (fair.logged c)), by simp⟩ ?_
  · rw [mem_absorb, Finset.mem_insert, inv.since]
  · by_cases known : b ∈ log.lh
    · have := Finset.card_le_card (Finset.subset_insert b logged)
      simp only [absorb_of_mem known, Op.reserved]
      omega
    · have new : b ∉ logged := fun inside => known (fair.logged b inside)
      rw [Finset.card_insert_of_notMem new] at limit
      simp only [absorb_of_not_mem known, Op.reserved, Finset.card_insert_of_notMem new, List.length_append,
        List.length_singleton]
      omega

theorem endOp (inv : Reserved ⟨log, op ::ₘ ops, since, none⟩) (ends : MiniOS.endOp log = .ok (log', doCommit)) :
    Booked ⟨log', ops, since, none⟩ := by
  obtain ⟨-, -, rfl⟩ := endOp_eq_ok ends
  refine ⟨inv.nodup, inv.since, ?_, ?_⟩
  · exact fun op member => inv.fair op (Multiset.mem_cons_of_mem member)
  · have before := inv.reserve
    simp only [Multiset.map_cons, Multiset.sum_cons] at before ⊢
    omega

theorem endOp_ne_error (inv : Reserved ⟨log, op ::ₘ ops, since, stopped⟩) (e : Stop) :
    MiniOS.endOp log ≠ .error e := by
  have idle : log.committing = false := inv.counts.idle (by simp)
  rw [MiniOS.endOp, idle, if_neg Bool.false_ne_true]
  split <;> simp

theorem step {calls : Finset (BitVec 32) → Prop} {enters : Finset (BitVec 32) → BitVec 32 → Prop} {s' : LogSystem}
    (inv : Reserved s) (step : OpStep calls enters s s') : Reserved s' := by
  refine ⟨?_, step.logStep.size.trans inv.size, step.logStep.counts inv.counts⟩
  cases step with
  | beginOp admitted => exact inv.beginOp admitted
  | tests limit _ _ => exact inv.tests limit
  | testPanics | committed => exact ⟨inv.nodup, inv.since, inv.fair, inv.reserve⟩
  | locked _ => exact inv.locked
  | endOp ends => exact inv.endOp ends
  | endPanics fails => exact absurd fails (inv.endOp_ne_error _)
  | erase commits _ =>
    have none := Multiset.card_eq_zero.1 (inv.counts.quiet commits)
    dsimp only at none
    subst none
    exact ⟨List.nodup_nil, by simp, by simp, Nat.zero_le _⟩

end Reserved

/-- Whatever the operations log, the entries fit the array `block` of the header. -/
theorem log_header_not_exceeded {calls : Finset (BitVec 32) → Prop} {enters : Finset (BitVec 32) → BitVec 32 → Prop}
    {start : Nat} {s : LogSystem} (run : ReflTransGen (OpStep calls enters) (.initial start) s) :
    s.log.lh.length ≤ logsize := by
  have inv : Reserved s := run_induction Reserved.step (.initial start) run
  exact inv.length_le

theorem log_header_not_exceeded_by_a_block :
    ∃ s, ReflTransGen (OpStep (fun _ => True) fun _ _ => True) (.initial 2) s ∧
    s.log.lh = [58] ∧ s.log.lh.length ≤ logsize := by
  have run : ReflTransGen (OpStep (fun _ => True) fun _ _ => True) (.initial 2)
      ⟨⟨⟨2, logsize⟩, [58], 1, false⟩, ⟨{58}, none⟩ ::ₘ 0, {58}, none⟩ :=
    ((ReflTransGen.single (.beginOp rfl)).tail (.tests (by decide) trivial rfl)).tail (.locked (b := 58) trivial)
  exact ⟨_, run, rfl, log_header_not_exceeded run⟩

/-- Since the last commit fewer blocks were logged than the log area has besides its header. -/
def RoomLeft (since : Finset (BitVec 32)) : Prop := since.card < logsize - 1

/-- With block `b` the blocks logged since the last commit still fit the log area. -/
def RoomFor (since : Finset (BitVec 32)) (b : BitVec 32) : Prop := (insert b since).card ≤ logsize - 1

/-- What holds while `log_write` is called and entered only with room left. -/
structure Fitting (s : LogSystem) : Prop extends Reserved s where
  running : s.stopped = none
  fits : s.log.lh.length ≤ logsize - 1

namespace Fitting

theorem logWriteTests_ok {log : Log} {op : Op} {ops : Multiset Op} {since : Finset (BitVec 32)}
    (inv : Fitting ⟨log, op ::ₘ ops, since, none⟩) (room : RoomLeft since) : logWriteTests log = .ok () := by
  have length : since.card = log.lh.length := inv.card_since
  have size : log.size = logsize := inv.size
  have outstanding : log.outstanding = ops.card + 1 := inv.outstanding_cons
  simp only [RoomLeft, logsize] at room size
  unfold logWriteTests
  rw [if_neg (by simp only [logsize]; omega), if_neg (by omega)]

theorem step {s s' : LogSystem} (inv : Fitting s) (step : OpStep RoomLeft RoomFor s s') : Fitting s' := by
  refine ⟨inv.toReserved.step step, ?_, ?_⟩
  · cases step with
    | testPanics _ room fails => exact absurd ((inv.logWriteTests_ok room).symm.trans fails) (by simp)
    | endPanics fails => exact absurd fails (inv.endOp_ne_error _)
    | _ => rfl
  · cases step with
    | beginOp admitted =>
      obtain ⟨_, _, rfl⟩ := beginOp_eq_some admitted
      exact inv.fits
    | locked room =>
      rw [← inv.toReserved.locked.card_since]
      exact room
    | endOp ends =>
      obtain ⟨_, _, rfl⟩ := endOp_eq_ok ends
      exact inv.fits
    | erase _ _ => exact Nat.zero_le _
    | _ => exact inv.fits

end Fitting

/-- If `log_write` is called and entered only while the blocks logged since the
last commit leave room in the log area, there is no panic, and `write_log`
stays within the log area. -/
theorem log_space_sufficient {start : Nat} {s : LogSystem}
    (run : ReflTransGen (OpStep RoomLeft RoomFor) (.initial start) s) :
    s.stopped = none ∧ s.log.lh.length ≤ s.log.size - 1 ∧ ∀ (cached disk : Nat → Block),
      ∀ b ∈ (s.log.writeLog cached 0 s.log.lh).written disk, s.log.Inside b := by
  have inv : Fitting s := run_induction Fitting.step ⟨.initial start, rfl, Nat.zero_le _⟩ run
  have fits := inv.fits
  have size := inv.size
  refine ⟨inv.running, by omega, fun cached disk b member => ?_⟩
  rw [LogArea.writeLog_written, List.mem_range'_1] at member
  have positive : 0 < logsize := by decide
  exact ⟨by omega, by omega⟩

theorem log_space_sufficient_for_a_block : ∃ s, ReflTransGen (OpStep RoomLeft RoomFor) (.initial 2) s ∧
    s.log.lh = [58] ∧ s.stopped = none ∧ s.log.lh.length ≤ s.log.size - 1 := by
  have run : ReflTransGen (OpStep RoomLeft RoomFor) (.initial 2)
      ⟨⟨⟨2, logsize⟩, [58], 1, false⟩, ⟨{58}, none⟩ ::ₘ 0, {58}, none⟩ :=
    ((ReflTransGen.single (.beginOp rfl)).tail (.tests (by decide) (show 0 < 29 by decide) rfl)).tail
      (.locked (b := 58) (show (insert 58 ∅ : Finset (BitVec 32)).card ≤ 29 by decide))
  obtain ⟨running, fits, _⟩ := log_space_sufficient run
  exact ⟨_, run, rfl, running, fits⟩

/-- An operation logs some blocks one after another. -/
theorem OpStep.logs (log : Log) (ops : Multiset Op) (since logged : Finset (BitVec 32)) (bs : List (BitVec 32))
    (size : log.size = logsize) (started : 1 ≤ log.outstanding) (fits : log.lh.length + bs.length ≤ logsize - 1)
    (limit : logged.card + bs.length ≤ maxopblocks) (nodup : (log.lh ++ bs).Nodup) :
    ∃ logged' since', ReflTransGen (OpStep (fun _ => True) fun _ _ => True)
      ⟨log, ⟨logged, none⟩ ::ₘ ops, since, none⟩
      ⟨{ log with lh := log.lh ++ bs }, ⟨logged', none⟩ ::ₘ ops, since', none⟩ ∧
      logged'.card ≤ logged.card + bs.length := by
  induction bs generalizing log since logged with
  | nil => exact ⟨logged, since, by rw [List.append_nil], Nat.le_refl _⟩
  | cons b bs ih =>
    have new : b ∉ log.lh := fun member => (List.nodup_append.1 nodup).2.2 b member b (.head _) rfl
    have card := Finset.card_insert_le b logged
    simp only [List.length_cons, logsize, maxopblocks] at fits limit size
    have passes : logWriteTests log = .ok () := by
      unfold logWriteTests
      rw [if_neg (by simp only [logsize]; omega), if_neg (by omega)]
    have appended : absorb b log.lh = log.lh ++ [b] := absorb_of_not_mem new
    obtain ⟨logged', since', run, card'⟩ := ih (logWriteLocked log b) (insert b since) (insert b logged) size started
      (by simp only [logWriteLocked, appended, List.length_append, List.length_singleton, logsize]; omega)
      (by simp only [maxopblocks]; omega)
      (by simpa only [logWriteLocked, appended, List.append_assoc, List.singleton_append] using nodup)
    refine ⟨logged', since', ?_, by simp only [List.length_cons]; omega⟩
    simp only [logWriteLocked, appended, List.append_assoc, List.singleton_append] at run
    have call : OpStep (fun _ => True) (fun _ _ => True) ⟨log, ⟨logged, none⟩ ::ₘ ops, since, none⟩
        ⟨log, ⟨logged, some b⟩ ::ₘ ops, since, none⟩ :=
      .tests (by simp only [maxopblocks]; omega) trivial passes
    have enter : OpStep (fun _ => True) (fun _ _ => True) ⟨log, ⟨logged, some b⟩ ::ₘ ops, since, none⟩
        ⟨logWriteLocked log b, ⟨insert b logged, none⟩ ::ₘ ops, insert b since, none⟩ := .locked trivial
    simp only [logWriteLocked, appended] at enter
    exact ((ReflTransGen.single call).tail enter).trans run

/-- Three operations are let in with an empty log. The first two log ten blocks
each and the third nine, and its next call of `log_write` panics. -/
theorem log_space_exhausted : ∃ s, ReflTransGen (OpStep (fun _ => True) fun _ _ => True) (.initial 2) s ∧
    s.stopped = some (.panic "too big a transaction") := by
  have opened : ReflTransGen (OpStep (fun _ => True) fun _ _ => True) (.initial 2)
      ⟨⟨⟨2, logsize⟩, [], 3, false⟩, ⟨∅, none⟩ ::ₘ ⟨∅, none⟩ ::ₘ ⟨∅, none⟩ ::ₘ 0, ∅, none⟩ :=
    ((ReflTransGen.single (.beginOp rfl)).tail (.beginOp rfl)).tail (.beginOp rfl)
  obtain ⟨logged₁, since₁, first, _⟩ := OpStep.logs ⟨⟨2, logsize⟩, [], 3, false⟩ (⟨∅, none⟩ ::ₘ ⟨∅, none⟩ ::ₘ 0) ∅ ∅
    ((List.range' 100 10).map (BitVec.ofNat 32)) rfl (by decide) (by decide) (by decide) (by decide)
  obtain ⟨logged₂, since₂, second, _⟩ :=
    OpStep.logs ⟨⟨2, logsize⟩, (List.range' 100 10).map (BitVec.ofNat 32), 3, false⟩
    (⟨logged₁, none⟩ ::ₘ ⟨∅, none⟩ ::ₘ 0) since₁ ∅ ((List.range' 110 10).map (BitVec.ofNat 32)) rfl
    (by decide) (by decide) (by decide) (by decide)
  obtain ⟨logged₃, since₃, third, few⟩ :=
    OpStep.logs ⟨⟨2, logsize⟩, (List.range' 100 20).map (BitVec.ofNat 32), 3, false⟩
    (⟨logged₂, none⟩ ::ₘ ⟨logged₁, none⟩ ::ₘ 0) since₂ ∅ ((List.range' 120 9).map (BitVec.ofNat 32)) rfl
    (by decide) (by decide) (by decide) (by decide)
  have swap (a b : Op) (ops : Multiset Op) : a ::ₘ b ::ₘ ops = b ::ₘ a ::ₘ ops := Multiset.cons_swap a b ops
  rw [swap ⟨∅, none⟩ ⟨logged₁, none⟩] at second
  rw [swap ⟨∅, none⟩ ⟨logged₂, none⟩, swap ⟨∅, none⟩ ⟨logged₁, none⟩] at third
  have card : (insert 129 logged₃).card ≤ maxopblocks := by
    have := Finset.card_insert_le 129 logged₃
    simp only [Finset.card_empty, List.length_map, List.length_range'] at few
    simp only [maxopblocks]
    omega
  exact ⟨_, (((opened.trans first).trans second).trans third).tail (.testPanics card trivial rfl), rfl⟩

end MiniOS
