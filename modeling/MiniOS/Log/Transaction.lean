import MiniOS.Log.Recovery
import Mathlib.Data.List.Nodup

namespace MiniOS

variable {blockno : BitVec 32} {lh : List (BitVec 32)} {log log' : Log}

/-- `MAXOPBLOCKS`, the log space that `begin_op` sets aside for one operation. -/
def maxopblocks : Nat := 10

/-- The variable `log` of the kernel. The list `lh` is `lh.block[0]` up to `lh.block[lh.n - 1]`. -/
structure Log extends LogArea where
  lh : List (BitVec 32)
  outstanding : Int
  committing : Bool

/-- `begin_op` gets no further than its loop as long as this is `none`. -/
def beginOp (log : Log) : Option Log :=
  if log.committing then none
  else if log.lh.length + (log.outstanding + 1) * maxopblocks > logsize then none
  else some { log with outstanding := log.outstanding + 1 }

/-- What `log_write` tests before it takes the lock. -/
def logWriteTests (log : Log) : Except Stop Unit :=
  if log.lh.length ≥ logsize ∨ (log.lh.length : Int) ≥ log.size - 1 then .error (.panic "too big a transaction")
  else if log.outstanding < 1 then .error (.panic "log_write outside of trans")
  else .ok ()

/-- The loop of `log_write` together with the two statements after it. -/
def absorb (blockno : BitVec 32) : List (BitVec 32) → List (BitVec 32)
  | [] => [blockno]
  | b :: rest => if b = blockno then b :: rest else b :: absorb blockno rest

/-- The section of `log_write` under the lock. -/
def logWriteLocked (log : Log) (blockno : BitVec 32) : Log := { log with lh := absorb blockno log.lh }

/-- The first section of `end_op` under the lock, with `do_commit`. -/
def endOp (log : Log) : Except Stop (Log × Bool) :=
  if log.committing then .error (.panic "log.committing")
  else if log.outstanding - 1 = 0 then .ok ({ log with outstanding := log.outstanding - 1, committing := true }, true)
  else .ok ({ log with outstanding := log.outstanding - 1 }, false)

theorem absorb_of_mem (member : blockno ∈ lh) :
    absorb blockno lh = lh := by
  induction lh with
  | nil => cases member
  | cons b rest ih =>
    by_cases same : b = blockno
    · rw [absorb, if_pos same]
    · rw [absorb, if_neg same, ih ((List.mem_cons.1 member).resolve_left (Ne.symm same))]

theorem absorb_of_not_mem (new : blockno ∉ lh) :
    absorb blockno lh = lh ++ [blockno] := by
  induction lh with
  | nil => rfl
  | cons b rest ih =>
    obtain ⟨other, new⟩ := not_or.1 (mt List.mem_cons.2 new)
    rw [absorb, if_neg (Ne.symm other), ih new, List.cons_append]

theorem mem_absorb {b : BitVec 32} : b ∈ absorb blockno lh ↔ b = blockno ∨ b ∈ lh := by
  by_cases member : blockno ∈ lh
  · rw [absorb_of_mem member]
    exact ⟨.inr, fun either => either.elim (fun same => same ▸ member) id⟩
  · rw [absorb_of_not_mem member, List.mem_append, List.mem_singleton, or_comm]

theorem length_absorb_le (blockno : BitVec 32) (lh : List (BitVec 32)) :
    (absorb blockno lh).length ≤ lh.length + 1 := by
  by_cases member : blockno ∈ lh
  · rw [absorb_of_mem member]
    exact Nat.le_succ _
  · exact Nat.le_of_eq (by rw [absorb_of_not_mem member, List.length_append, List.length_singleton])

theorem nodup_absorb (nodup : lh.Nodup) : (absorb blockno lh).Nodup := by
  by_cases member : blockno ∈ lh
  · rwa [absorb_of_mem member]
  · rw [absorb_of_not_mem member]
    exact nodup.append (List.nodup_singleton blockno) (List.disjoint_singleton.2 member)

theorem beginOp_eq_some (admitted : beginOp log = some log') :
    log.committing = false ∧ log.lh.length + (log.outstanding + 1) * maxopblocks ≤ logsize ∧
      log' = { log with outstanding := log.outstanding + 1 } := by
  unfold beginOp at admitted
  split at admitted
  · cases admitted
  · rename_i idle
    split at admitted
    · cases admitted
    · cases admitted
      exact ⟨Bool.eq_false_iff.2 idle, by omega, rfl⟩

theorem endOp_eq_ok {doCommit : Bool} (ends : endOp log = .ok (log', doCommit)) :
    log.committing = false ∧ doCommit = decide (log.outstanding = 1) ∧
      log' = { log with outstanding := log.outstanding - 1, committing := doCommit } := by
  unfold endOp at ends
  split at ends
  · cases ends
  · rename_i idle
    rw [Bool.not_eq_true] at idle
    split at ends
    · rename_i last
      cases ends
      exact ⟨idle, (decide_eq_true (by omega)).symm, rfl⟩
    · rename_i others
      cases ends
      refine ⟨idle, (decide_eq_false (by omega)).symm, ?_⟩
      rw [← idle]

/-- What a section of `begin_op`, `log_write`, `end_op` and `commit` does to the log, and to the number of operations
between `begin_op` and `end_op`. -/
inductive LogStep : Log → Nat → Log → Nat → Prop
  | stays {log : Log} {n : Nat} : LogStep log n log n
  | beginOp {log log' : Log} {n : Nat} : beginOp log = some log' → LogStep log n log' (n + 1)
  | locked {log : Log} {n : Nat} (b : BitVec 32) : LogStep log n (logWriteLocked log b) n
  | endOp {log log' : Log} {n : Nat} {doCommit : Bool} : endOp log = .ok (log', doCommit) → LogStep log (n + 1) log' n
  | erase {log : Log} {n : Nat} : LogStep log n { log with lh := [] } n
  | committed {log : Log} {n : Nat} : LogStep log n { log with committing := false } n

/-- `outstanding` counts the operations, and none is going on during a commit. -/
structure Log.Counts (log : Log) (n : Nat) : Prop where
  outstanding : log.outstanding = n
  quiet : log.committing = true → n = 0

variable {n n' : Nat}

theorem Log.Counts.idle (counts : log.Counts n) (some : n ≠ 0) : log.committing = false := by
  by_contra commits
  exact some (counts.quiet (Bool.of_not_eq_false commits))

namespace LogStep

theorem counts (step : LogStep log n log' n') (counts : log.Counts n) : log'.Counts n' := by
  obtain ⟨outstanding, quiet⟩ := counts
  cases step with
  | stays | locked | erase => exact ⟨outstanding, quiet⟩
  | beginOp begins =>
    obtain ⟨idle, -, rfl⟩ := beginOp_eq_some begins
    refine ⟨by simp only [outstanding]; rfl, fun commits => ?_⟩
    cases idle.symm.trans commits
  | endOp ends =>
    obtain ⟨-, last, rfl⟩ := endOp_eq_ok ends
    refine ⟨by simp only [outstanding]; omega, fun commits => ?_⟩
    have one : log.outstanding = 1 := of_decide_eq_true (last.symm.trans commits)
    omega
  | committed => exact ⟨outstanding, fun wrong => by cases wrong⟩

theorem size (step : LogStep log n log' n') : log'.size = log.size := by
  cases step with
  | beginOp begins =>
    obtain ⟨-, -, rfl⟩ := beginOp_eq_some begins
    rfl
  | endOp ends =>
    obtain ⟨-, -, rfl⟩ := endOp_eq_ok ends
    rfl
  | _ => rfl

end LogStep

end MiniOS
