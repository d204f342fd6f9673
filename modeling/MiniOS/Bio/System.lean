import MiniOS.Bio.Code
import MiniOS.Bio.Store
import MiniOS.Lib.Trace
import MiniOS.Log.Transaction
import Mathlib.Data.Multiset.Count

namespace MiniOS

/-- How far `commit` has got: the loops of `write_log` and `install_trans` with
their variable `tail`, the second call of `write_head`, and the rest of `end_op`. -/
inductive CommitStage
  | writeLog (tail : Nat)
  | installTrans (tail : Nat)
  | clear
  | finished

/-- Where `commit` starts. -/
def CommitStage.first (lh : List (BitVec 32)) : CommitStage := if lh.length > 0 then .writeLog 0 else .finished

/-- A process that has a buffer from `bget` and has not got its lock yet. -/
structure Waiter where
  pid : Nat
  idx : Fin nbuf
  dev : BitVec 32
  blockno : BitVec 32

/-- The disk, the buffer cache and the log with all processes that use them.
`ops` are the processes in an operation, `leaving` the buffers that are
unlocked by a `brelse` which has not decremented `refcnt` yet, and `commit` is
the process that commits. -/
structure BlockSystem where
  disk : Nat → Block
  cache : Bcache
  log : Log
  ops : Multiset Nat
  waiting : Multiset Waiter
  leaving : Multiset (Fin nbuf)
  commit : Option (Nat × CommitStage)

instance (log : LogArea) (b : Nat) : Decidable (log.Inside b) := inferInstanceAs (Decidable (_ ∧ _))

/-- A `bread` of a block outside the log area is seen, with what it returns. -/
def LogArea.readEvent (log : LogArea) (blockno : BitVec 32) (v : Block) : Option StoreEvent :=
  if log.Inside blockno.toNat then none else some (.read blockno.toNat v)

/-- The process has the buffer of this block of disk 1, and its lock. -/
def Buf.HeldBy (b : Buf) (pid blockno : Nat) : Prop :=
  b.holder = some pid ∧ b.dev = 1 ∧ b.blockno.toNat = blockno

/-- The steps of the processes. A process that commits reads and releases
buffers like any other; the steps of `commit` itself are those that write. -/
inductive BlockStep (disksize : Nat) : BlockSystem → Option StoreEvent → BlockSystem → Prop
  | bget {disk cache log ops waiting leaving commit} {cache' : Bcache} {i : Fin nbuf} (pid : Nat)
      (dev blockno : BitVec 32) : bget cache dev blockno = .ok (cache', i) →
      BlockStep disksize ⟨disk, cache, log, ops, waiting, leaving, commit⟩ none
        ⟨disk, cache', log, ops, ⟨pid, i, dev, blockno⟩ ::ₘ waiting, leaving, commit⟩
  | bread {disk cache log ops waiting leaving commit} {w : Waiter} {disk' : Nat → Block} {b : Buf} :
      (cache.buf w.idx).holder = none → breadLocked disksize w.pid disk (cache.buf w.idx) = .ok (disk', b) →
      BlockStep disksize ⟨disk, cache, log, ops, w ::ₘ waiting, leaving, commit⟩ (log.readEvent w.blockno b.data)
        ⟨disk', cache.set w.idx b, log, ops, waiting, leaving, commit⟩
  | brelseUnlock {disk cache log ops waiting leaving commit} {b : Buf} (pid : Nat) (i : Fin nbuf) :
      brelseUnlock pid (cache.buf i) = .ok b →
      BlockStep disksize ⟨disk, cache, log, ops, waiting, leaving, commit⟩ none
        ⟨disk, cache.set i b, log, ops, waiting, i ::ₘ leaving, commit⟩
  | brelseLocked {disk cache log ops waiting leaving commit} {i : Fin nbuf} :
      BlockStep disksize ⟨disk, cache, log, ops, waiting, i ::ₘ leaving, commit⟩ none
        ⟨disk, brelseLocked cache i, log, ops, waiting, leaving, commit⟩
  | beginOp {disk cache log ops waiting leaving commit} {log' : Log} (pid : Nat) : beginOp log = some log' →
      BlockStep disksize ⟨disk, cache, log, ops, waiting, leaving, commit⟩ none
        ⟨disk, cache, log', pid ::ₘ ops, waiting, leaving, commit⟩
  | modify {disk cache log ops waiting leaving commit} {pid : Nat} (i : Fin nbuf) (v : Block) :
      (cache.buf i).holder = some pid → ¬log.Inside (cache.buf i).blockno.toNat → logWriteTests log = .ok () →
      BlockStep disksize ⟨disk, cache, log, ops, waiting, leaving, commit⟩
        (some (.modify (cache.buf i).blockno.toNat v))
        ⟨disk, cache.set i { cache.buf i with data := v, dirty := true }, logWriteLocked log
          (cache.buf i).blockno, ops,
          waiting, leaving, commit⟩
  | endOp {disk cache log ops waiting leaving commit} {pid : Nat} {log' : Log} {doCommit : Bool} :
      endOp log = .ok (log', doCommit) →
      BlockStep disksize ⟨disk, cache, log, pid ::ₘ ops, waiting, leaving, commit⟩ none
        ⟨disk, cache, log', ops, waiting, leaving, if doCommit then some (pid, .first log.lh) else commit⟩
  | writeLog {disk cache log ops waiting leaving} {pid tail : Nat} {blockno : BitVec 32} {disk' : Nat → Block}
      {b : Buf} (dst src : Fin nbuf) : log.lh[tail]? = some blockno →
      (cache.buf dst).HeldBy pid (log.start + tail + 1) → (cache.buf src).HeldBy pid blockno.toNat →
      bwrite disksize pid disk { cache.buf dst with data := (cache.buf src).data } = .ok (disk', b) →
      BlockStep disksize ⟨disk, cache, log, ops, waiting, leaving, some (pid, .writeLog tail)⟩ none
        ⟨disk', cache.set dst b, log, ops, waiting, leaving, some (pid, .writeLog (tail + 1))⟩
  | writeHead {disk cache log ops waiting leaving} {pid tail : Nat} {disk' : Nat → Block} {b : Buf} (i : Fin nbuf) :
      tail ≥ log.lh.length → (cache.buf i).HeldBy pid log.start →
      bwrite disksize pid disk { cache.buf i with data := putHeader (cache.buf i).data log.lh } = .ok (disk', b) →
      BlockStep disksize ⟨disk, cache, log, ops, waiting, leaving, some (pid, .writeLog tail)⟩ (some .commit)
        ⟨disk', cache.set i b, log, ops, waiting, leaving, some (pid, .installTrans 0)⟩
  | installTrans {disk cache log ops waiting leaving} {pid tail : Nat} {blockno : BitVec 32} {disk' : Nat → Block}
      {b : Buf} (lbuf dbuf : Fin nbuf) : log.lh[tail]? = some blockno →
      (cache.buf lbuf).HeldBy pid (log.start + tail + 1) → (cache.buf dbuf).HeldBy pid blockno.toNat →
      bwrite disksize pid disk { cache.buf dbuf with data := (cache.buf lbuf).data } = .ok (disk', b) →
      BlockStep disksize ⟨disk, cache, log, ops, waiting, leaving, some (pid, .installTrans tail)⟩
        (some (.install blockno.toNat (cache.buf lbuf).data))
        ⟨disk', cache.set dbuf b, log, ops, waiting, leaving, some (pid, .installTrans (tail + 1))⟩
  | erase {disk cache log ops waiting leaving} {pid tail : Nat} : tail ≥ log.lh.length →
      BlockStep disksize ⟨disk, cache, log, ops, waiting, leaving, some (pid, .installTrans tail)⟩ none
        ⟨disk, cache, { log with lh := [] }, ops, waiting, leaving, some (pid, .clear)⟩
  | clear {disk cache log ops waiting leaving} {pid : Nat} {disk' : Nat → Block} {b : Buf} (i : Fin nbuf) :
      (cache.buf i).HeldBy pid log.start →
      bwrite disksize pid disk { cache.buf i with data := putHeader (cache.buf i).data log.lh } = .ok (disk', b) →
      BlockStep disksize ⟨disk, cache, log, ops, waiting, leaving, some (pid, .clear)⟩ none
        ⟨disk', cache.set i b, log, ops, waiting, leaving, some (pid, .finished)⟩
  | finish {disk cache log ops waiting leaving} {pid : Nat} :
      BlockStep disksize ⟨disk, cache, log, ops, waiting, leaving, some (pid, .finished)⟩ none
        ⟨disk, cache, { log with committing := false }, ops, waiting, leaving, none⟩

theorem BlockStep.logStep {disksize : Nat} {s t : BlockSystem} {event : Option StoreEvent}
    (step : BlockStep disksize s event t) :
    LogStep s.log s.ops.card t.log t.ops.card := by
  cases step with
  | beginOp pid begins => exact Multiset.card_cons .. ▸ .beginOp begins
  | modify i v => exact .locked _
  | endOp ends => exact Multiset.card_cons .. ▸ .endOp ends
  | erase => exact .erase
  | finish => exact .committed
  | _ => exact .stays

/-- Nothing is cached and nothing is logged yet. -/
def BlockSystem.initial (log : LogArea) (disk : Nat → Block) : BlockSystem where
  disk := disk
  cache := .binit
  log := ⟨log, [], 0, false⟩
  ops := 0
  waiting := 0
  leaving := 0
  commit := none

end MiniOS
