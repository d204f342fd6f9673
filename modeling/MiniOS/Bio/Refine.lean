import MiniOS.Bio.Coherent

namespace MiniOS

open Lib Bcache Function

variable {a : PlainStore}

/-- The disk, the cache and the log stand for the plain store `a`. -/
structure StandsFor (s : BlockSystem) (a : PlainStore) : Prop where
  cache : s.cache.Inv s.waiting s.leaving
  data : ∃ entry, s.cache.Entries entry ∧ Coherent s.log (s.commit.map Prod.snd) s.disk entry a
  committing : s.log.committing = s.commit.isSome

/-- What holds in every state that the processes reach. -/
structure Represents (s : BlockSystem) (a : PlainStore) : Prop extends StandsFor s a where
  counts : s.log.Counts s.ops.card

theorem Represents.initial (log : LogArea) (disk : Nat → Block) :
    Represents (.initial log disk) ⟨disk, disk, disk⟩ where
  cache := by
    refine ⟨fun i => List.mem_reverse.2 (List.mem_finRange i), fun i j dev => ?_, fun i valid => ?_,
      fun i dirty => ?_, fun i held => absurd rfl held, fun w member => absurd member (Multiset.notMem_zero w),
      fun i => rfl⟩
    · exact absurd dev (show (0 : BitVec 32) ≠ 1 by decide)
    · cases valid
    · cases dirty
  data := by
    refine ⟨fun _ => none, fun n v dirty => ?_, ?_⟩
    · refine iff_of_false (by simp) ?_
      rintro ⟨i, _, _, valid, _⟩
      cases valid
    · exact ⟨by simp [BlockSystem.initial], List.nodup_nil, .inl rfl, by simp, by simp [BlockSystem.initial, pending],
        fun _ _ _ => rfl, fun _ _ => rfl, by simp, trivial⟩
  committing := rfl
  counts := ⟨rfl, fun _ => rfl⟩

theorem readEvent_step {log : LogArea} {blockno : BitVec 32} {v : Block}
    (current : ¬log.Inside blockno.toNat → v = a.current blockno.toNat) : a.Step (log.readEvent blockno v) a := by
  unfold LogArea.readEvent
  split
  · exact .idle
  · rename_i outside
    rw [current outside]
    exact .read

namespace Bcache

variable {c : Bcache} {i : Fin nbuf} {entry : Nat → Option (Block × Bool)} {waiting : Multiset Waiter}
  {leaving : Multiset (Fin nbuf)} {pid n : Nat}

/-- A process that has a buffer sees the data of its block. -/
theorem Entries.held (entries : c.Entries entry) (inv : c.Inv waiting leaving) (held : (c.buf i).HeldBy pid n) :
    entry n = some ((c.buf i).data, (c.buf i).dirty) := by
  obtain ⟨holder, dev, blockno⟩ := held
  exact (entries _ _ _).2 ⟨i, dev, blockno, inv.held i (by rw [holder]; simp), rfl, rfl⟩

/-- `bwrite` of new data for a block. -/
theorem Entries.bwrite {disksize : Nat} {disk disk' : Nat → Block} {v : Block} {b : Buf} (entries : c.Entries entry)
    (inv : c.Inv waiting leaving) (held : (c.buf i).HeldBy pid n)
    (call : MiniOS.bwrite disksize pid disk { c.buf i with data := v } = .ok (disk', b)) :
    disk' = update disk n v ∧ (c.set i b).Inv waiting leaving ∧
      (c.set i b).Entries (update entry n (some (v, false))) := by
  obtain ⟨holder, dev, rfl⟩ := held
  obtain ⟨rfl, rfl⟩ := bwrite_spec call
  exact ⟨rfl, inv.write (by rw [holder]; simp) ⟨rfl, rfl⟩ rfl rfl rfl, entries.set inv ⟨rfl, rfl⟩ rfl dev⟩

end Bcache

theorem Coherent.counted {log : Log} {stage : Option CommitStage} {disk : Nat → Block}
    {entry : Nat → Option (Block × Bool)} (co : Coherent log stage disk entry a) (outstanding : Int)
    (committing : Bool) :
    Coherent { log with outstanding := outstanding, committing := committing } stage disk entry a := by
  have same : pending { log with outstanding := outstanding, committing := committing } stage =
      pending log stage := by
    unfold pending
    split <;> rfl
  have stages : StageInv { log with outstanding := outstanding, committing := committing } disk a stage =
      StageInv log disk a stage := by
    unfold StageInv
    split <;> rfl
  exact ⟨co.outside, co.nodup, co.room, co.current, same ▸ co.pinned, same ▸ co.clean, co.home, co.logged,
    stages ▸ co.stages⟩

namespace Represents

variable {disksize : Nat} {disk : Nat → Block} {cache : Bcache} {log : Log} {ops : Multiset Nat}
  {waiting : Multiset Waiter} {leaving : Multiset (Fin nbuf)} {commit : Option (Nat × CommitStage)} {a : PlainStore}
  {disk' : Nat → Block} {b : Buf} {pid : Nat} {i : Fin nbuf} {v : Block}

theorem bread {w : Waiter}
    (rep : Represents ⟨disk, cache, log, ops, w ::ₘ waiting, leaving, commit⟩ a)
    (free : (cache.buf w.idx).holder = none)
    (call : breadLocked disksize w.pid disk (cache.buf w.idx) = .ok (disk', b)) :
    a.Step (log.readEvent w.blockno b.data) a ∧
      StandsFor ⟨disk', cache.set w.idx b, log, ops, waiting, leaving, commit⟩ a := by
  obtain ⟨entry, entries, co⟩ := rep.data
  have inv : cache.Inv (w ::ₘ waiting) leaving := rep.cache
  obtain ⟨_, blockno⟩ := inv.named w (Multiset.mem_cons_self _ _)
  obtain ⟨rfl, ⟨valid, rfl⟩ | ⟨invalid, dev, rfl⟩⟩ := breadLocked_spec (inv.clean w.idx) call
  · have dev := inv.device w.idx valid
    have cached := (entries _ _ _).2 ⟨w.idx, dev, rfl, valid, rfl, rfl⟩
    rw [blockno] at cached
    exact ⟨readEvent_step fun outside => co.current _ _ _ outside cached,
      inv.lock free ⟨rfl, rfl⟩ valid dev (by simp) rfl,
      ⟨entry, entries.congr (sameData_set ⟨⟨rfl, rfl⟩, rfl, rfl, rfl⟩), co⟩, rep.committing⟩
  · have missing : ∀ v dirty, entry (cache.buf w.idx).blockno.toNat ≠ some (v, dirty) := by
      intro v dirty cached
      obtain ⟨j, devj, same, validj, _⟩ := (entries _ _ _).1 cached
      rw [inv.unique j w.idx devj dev (BitVec.eq_of_toNat_eq same), invalid] at validj
      cases validj
    have loaded := co.load missing
    refine ⟨readEvent_step fun outside => ?_, ?_⟩
    · rw [← blockno] at outside ⊢
      exact loaded.current _ _ _ outside (update_self ..)
    exact ⟨inv.lock free ⟨rfl, rfl⟩ rfl dev (by simp) rfl,
      ⟨_, entries.set inv ⟨rfl, rfl⟩ rfl dev, loaded⟩, rep.committing⟩

section

variable (rep : Represents ⟨disk, cache, log, ops, waiting, leaving, commit⟩ a)
include rep

theorem no_commit (some : ops.card ≠ 0) : commit = none :=
  Option.isNone_iff_eq_none.1 (Option.isSome_eq_false_iff.1 (rep.committing.symm.trans (rep.counts.idle some)))

/-- `log_write` passes its tests only while nothing commits. -/
theorem logging_no_commit
    (tests : logWriteTests log = .ok ()) : commit = none := by
  have outstanding : log.outstanding = ops.card := rep.counts.outstanding
  have positive : ¬log.outstanding < 1 := by
    unfold logWriteTests at tests
    split at tests
    · cases tests
    · split at tests
      · cases tests
      · assumption
  exact rep.no_commit fun empty => positive (by rw [outstanding, empty]; decide)

/-- During an operation a modification can be logged. -/
theorem modify (holder : (cache.buf i).holder = some pid)
    (outside : ¬log.Inside (cache.buf i).blockno.toNat) (tests : logWriteTests log = .ok ()) :
    StandsFor ⟨disk, cache.set i { cache.buf i with data := v, dirty := true },
      logWriteLocked log (cache.buf i).blockno, ops, waiting, leaving, commit⟩
      { a with current := update a.current (cache.buf i).blockno.toNat v } := by
  obtain ⟨entry, entries, co⟩ := rep.data
  have inv : cache.Inv waiting leaving := rep.cache
  have none := rep.logging_no_commit tests
  subst none
  have held : (cache.buf i).holder ≠ none := by rw [holder]; simp
  have valid := inv.held i held
  exact ⟨inv.write held ⟨rfl, rfl⟩ valid rfl rfl,
    ⟨_, entries.set inv ⟨rfl, rfl⟩ valid (inv.device i valid), co.modify outside tests⟩, rep.committing⟩

end

theorem endOp {log' : Log} {doCommit : Bool}
    (rep : Represents ⟨disk, cache, log, pid ::ₘ ops, waiting, leaving, commit⟩ a)
    (ends : MiniOS.endOp log = .ok (log', doCommit)) :
    StandsFor ⟨disk, cache, log', ops, waiting, leaving,
      if doCommit then some (pid, .first log.lh) else commit⟩ a := by
  obtain ⟨entry, entries, co⟩ := rep.data
  obtain ⟨_, _, rfl⟩ := endOp_eq_ok ends
  have none : commit = none := rep.no_commit (by simp)
  subst none
  refine ⟨rep.cache, ⟨entry, entries, ?_⟩, ?_⟩
  · cases doCommit with
    | false => exact co.counted _ _
    | true => exact co.start _ _
  · cases doCommit <;> rfl

/-- A step of `commit` writes a block. -/
theorem bwrite {n : Nat} {stage stage' : CommitStage}
    {a' : PlainStore} (rep : Represents ⟨disk, cache, log, ops, waiting, leaving, some (pid, stage)⟩ a)
    (held : (cache.buf i).HeldBy pid n)
    (call : MiniOS.bwrite disksize pid disk { cache.buf i with data := v } = .ok (disk', b))
    (goesOn : ∀ entry, cache.Entries entry → Coherent log (some stage) disk entry a →
      Coherent log (some stage') (update disk n v) (update entry n (some (v, false))) a') :
    StandsFor ⟨disk', cache.set i b, log, ops, waiting, leaving, some (pid, stage')⟩ a' := by
  obtain ⟨entry, entries, co⟩ := rep.data
  obtain ⟨rfl, inv, entries'⟩ := entries.bwrite rep.cache held call
  exact ⟨inv, ⟨_, entries', goesOn entry entries co⟩, rep.committing⟩

theorem step {s s' : BlockSystem} {event : Option StoreEvent} (rep : Represents s a)
    (step : BlockStep disksize s event s') : ∃ b, a.Step event b ∧ Represents s' b := by
  suffices stands : ∃ b, a.Step event b ∧ StandsFor s' b by
    obtain ⟨b, answer, stands⟩ := stands
    exact ⟨b, answer, stands, step.logStep.counts rep.counts⟩
  obtain ⟨entry, entries, co⟩ := rep.data
  cases step with
  | bget pid dev blockno call =>
    obtain ⟨inv, entry', entries', evicts⟩ := bget_spec rep.cache entries pid call
    exact ⟨a, .idle, inv, ⟨entry', entries', co.evict evicts⟩, rep.committing⟩
  | bread free call =>
    obtain ⟨answer, rep'⟩ := rep.bread free call
    exact ⟨a, answer, rep'⟩
  | brelseUnlock pid i call =>
    obtain ⟨holder, rfl⟩ := brelseUnlock_spec call
    exact ⟨a, .idle, rep.cache.unlock (by rw [holder]; simp),
      ⟨entry, entries.congr (sameData_set ⟨⟨rfl, rfl⟩, rfl, rfl, rfl⟩), co⟩, rep.committing⟩
  | brelseLocked =>
    exact ⟨a, .idle, rep.cache.drop, ⟨entry, entries.drop _, co⟩, rep.committing⟩
  | beginOp pid admitted =>
    obtain ⟨-, -, rfl⟩ := beginOp_eq_some admitted
    exact ⟨a, .idle, rep.cache, ⟨entry, entries, co.counted _ _⟩, rep.committing⟩
  | modify i v holder outside tests => exact ⟨_, .modify, rep.modify holder outside tests⟩
  | endOp ends => exact ⟨a, .idle, rep.endOp ends⟩
  | writeLog dst src here held held' call =>
    exact ⟨a, .idle, rep.bwrite held call fun entry entries co => co.writeLog here (entries.held rep.cache held')⟩
  | writeHead i all held call => exact ⟨_, .commit, rep.bwrite held call fun _ _ co => co.writeHead all⟩
  | installTrans lbuf dbuf here held held' call =>
    have data := co.log_block here (entries.held rep.cache held)
    rw [data] at call ⊢
    exact ⟨_, .install, rep.bwrite held' call fun _ _ co => co.installTrans here⟩
  | erase all =>
    exact ⟨a, .idle, rep.cache, ⟨entry, entries, co.erase all⟩, rep.committing⟩
  | clear i held call => exact ⟨a, .idle, rep.bwrite held call fun _ _ co => co.clear⟩
  | finish =>
    exact ⟨a, .idle, rep.cache, ⟨entry, entries, co.finish⟩, rfl⟩

end Represents

/-- The buffer cache and the log together behave as a plain store of blocks:
every `bread` outside the log area returns the latest modification that was
logged, and nothing gets to its home location before it has committed. -/
theorem block_layer_refines_store {disksize : Nat} {log : LogArea} {disk : Nat → Block} {events : List StoreEvent}
    {s : BlockSystem} (trace : Trace (BlockStep disksize) (.initial log disk) events s) :
    ∃ a, Trace PlainStore.Step ⟨disk, disk, disk⟩ events a ∧ ∀ b, ¬s.log.Inside b → s.disk b = a.home b := by
  obtain ⟨a, answer, rep⟩ := trace.simulates Represents.step (Represents.initial log disk)
  obtain ⟨_, _, co⟩ := rep.data
  exact ⟨a, answer, co.home⟩

/-- One process reads block 40, modifies it and commits. -/
theorem block_layer_refines_store_one_commit : ∃ s a,
    Trace (BlockStep 1000) (.initial ⟨2, 30⟩ fun _ _ => 0) [.read 40 fun _ => 0, .modify 40 fun _ => 7,
      .read 40 fun _ => 7, .commit, .read 40 fun _ => 7, .install 40 fun _ => 7] s ∧ s.commit = none ∧
    Trace PlainStore.Step ⟨fun _ _ => 0, fun _ _ => 0, fun _ _ => 0⟩ [.read 40 fun _ => 0, .modify 40 fun _ => 7,
      .read 40 fun _ => 7, .commit, .read 40 fun _ => 7, .install 40 fun _ => 7] a ∧
    ∀ b, ¬s.log.Inside b → s.disk b = a.home b := by
  have begun : Trace (BlockStep 1000) (.initial ⟨2, 30⟩ fun _ _ => 0) [] (.initial ⟨2, 30⟩ fun _ _ => 0) := .start
  have read := ((begun.silent (.beginOp 1 rfl)).silent (.bget 1 1 40 rfl)).next (.bread rfl rfl)
  have modified := ((read.next (.modify 0 (fun _ => 7) rfl (by decide) rfl)).silent (.brelseUnlock 1 0 rfl)).silent
    .brelseLocked
  have ended := modified.silent (.endOp rfl)
  have copying := (((ended.silent (.bget 1 1 3 rfl)).next (.bread rfl rfl)).silent (.bget 1 1 40 rfl)).next
    (.bread rfl rfl)
  have copied := ((((copying.silent (.writeLog 1 0 rfl ⟨rfl, rfl, rfl⟩ ⟨rfl, rfl, rfl⟩ rfl)).silent
    (.brelseUnlock 1 0 rfl)).silent .brelseLocked).silent (.brelseUnlock 1 1 rfl)).silent .brelseLocked
  have committed := ((copied.silent (.bget 1 1 2 rfl)).next (.bread rfl rfl)).next
    (.writeHead 2 (by decide) ⟨rfl, rfl, rfl⟩ rfl)
  have released := (committed.silent (.brelseUnlock 1 2 rfl)).silent .brelseLocked
  have installing := (((released.silent (.bget 1 1 3 rfl)).next (.bread rfl rfl)).silent (.bget 1 1 40 rfl)).next
    (.bread rfl rfl)
  have installed := installing.next (.installTrans 1 0 rfl ⟨rfl, rfl, rfl⟩ ⟨rfl, rfl, rfl⟩ rfl)
  have clearing := ((installed.silent (.erase (by decide))).silent (.bget 1 1 2 rfl)).next (.bread rfl rfl)
  have finished := (clearing.silent (.clear 2 ⟨rfl, rfl, rfl⟩ rfl)).silent .finish
  obtain ⟨a, answer, home⟩ := block_layer_refines_store finished
  exact ⟨_, a, finished, rfl, answer, home⟩

end MiniOS
