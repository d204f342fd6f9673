import MiniOS.Bio.Pinned
import MiniOS.Proc.Table
import Mathlib.Logic.Relation

namespace MiniOS

open Relation Function

variable {t : BlockSystem × (Nat → Finset (BitVec 32))} {log : LogArea} {n : Nat}

/-- How many buffers a process has or waits for. -/
def BlockSystem.holds (s : BlockSystem) (pid : Nat) : Nat :=
  s.waiting.countP (·.pid = pid) + (Finset.univ.filter fun i => (s.cache.buf i).holder = some pid).card

/-- There are at most `NPROC` processes, each in at most one operation and with at most two buffers. -/
structure BlockSystem.Modest (s : BlockSystem) : Prop where
  two : ∀ pid, s.holds pid ≤ 2
  procs : ∀ pid, nproc ≤ pid → s.holds pid = 0 ∧ pid ∉ s.ops
  leaving : s.leaving.card ≤ nproc
  once : s.ops.Nodup

/-- The steps of such processes, with the blocks that each operation has logged. Only
operations log, and none of them logs more than `MAXOPBLOCKS` different blocks. -/
inductive AdmittedStep (disksize : Nat) :
    BlockSystem × (Nat → Finset (BitVec 32)) → BlockSystem × (Nat → Finset (BitVec 32)) → Prop
  | logs {s s' : BlockSystem} {logged : Nat → Finset (BitVec 32)} {pid : Nat} {i : Fin nbuf} {v : Block} :
      BlockStep disksize s (some (.modify (s.cache.buf i).blockno.toNat v)) s' →
      (s.cache.buf i).holder = some pid → pid ∈ s.ops →
      (insert (s.cache.buf i).blockno (logged pid)).card ≤ maxopblocks →
      AdmittedStep disksize (s, logged) (s', update logged pid (insert (s.cache.buf i).blockno (logged pid)))
  | other {s s' : BlockSystem} {logged : Nat → Finset (BitVec 32)} {event : Option StoreEvent} :
      BlockStep disksize s event s' → (∀ n v, event ≠ some (.modify n v)) → s'.Modest →
      AdmittedStep disksize (s, logged) (s', fun pid => if pid ∈ s'.ops then logged pid else ∅)

variable {disksize : Nat} {s s' : BlockSystem} {logged logged' : Nat → Finset (BitVec 32)}

theorem AdmittedStep.tidy {t' : BlockSystem × (Nat → Finset (BitVec 32))} (step : AdmittedStep disksize t t')
    (tidy : t.1.Tidy) : t'.1.Tidy := by
  cases step with
  | logs step | other step => exact tidy.step step

theorem BlockSystem.Tidy.run {disk : Nat → Block}
    (run : ReflTransGen (AdmittedStep disksize) (.initial log disk, fun _ => ∅) t) : t.1.Tidy := by
  induction run with
  | refl => exact .initial log disk
  | tail _ last ih => exact last.tidy ih

/-- No process has two buffers. -/
def Bcache.Apart (c : Bcache) : Prop :=
  ∀ i pid, (c.buf i).holder = some pid → pid < nproc ∧ ∀ j, (c.buf j).holder = some pid → j = i

namespace Bcache.Apart

variable {c : Bcache} {i : Fin nbuf} {b : Buf} {pid : Nat}

theorem set_none (apart : c.Apart) (free : b.holder = none) : (c.set i b).Apart := by
  have old {j : Fin nbuf} {pid : Nat} (held : ((c.set i b).buf j).holder = some pid) :
      (c.buf j).holder = some pid := by
    by_cases here : j = i
    · rw [here, set_buf_self, free] at held
      cases held
    · rwa [set_buf_ne here] at held
  intro j pid held
  obtain ⟨small, only⟩ := apart j pid (old held)
  exact ⟨small, fun k again => only k (old again)⟩

theorem set_some (apart : c.Apart) (held : b.holder = some pid) (small : pid < nproc)
    (new : ∀ j, (c.buf j).holder ≠ some pid) : (c.set i b).Apart := by
  intro j p holder
  by_cases here : j = i
  · rw [here, set_buf_self, held] at holder
    cases holder
    refine ⟨small, fun k again => ?_⟩
    by_contra other
    rw [set_buf_ne (here ▸ other)] at again
    exact new k again
  · rw [set_buf_ne here] at holder
    obtain ⟨small, only⟩ := apart j p holder
    refine ⟨small, fun k again => ?_⟩
    by_cases there : k = i
    · rw [there, set_buf_self, held] at again
      cases again
      exact absurd holder (new j)
    · rw [set_buf_ne there] at again
      exact only k again

end Bcache.Apart

theorem BlockSystem.Modest.of_apart (apart : s.cache.Apart) (ops : s.ops ≤ {0, 1}) (waiting : s.waiting.card ≤ 1)
    (waiters : ∀ w ∈ s.waiting, w.pid < nproc) (leaving : s.leaving.card ≤ 1) : s.Modest := by
  have one (pid : Nat) : (Finset.univ.filter fun i => (s.cache.buf i).holder = some pid).card ≤ 1 := by
    refine Finset.card_le_one.2 fun i first j second => ?_
    exact (apart j pid (Finset.mem_filter.1 second).2).2 i (Finset.mem_filter.1 first).2
  refine ⟨fun pid => ?_, fun pid large => ⟨?_, ?_⟩, leaving.trans (by decide), ?_⟩
  · exact Nat.add_le_add ((Multiset.countP_le_card _ _).trans waiting) (one pid)
  · refine Nat.add_eq_zero_iff.2 ⟨?_, ?_⟩
    · exact Multiset.countP_eq_zero.2 fun w member same => Nat.not_lt.2 large (same ▸ waiters w member)
    · refine Finset.card_eq_zero.2 (Finset.filter_eq_empty_iff.2 fun i _ held => ?_)
      exact Nat.not_lt.2 large (apart i pid held).1
  · intro member
    have small : pid = 0 ∨ pid = 1 := by simpa using Multiset.mem_of_le ops member
    have large : 16 ≤ pid := large
    omega
  · exact Multiset.nodup_of_le ops (by decide)

/-- A step that logs nothing adds nothing to the accounts. -/
theorem BlockStep.admitted {event : Option StoreEvent} (step : BlockStep disksize s event s')
    (silent : ∀ n v, event ≠ some (.modify n v)) (modest : s'.Modest) (logged : Nat → Finset (BitVec 32)) :
    ∃ logged', (∀ p, (logged' p).card ≤ (logged p).card) ∧ AdmittedStep disksize (s, logged) (s', logged') := by
  refine ⟨_, fun p => ?_, .other step silent modest⟩
  split
  · exact Nat.le_refl _
  · exact Nat.zero_le _

/-- The operations of the processes 0 and 1 are open, and nothing else goes on. -/
def twoOps (cache : Bcache) (log : Log) : BlockSystem := ⟨fun _ _ => 0, cache, log, {0, 1}, 0, 0, none⟩

/-- The blocks from 100 on are read one after another, and their buffers cannot be recycled. -/
structure Crowded (cache : Bcache) (log : Log) (used : Finset (Fin nbuf)) : Prop where
  area : log.toLogArea = ⟨2, 30⟩
  outstanding : log.outstanding = 2
  logs : log.lh.length ≤ used.card
  listed : ∀ i, i ∈ cache.list
  free : ∀ i ∉ used, (cache.buf i).holder = none
  busy : ∀ i, i ∈ used ↔ ¬((cache.buf i).refcnt = 0 ∧ (cache.buf i).dirty = false)
  known : ∀ i, (cache.buf i).dev = 1 → (cache.buf i).blockno.toNat < 100 + used.card
  apart : cache.Apart

/-- The buffer of a block that a process waits for. -/
def awaited (n : Nat) (data : Block) : Buf := ⟨1, BitVec.ofNat 32 n, false, false, 1, none, data⟩

/-- The buffer of a block that process `pid` has read. -/
def fetched (n pid : Nat) : Buf := ⟨1, BitVec.ofNat 32 n, true, false, 1, some pid, fun _ => 0⟩

theorem LogArea.readEvent_ne_modify {blockno : BitVec 32} {v : Block} (n : Nat) (v' : Block) :
    log.readEvent blockno v ≠ some (.modify n v') := by
  unfold LogArea.readEvent
  split
  · exact nofun
  · exact nofun

theorem bread_awaited (small : n < 1000) (pid : Nat) (cache : Bcache) (log : Log) (i : Fin nbuf) (data : Block) :
    BlockStep 1000 ⟨fun _ _ => 0, cache.set i (awaited n data), log, {0, 1},
      ⟨pid, i, 1, BitVec.ofNat 32 n⟩ ::ₘ 0, 0, none⟩
      (log.readEvent (BitVec.ofNat 32 n) fun _ => 0) (twoOps (cache.set i (fetched n pid)) log) := by
  have read : breadLocked 1000 pid (fun _ _ => 0) (awaited n data) = .ok (fun _ _ => 0, fetched n pid) := by
    simp [breadLocked, awaited, iderw, fetched]
    omega
  rw [twoOps, ← Bcache.set_set cache i (awaited n data) (fetched n pid)]
  refine BlockStep.bread (w := ⟨pid, i, 1, BitVec.ofNat 32 n⟩) (b := fetched n pid) ?_ ?_
  · exact congrArg Buf.holder (Bcache.set_buf_self ..)
  · rw [Bcache.set_buf_self]
    exact read

theorem modify_fetched (bounds : 100 ≤ n ∧ n < 1000) (pid : Nat) (cache : Bcache) {log : Log} (i : Fin nbuf)
    (area : log.toLogArea = ⟨2, 30⟩) (outstanding : log.outstanding = 2) (room : log.lh.length < 29) :
    BlockStep 1000 (twoOps (cache.set i (fetched n pid)) log)
      (some (.modify ((cache.set i (fetched n pid)).buf i).blockno.toNat fun _ => 0))
      (twoOps (cache.set i { fetched n pid with dirty := true }) (logWriteLocked log (BitVec.ofNat 32 n))) := by
  have outside : ¬log.Inside (BitVec.ofNat 32 n).toNat := by
    rw [BitVec.toNat_ofNat, Nat.mod_eq_of_lt (by omega), area, LogArea.Inside]
    dsimp only
    omega
  have tests : logWriteTests log = .ok () := by
    have size : log.size = 30 := congrArg LogArea.size area
    rw [logWriteTests, if_neg, if_neg]
    · omega
    · rw [size, logsize]
      omega
  have same := Bcache.set_buf_self cache i (fetched n pid)
  have step : BlockStep 1000 (twoOps (cache.set i (fetched n pid)) log) _ _ :=
    .modify i (fun _ => 0) (congrArg Buf.holder same) (by rwa [same]) tests
  rw [Bcache.set_set] at step
  simp only [same] at step ⊢
  exact step

theorem brelseUnlock_fetched (n pid : Nat) (cache : Bcache) (log : Log) (i : Fin nbuf) :
    BlockStep 1000 (twoOps (cache.set i { fetched n pid with dirty := true }) log) none
      ⟨fun _ _ => 0, cache.set i { fetched n pid with dirty := true, holder := none }, log, {0, 1},
        0, i ::ₘ 0, none⟩ := by
  rw [← Bcache.set_set cache i { fetched n pid with dirty := true }
    { fetched n pid with dirty := true, holder := none }]
  refine .brelseUnlock pid i ?_
  rw [Bcache.set_buf_self]
  simp [brelseUnlock, fetched]

/-- The buffer of a block that is logged and released. -/
def stored (n : Nat) : Buf := ⟨1, BitVec.ofNat 32 n, true, true, 0, none, fun _ => 0⟩

/-- The buffer of a block that was logged is released. -/
theorem Bcache.Apart.brelse {cache : Bcache} (apart : cache.Apart) (listed : ∀ j, j ∈ cache.list)
    (n pid : Nat) (log : Log) (i : Fin nbuf) (account : Nat → Finset (BitVec 32)) :
    ∃ cache' account', (∀ p, (account' p).card ≤ (account p).card) ∧
      ReflTransGen (AdmittedStep 1000) (twoOps (cache.set i { fetched n pid with dirty := true }) log, account)
        (twoOps cache' log, account') ∧
      cache'.buf = update cache.buf i (stored n) ∧ (∀ j, j ∈ cache'.list) ∧ cache'.Apart := by
  have unlocked : (cache.set i { fetched n pid with dirty := true, holder := none }).Apart := apart.set_none rfl
  have buf : (brelseLocked (cache.set i { fetched n pid with dirty := true, holder := none }) i).buf =
      (cache.set i (stored n)).buf := by
    rw [brelseLocked_buf, set_buf_self, Bcache.set, update_idem]
    rfl
  have dropped : (brelseLocked (cache.set i { fetched n pid with dirty := true, holder := none }) i).Apart := by
    unfold Bcache.Apart
    rw [buf]
    exact apart.set_none rfl
  have nobody (w : Waiter) (member : w ∈ (0 : Multiset Waiter)) : w.pid < nproc :=
    absurd member (Multiset.notMem_zero w)
  obtain ⟨first, fewer, unlocks⟩ := (brelseUnlock_fetched n pid cache log i).admitted
    (fun _ _ wrong => by cases wrong)
    (.of_apart unlocked le_rfl (Nat.zero_le 1) nobody (Nat.le_refl 1)) account
  have drop : BlockStep 1000 ⟨fun _ _ => 0, cache.set i { fetched n pid with dirty := true, holder := none },
    log, {0, 1}, 0,
      i ::ₘ 0, none⟩ none
        (twoOps (brelseLocked (cache.set i { fetched n pid with dirty := true, holder := none }) i) log) :=
    .brelseLocked
  obtain ⟨second, fewer', drops⟩ := drop.admitted (fun _ _ wrong => by cases wrong)
    (.of_apart dropped le_rfl (Nat.zero_le 1) nobody (Nat.zero_le 1)) first
  exact ⟨_, second, fun p => (fewer' p).trans (fewer p), .tail (.single unlocks) drops, buf,
    mem_brelseLocked_list (c := cache.set i _) listed i, dropped⟩

namespace Crowded

variable {cache : Bcache} {log : Log} {used : Finset (Fin nbuf)} {pid : Nat} {i : Fin nbuf}

section

variable (crowded : Crowded cache log used)
include crowded

theorem missing (room : used.card ≤ nbuf) (j : Fin nbuf) :
    ¬((cache.buf j).dev = 1 ∧ (cache.buf j).blockno = BitVec.ofNat 32 (100 + used.card)) := by
  rintro ⟨device, same⟩
  have before := crowded.known j device
  have room : used.card ≤ 30 := room
  rw [same, BitVec.toNat_ofNat, Nat.mod_eq_of_lt (by omega)] at before
  exact Nat.lt_irrefl _ before

theorem bget (room : used.card < nbuf) : ∃ i ∉ used,
    MiniOS.bget cache 1 (BitVec.ofNat 32 (100 + used.card)) =
      .ok (cache.set i (awaited (100 + used.card) (cache.buf i).data), i) := by
  have missing := crowded.missing (Nat.le_of_lt room)
  rcases Bcache.bget_ok_or_panic crowded.listed 1 (BitVec.ofNat 32 (100 + used.card)) with
    ⟨⟨⟨cache', i⟩, call⟩, _⟩ | ⟨_, _, all⟩
  · rcases Bcache.bget_cases call with ⟨device, same, _⟩ | ⟨_, unused, clean, _, rfl⟩
    · exact absurd ⟨device, same⟩ (missing i)
    · have outside : i ∉ used := fun member => (crowded.busy i).1 member ⟨unused, clean⟩
      have free := crowded.free i outside
      simp only [free] at call
      exact ⟨i, outside, call⟩
  · have full : used = Finset.univ := Finset.eq_univ_of_forall fun i => (crowded.busy i).2 (all i)
    rw [full, Finset.card_univ, Fintype.card_fin] at room
    exact absurd room (Nat.lt_irrefl _)

/-- A process reads the next block and keeps the buffer. -/
theorem fetch (room : used.card < nbuf) (small : pid < nproc)
    (new : ∀ j, (cache.buf j).holder ≠ some pid) (logged : Nat → Finset (BitVec 32)) : ∃ i ∉ used, ∃ logged',
    (∀ p, (logged' p).card ≤ (logged p).card) ∧
    ReflTransGen (AdmittedStep 1000) (twoOps cache log, logged)
      (twoOps (cache.set i (fetched (100 + used.card) pid)) log, logged') ∧
    (cache.set i (fetched (100 + used.card) pid)).Apart := by
  obtain ⟨i, unused, call⟩ := crowded.bget room
  have apart := crowded.apart.set_some (i := i) (b := fetched (100 + used.card) pid) rfl small new
  have waits : (cache.set i (awaited (100 + used.card) (cache.buf i).data)).Apart := crowded.apart.set_none rfl
  have requested : BlockStep 1000 (twoOps cache log) none _ := .bget pid 1 _ call
  obtain ⟨first, fewer, step⟩ := requested.admitted (fun _ _ => nofun)
    (.of_apart waits le_rfl (Nat.le_refl 1) (fun w member => Multiset.mem_singleton.1 member ▸ small)
      (Nat.zero_le 1)) logged
  have room : used.card < 30 := room
  have read := bread_awaited (by omega : 100 + used.card < 1000) pid cache log i (cache.buf i).data
  obtain ⟨second, fewer', step'⟩ := read.admitted LogArea.readEvent_ne_modify
    (.of_apart apart le_rfl (Nat.zero_le 1) (fun w member => absurd member (Multiset.notMem_zero w))
      (Nat.zero_le 1)) first
  exact ⟨i, unused, second, fun p => (fewer' p).trans (fewer p), .tail (.single step) step', apart⟩

/-- One more buffer cannot be recycled. -/
theorem extend (new : i ∉ used) {b : Buf} {cache' : Bcache}
    {lh : List (BitVec 32)} (buf : cache'.buf = update cache.buf i b) (listed : ∀ j, j ∈ cache'.list)
    (apart : cache'.Apart) (block : b.blockno.toNat = 100 + used.card) (busy : ¬(b.refcnt = 0 ∧ b.dirty = false))
    (short : lh.length ≤ log.lh.length + 1) : Crowded cache' { log with lh := lh } (insert i used) := by
  have card : (insert i used).card = used.card + 1 := Finset.card_insert_of_notMem new
  refine ⟨crowded.area, crowded.outstanding, ?_, listed, fun j outside => ?_, fun j => ?_, fun j => ?_, apart⟩
  · rw [card]
    exact short.trans (Nat.add_le_add_right crowded.logs 1)
  · obtain ⟨other, outside⟩ := not_or.1 (Finset.mem_insert.not.1 outside)
    rw [buf, update_of_ne other]
    exact crowded.free j outside
  · rw [Finset.mem_insert, buf]
    by_cases here : j = i
    · subst here
      rw [update_self]
      exact iff_of_true (.inl rfl) busy
    · rw [update_of_ne here, ← crowded.busy j]
      exact or_iff_right here
  · rw [buf, card]
    by_cases here : j = i
    · rw [here, update_self, block]
      exact fun _ => by omega
    · rw [update_of_ne here]
      exact fun device => (crowded.known j device).trans (by omega)

end

theorem toNat_block (room : used.card < nbuf) : (BitVec.ofNat 32 (100 + used.card)).toNat = 100 + used.card := by
  have room : used.card < 30 := room
  rw [BitVec.toNat_ofNat, Nat.mod_eq_of_lt (by omega)]

theorem read (crowded : Crowded cache log used) (new : i ∉ used) (room : used.card < nbuf)
    (apart : (cache.set i (fetched (100 + used.card) pid)).Apart) :
    Crowded (cache.set i (fetched (100 + used.card) pid)) log (insert i used) :=
  crowded.extend new rfl crowded.listed apart (toNat_block room) (by simp [fetched]) (Nat.le_succ _)

/-- A process in an operation logs the next block and releases the buffer. -/
theorem logWrite (crowded : Crowded cache log used) (pid : Nat) (room : used.card < 29)
    (op : pid ∈ ({0, 1} : Multiset Nat)) (idle : ∀ j, (cache.buf j).holder = none) (logged : Nat → Finset (BitVec 32))
    (limit : (logged pid).card < maxopblocks) :
    ∃ i ∉ used, ∃ cache' log' logged', ReflTransGen (AdmittedStep 1000) (twoOps cache log, logged)
    (twoOps cache' log', logged') ∧
      Crowded cache' log' (insert i used) ∧ (∀ j, (cache'.buf j).holder = none) ∧
      (logged' pid).card ≤ (logged pid).card + 1 ∧ ∀ p ≠ pid, (logged' p).card ≤ (logged p).card := by
  have free (j : Fin nbuf) : (cache.buf j).holder ≠ some pid := by
    rw [idle j]
    exact nofun
  have small : pid < nproc := by
    have small : pid = 0 ∨ pid = 1 := by simpa using op
    rcases small with rfl | rfl
    · decide
    · decide
  obtain ⟨i, new, first, fewer, fetches, apart⟩ := crowded.fetch (room.trans (by decide)) small free logged
  have modify := modify_fetched (n := 100 + used.card) (by omega) pid cache i crowded.area crowded.outstanding
    (crowded.logs.trans_lt room)
  have same := Bcache.set_buf_self cache i (fetched (100 + used.card) pid)
  have least : (insert ((cache.set i (fetched (100 + used.card) pid)).buf i).blockno (first pid)).card ≤
      (logged pid).card + 1 :=
    (Finset.card_insert_le _ _).trans (Nat.add_le_add_right (fewer pid) 1)
  have modifies : AdmittedStep 1000 _ _ := .logs modify (congrArg Buf.holder same) op (least.trans limit)
  obtain ⟨cache', second, fewer', releases, buf, listed, apart'⟩ :=
    crowded.apart.brelse crowded.listed (100 + used.card) pid
    (logWriteLocked log (BitVec.ofNat 32 (100 + used.card))) i
    (update first pid (insert ((cache.set i (fetched (100 + used.card) pid)).buf i).blockno (first pid)))
  refine ⟨i, new, cache', _, second, (fetches.tail modifies).trans releases, ?_, fun j => ?_, ?_, fun p other => ?_⟩
  · exact crowded.extend new buf listed apart' (toNat_block (room.trans (by decide))) (by simp [stored])
      (length_absorb_le _ _)
  · rw [buf]
    by_cases here : j = i
    · rw [here, update_self]
      rfl
    · rw [update_of_ne here]
      exact idle j
  · have last := fewer' pid
    rw [update_self] at last
    exact last.trans least
  · have last := fewer' p
    rw [update_of_ne other] at last
    exact last.trans (fewer p)

end Crowded

/-- The two operations have each logged up to ten blocks. -/
theorem exists_logged (n : Nat) (few : n ≤ 20) : ∃ cache log used account,
    ReflTransGen (AdmittedStep 1000) (.initial ⟨2, 30⟩ fun _ _ => 0, fun _ => ∅) (twoOps cache log, account) ∧
    Crowded cache log used ∧ used.card = n ∧ (∀ j, (cache.buf j).holder = none) ∧
    (account 0).card ≤ n ∧ (account 1).card ≤ n - 10 := by
  induction n with
  | zero =>
    have idle : (Bcache.binit).Apart := nofun
    have nobody (w : Waiter) (member : w ∈ (0 : Multiset Waiter)) : w.pid < nproc :=
      absurd member (Multiset.notMem_zero w)
    have first : BlockStep 1000 (.initial ⟨2, 30⟩ fun _ _ => 0) none _ := .beginOp 1 rfl
    obtain ⟨account, none, begins⟩ := first.admitted (fun _ _ => nofun)
      (.of_apart idle (by decide) (Nat.zero_le 1) nobody (Nat.zero_le 1)) fun _ => ∅
    have second : BlockStep 1000 ⟨fun _ _ => 0, .binit, ⟨⟨2, 30⟩, [], 1, false⟩, {1}, 0, 0, .none⟩ .none
        (twoOps .binit ⟨⟨2, 30⟩, [], 2, false⟩) := .beginOp 0 rfl
    obtain ⟨account', none', begins'⟩ := second.admitted (fun _ _ => nofun)
      (.of_apart idle le_rfl (Nat.zero_le 1) nobody (Nat.zero_le 1)) account
    refine ⟨_, _, ∅, account', .tail (.single begins) begins', ?_, rfl, fun _ => rfl, (none' 0).trans (none 0),
      (none' 1).trans (none 1)⟩
    refine ⟨rfl, rfl, Nat.zero_le _, fun i => ?_, fun _ _ => rfl, fun i => ?_, fun i device => ?_, idle⟩
    · exact List.mem_reverse.2 (List.mem_finRange i)
    · exact iff_of_false (Finset.notMem_empty i) (not_not.2 ⟨rfl, rfl⟩)
    · exact absurd device (by decide : ¬(0 : BitVec 32) = 1)
  | succ n ih =>
    obtain ⟨cache, log, used, account, run, crowded, card, idle, zero, one⟩ := ih (Nat.le_of_succ_le few)
    by_cases early : n < 10
    · obtain ⟨i, new, cache', log', account', more, crowded', idle', here, others⟩ := crowded.logWrite 0
        (by omega) (by decide) idle account (lt_of_le_of_lt zero early)
      have other := others 1 (by decide)
      refine ⟨cache', log', _, account', run.trans more, crowded', ?_, idle', ?_, ?_⟩
      · rw [Finset.card_insert_of_notMem new, card]
      · omega
      · omega
    · have limit : (account 1).card < maxopblocks := lt_of_le_of_lt one (by rw [maxopblocks]; omega)
      obtain ⟨i, new, cache', log', account', more, crowded', idle', here, others⟩ := crowded.logWrite 1
        (by omega) (by decide) idle account limit
      have other := others 0 (by decide)
      refine ⟨cache', log', _, account', run.trans more, crowded', ?_, idle', ?_, ?_⟩
      · rw [Finset.card_insert_of_notMem new, card]
      · omega
      · omega

/-- After that some processes read a block each. -/
theorem exists_read (m : Nat) (few : m ≤ 10) : ∃ cache log used account,
    ReflTransGen (AdmittedStep 1000) (.initial ⟨2, 30⟩ fun _ _ => 0, fun _ => ∅) (twoOps cache log, account) ∧
    Crowded cache log used ∧ used.card = 20 + m ∧ ∀ j pid, (cache.buf j).holder = some pid → pid < 2 + m := by
  induction m with
  | zero =>
    obtain ⟨cache, log, used, account, run, crowded, card, idle, _⟩ := exists_logged 20 (Nat.le_refl 20)
    refine ⟨cache, log, used, account, run, crowded, card, fun j pid held => ?_⟩
    rw [idle j] at held
    cases held
  | succ m ih =>
    obtain ⟨cache, log, used, account, run, crowded, card, held⟩ := ih (Nat.le_of_succ_le few)
    have room : used.card < nbuf := card.trans_lt (show 20 + m < 30 by omega)
    have small : 2 + m < nproc := (show 2 + m < 16 by omega)
    obtain ⟨i, new, account', _, more, apart⟩ := crowded.fetch room small
      (fun j again => Nat.lt_irrefl _ (held j _ again)) account
    refine ⟨_, log, _, account', run.trans more, crowded.read new room apart, ?_, fun j pid again => ?_⟩
    · rw [Finset.card_insert_of_notMem new, card]
      rfl
    · by_cases here : j = i
      · rw [here, Bcache.set_buf_self] at again
        cases again
        omega
      · rw [Bcache.set_buf_ne here] at again
        exact (held j pid again).trans (by omega)

/-- `bget` finds a buffer exactly if the block is cached, or fewer than `NBUF` buffers are in use
by the processes or pinned by the transaction. -/
theorem buffer_found_iff {log : LogArea} {disk : Nat → Block}
    (run : ReflTransGen (AdmittedStep disksize) (.initial log disk, fun _ => ∅) (s, logged)) (blockno : BitVec 32) :
    (∃ out, bget s.cache 1 blockno = .ok out) ↔
      (∃ i, (s.cache.buf i).dev = 1 ∧ (s.cache.buf i).blockno = blockno) ∨ s.pinned.card < nbuf := by
  have tidy : s.Tidy := BlockSystem.Tidy.run run
  exact tidy.bget_returns_iff blockno

/-- Two operations have logged ten blocks each and nine processes have read one block each. The next
block gets the buffer that is left. -/
theorem buffer_found_beside_29 : ∃ s account,
    ReflTransGen (AdmittedStep 1000) (.initial ⟨2, 30⟩ fun _ _ => 0, fun _ => ∅) (s, account) ∧ s.pinned.card = 29 ∧
    ∃ out, bget s.cache 1 129 = .ok out := by
  obtain ⟨cache, log, used, account, run, crowded, card, _⟩ := exists_read 9 (by decide)
  have tidy : (twoOps cache log).Tidy := .run run
  have pinned : (twoOps cache log).pinned = used := by
    ext i
    exact (not_iff_comm.mp (tidy.free_iff i).symm).symm.trans (crowded.busy i).symm
  rw [← pinned] at card
  exact ⟨_, account, run, card, (buffer_found_iff run 129).mpr (.inr (card.trans_lt (by decide)))⟩

/-- Two operations log ten blocks each and ten processes read one block each. There is no
buffer left for the next block. -/
theorem buffers_exhausted : ∃ s account,
    ReflTransGen (AdmittedStep 1000) (.initial ⟨2, 30⟩ fun _ _ => 0, fun _ => ∅) (s, account) ∧ s.holds 12 = 0 ∧
    bget s.cache 1 130 = .error (.panic "bget: no buffers") := by
  obtain ⟨cache, log, used, account, run, crowded, card, held⟩ := exists_read 10 (Nat.le_refl 10)
  have full : used = Finset.univ := Finset.card_eq_iff_eq_univ _ |>.mp (card.trans (Fintype.card_fin nbuf).symm)
  refine ⟨_, account, run, ?_, ?_⟩
  · refine Nat.add_eq_zero_iff.mpr ⟨rfl, Finset.card_eq_zero.mpr (Finset.filter_eq_empty_iff.mpr fun i _ again => ?_)⟩
    exact absurd (held i 12 again) (by decide)
  · rcases Bcache.bget_ok_or_panic crowded.listed 1 130 with ⟨_, found⟩ | ⟨panics, _⟩
    · rcases found with ⟨j, here⟩ | ⟨j, free⟩
      · have missing := crowded.missing (Nat.le_of_eq card) j
        rw [card] at missing
        exact absurd here missing
      · exact absurd free ((crowded.busy j).mp (full ▸ Finset.mem_univ j))
    · exact panics

end MiniOS
