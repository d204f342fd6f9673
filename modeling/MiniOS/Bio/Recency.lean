import MiniOS.Bio.Cached
import MiniOS.Bio.Links
import Mathlib.Logic.Relation

namespace MiniOS

open Lib Relation Function

/-- The linked buffers and the processes that use them. `released` is the time at which
`refcnt` last became zero, by a `clock` that counts the sections of `brelse`; the buffers
that were never used are taken to have been released in the order of `binit`. -/
structure CacheSystem where
  cache : LinkedCache
  waiting : Multiset Waiter
  leaving : Multiset (Fin nbuf)
  clock : Nat
  released : Fin nbuf → Nat

def CacheSystem.initial : CacheSystem where
  cache := .binit
  waiting := 0
  leaving := 0
  clock := nbuf
  released i := i

/-- What a process that has the lock of a buffer may do with it. -/
inductive Buf.Used (disksize pid : Nat) (b : Buf) : Buf → Prop
  | data (v : Block) : Used disksize pid b { b with data := v }
  | logWrite : Used disksize pid b { b with dirty := true }
  | iderw {disk disk' : Nat → Block} {b' : Buf} : iderw disksize pid disk b = .ok (disk', b') → Used disksize pid b b'
  | bwrite {disk disk' : Nat → Block} {b' : Buf} : bwrite disksize pid disk b = .ok (disk', b') →
      Used disksize pid b b'

/-- The sections of `bget` and `brelse`, and what happens between them. -/
inductive CacheStep (disksize : Nat) : CacheSystem → CacheSystem → Prop
  | bget {cache cache' : LinkedCache} {waiting leaving clock released} {i : Fin nbuf} (pid : Nat)
      (blockno : BitVec 32) :
      cache.bget 1 blockno = .ok (cache', i) →
      CacheStep disksize ⟨cache, waiting, leaving, clock, released⟩
        ⟨cache', ⟨pid, i, 1, blockno⟩ ::ₘ waiting, leaving, clock, released⟩
  | acquiresleep {cache : LinkedCache} {waiting leaving clock released} {w : Waiter} :
      (cache.buf w.idx).holder = none →
      CacheStep disksize ⟨cache, w ::ₘ waiting, leaving, clock, released⟩
        ⟨cache.set w.idx { cache.buf w.idx with holder := some w.pid }, waiting, leaving, clock, released⟩
  | use {cache : LinkedCache} {waiting leaving clock released} {pid : Nat} {i : Fin nbuf} {b : Buf} :
      (cache.buf i).holder = some pid → (cache.buf i).Used disksize pid b →
      CacheStep disksize ⟨cache, waiting, leaving, clock, released⟩ ⟨cache.set i b, waiting, leaving, clock, released⟩
  | brelseUnlock {cache : LinkedCache} {waiting leaving clock released} {b : Buf} (pid : Nat) (i : Fin nbuf) :
      brelseUnlock pid (cache.buf i) = .ok b →
      CacheStep disksize ⟨cache, waiting, leaving, clock, released⟩
        ⟨cache.set i b, waiting, i ::ₘ leaving, clock, released⟩
  | brelse {cache : LinkedCache} {waiting leaving clock released} {i : Fin nbuf} :
      CacheStep disksize ⟨cache, waiting, i ::ₘ leaving, clock, released⟩
        ⟨cache.brelse i, waiting, leaving, clock + 1,
          if ((cache.brelse i).buf i).refcnt = 0 then Function.update released i clock else released⟩

/-- No block has two buffers, and every process that uses a buffer counts in `refcnt`. -/
structure Counted (buf : Fin nbuf → Buf) (waiting : Multiset Waiter) (leaving : Multiset (Fin nbuf)) : Prop where
  unique : ∀ i j, (buf i).dev = 1 → (buf j).dev = 1 → (buf i).blockno = (buf j).blockno → i = j
  count : ∀ i, (buf i).refcnt = Bcache.uses waiting leaving i + if (buf i).holder = none then 0 else 1

/-- The list has the buffers that were released last in front. -/
structure Recent (clock : Nat) (released : Fin nbuf → Nat) (list : List (Fin nbuf)) : Prop where
  order : list.Pairwise fun i j => released j < released i
  past : ∀ i, released i < clock

structure CacheSystem.Inv (s : CacheSystem) (list : List (Fin nbuf)) : Prop where
  lists : s.cache.Lists list
  counted : Counted s.cache.buf s.waiting s.leaving
  recent : Recent s.clock s.released list

/-- `bget` has not found the block cached, and takes the buffer that was released first. -/
structure CacheSystem.Recycles (s : CacheSystem) (blockno : BitVec 32) (cache : LinkedCache) (i : Fin nbuf) :
    Prop where
  missing : ∀ j, ¬((s.cache.buf j).dev = 1 ∧ (s.cache.buf j).blockno = blockno)
  unused : (s.cache.buf i).refcnt = 0
  clean : (s.cache.buf i).dirty = false
  oldest : ∀ j ≠ i, (s.cache.buf j).refcnt = 0 → (s.cache.buf j).dirty = false → s.released i < s.released j
  result : cache = s.cache.set i
    { s.cache.buf i with dev := 1, blockno := blockno, valid := false, dirty := false, refcnt := 1 }

variable {buf : Fin nbuf → Buf} {waiting waiting' : Multiset Waiter} {leaving leaving' : Multiset (Fin nbuf)}
  {i : Fin nbuf} {b b' : Buf} {disksize pid : Nat} {s t : CacheSystem} {list : List (Fin nbuf)}

/-- A buffer stays with its block and its users while one of them has the lock. -/
theorem Buf.Used.same (used : b.Used disksize pid b') : b.SameBlock b' ∧ b'.refcnt = b.refcnt ∧
    b'.holder = b.holder := by
  cases used with
  | data | logWrite => exact ⟨⟨rfl, rfl⟩, rfl, rfl⟩
  | iderw call =>
    obtain ⟨_, _, out⟩ := iderw_spec call
    split at out
    · cases out
      exact ⟨⟨rfl, rfl⟩, rfl, rfl⟩
    · cases out
      exact ⟨⟨rfl, rfl⟩, rfl, rfl⟩
  | bwrite call =>
    obtain ⟨_, rfl⟩ := bwrite_spec call
    exact ⟨⟨rfl, rfl⟩, rfl, rfl⟩

theorem sameBlock_update (same : (buf i).SameBlock b) (j : Fin nbuf) :
    (buf j).SameBlock (Function.update buf i b j) := by
  by_cases here : j = i
  · subst here
    rwa [update_self]
  · rw [update_of_ne here]
    exact ⟨rfl, rfl⟩

namespace Counted

/-- A buffer changes that stays with its block. -/
theorem update (counted : Counted buf waiting leaving) (same : (buf i).SameBlock b)
    (others : ∀ j ≠ i, Bcache.uses waiting' leaving' j = Bcache.uses waiting leaving j)
    (count : b.refcnt = Bcache.uses waiting' leaving' i + if b.holder = none then 0 else 1) :
    Counted (Function.update buf i b) waiting' leaving' := by
  have blocks := sameBlock_update same
  refine ⟨fun j k => ?_, fun j => ?_⟩
  · rw [(blocks j).dev, (blocks k).dev, (blocks j).blockno, (blocks k).blockno]
    exact counted.unique j k
  · by_cases here : j = i
    · subst here
      rwa [update_self]
    · rw [update_of_ne here, others j here]
      exact counted.count j

theorem recycle {blockno : BitVec 32} (counted : Counted buf waiting leaving) (pid : Nat)
    (missing : ∀ j, ¬((buf j).dev = 1 ∧ (buf j).blockno = blockno)) (unused : (buf i).refcnt = 0) :
    Counted (Function.update buf i
      { buf i with dev := 1, blockno := blockno, valid := false, dirty := false, refcnt := 1 })
      (⟨pid, i, 1, blockno⟩ ::ₘ waiting) leaving := by
  refine ⟨fun j k => ?_, fun j => ?_⟩
  · by_cases first : j = i <;> by_cases second : k = i
    · exact fun _ _ _ => first.trans second.symm
    · subst first
      rw [update_self, update_of_ne second]
      exact fun _ dev same => absurd ⟨dev, same.symm⟩ (missing k)
    · subst second
      rw [update_self, update_of_ne first]
      exact fun dev _ same => absurd ⟨dev, same⟩ (missing j)
    · rw [update_of_ne first, update_of_ne second]
      exact counted.unique j k
  · have count := counted.count j
    rw [Bcache.uses_waiting]
    by_cases here : j = i
    · subst here
      rw [unused] at count
      rw [update_self, if_pos rfl]
      dsimp only
      omega
    · rw [update_of_ne here, if_neg (Ne.symm here)]
      exact count

end Counted

namespace Recent

variable {clock : Nat} {released : Fin nbuf → Nat} {l l' : List (Fin nbuf)}

/-- The section of `brelse` puts the buffer in front that is released last. -/
theorem front (recent : Recent clock released list) (nodup : list.Nodup) (i : Fin nbuf) :
    Recent (clock + 1) (Function.update released i clock) (i :: list.erase i) := by
  have other {j : Fin nbuf} (member : j ∈ list.erase i) : j ≠ i := (nodup.mem_erase_iff.1 member).1
  refine ⟨List.pairwise_cons.2 ⟨fun j member => ?_, ?_⟩, fun j => ?_⟩
  · rw [update_self, update_of_ne (other member)]
    exact recent.past j
  · have others := recent.order.sublist (List.erase_sublist (a := i))
    refine others.imp_of_mem fun {j k} first second less => ?_
    rwa [update_of_ne (other first), update_of_ne (other second)]
  · by_cases here : j = i
    · rw [here, update_self]
      exact Nat.lt_succ_self clock
    · rw [update_of_ne here]
      exact Nat.lt_succ_of_lt (recent.past j)

/-- A buffer is older than those before it in the list. -/
theorem oldest (recent : Recent clock released (l ++ i :: l')) {j : Fin nbuf} (member : j ∈ l ++ i :: l')
    (other : j ≠ i) (before : j ∉ l') : released i < released j := by
  rcases List.mem_append.1 member with inside | inside
  · exact (List.pairwise_append.1 recent.order).2.2 j inside i (.head _)
  · rcases List.mem_cons.1 inside with same | after
    · exact absurd same other
    · exact absurd after before

theorem later (recent : Recent clock released list) : Recent (clock + 1) released list :=
  ⟨recent.order, fun i => Nat.lt_succ_of_lt (recent.past i)⟩

end Recent

theorem CacheSystem.initial_buf :
    CacheSystem.initial.cache.buf = fun _ => ⟨0, 0, false, false, 0, none, fun _ => 0⟩ :=
  LinkedCache.foldl_linkFront_buf ..

namespace CacheSystem.Inv

variable {cache : LinkedCache} {blockno : BitVec 32}

theorem initial : CacheSystem.initial.Inv (List.finRange nbuf).reverse := by
  refine ⟨.binit, ⟨fun i j dev => ?_, fun i => ?_⟩, ⟨?_, fun i => i.isLt⟩⟩
  · rw [initial_buf] at dev
    exact absurd dev (by decide : ¬(0 : BitVec 32) = 1)
  · rw [initial_buf]
    rfl
  · rw [List.pairwise_reverse]
    exact List.pairwise_lt_finRange nbuf

/-- The buffers are changed, and the links stay. -/
theorem change (inv : s.Inv list) (nexts : cache.next = s.cache.next)
    (prevs : cache.prev = s.cache.prev) (counted : Counted cache.buf waiting leaving) :
    Inv ⟨cache, waiting, leaving, s.clock, s.released⟩ list := by
  obtain ⟨ring, nodup, complete⟩ := inv.lists
  rw [← nexts, ← prevs] at ring
  exact ⟨⟨ring, nodup, complete⟩, counted, inv.recent⟩

theorem bget_cases (inv : s.Inv list)
    (call : s.cache.bget 1 blockno = .ok (cache, i)) :
    ((s.cache.buf i).dev = 1 ∧ (s.cache.buf i).blockno = blockno ∧
      cache = s.cache.set i { s.cache.buf i with refcnt := (s.cache.buf i).refcnt + 1 }) ∨
    s.Recycles blockno cache i := by
  rw [inv.lists.bget] at call
  cases result : bget ⟨s.cache.buf, list⟩ 1 blockno with
  | error stop =>
    rw [result] at call
    cases call
  | ok out =>
    obtain ⟨c', j⟩ := out
    rw [result] at call
    cases call
    rcases Bcache.bget_cases result with ⟨dev, same, rfl⟩ | ⟨missing, unused, clean, ⟨l, l', rfl, after⟩, rfl⟩
    · exact .inl ⟨dev, same, rfl⟩
    · refine .inr ⟨fun j => missing j (inv.lists.complete j), unused, clean, fun j other zero free => ?_, rfl⟩
      exact inv.recent.oldest (inv.lists.complete j) other fun member => after j member ⟨zero, free⟩

theorem bget (inv : s.Inv list) (pid : Nat)
    (call : s.cache.bget 1 blockno = .ok (cache, i)) :
    Inv ⟨cache, ⟨pid, i, 1, blockno⟩ ::ₘ s.waiting, s.leaving, s.clock, s.released⟩ list := by
  rcases inv.bget_cases call with ⟨_, _, rfl⟩ | recycles
  · refine inv.change rfl rfl (inv.counted.update ⟨rfl, rfl⟩ (fun j other => ?_) ?_)
    · rw [Bcache.uses_waiting, if_neg other.symm, Nat.add_zero]
    · have count := inv.counted.count i
      rw [Bcache.uses_waiting, if_pos rfl]
      dsimp only
      omega
  · rw [recycles.result]
    exact inv.change rfl rfl (inv.counted.recycle pid recycles.missing recycles.unused)

theorem brelse (inv : s.Inv list) (leaves : s.leaving = i ::ₘ leaving) :
    ∃ list, Inv ⟨s.cache.brelse i, s.waiting, leaving, s.clock + 1,
      if ((s.cache.brelse i).buf i).refcnt = 0 then Function.update s.released i s.clock else s.released⟩ list := by
  have counted : Counted (Function.update s.cache.buf i { s.cache.buf i with refcnt := (s.cache.buf i).refcnt - 1 })
      s.waiting leaving := by
    refine inv.counted.update ⟨rfl, rfl⟩ (fun j other => ?_) ?_
    · rw [leaves, Bcache.uses_leaving, if_neg other, Nat.add_zero]
    · have count := inv.counted.count i
      rw [leaves, Bcache.uses_leaving, if_pos rfl] at count
      dsimp only
      omega
  obtain ⟨buf, lists⟩ := inv.lists.brelse i
  rw [Bcache.brelseLocked_buf] at buf
  refine ⟨_, lists, buf ▸ counted, ?_⟩
  rw [buf, update_self]
  unfold brelseLocked
  dsimp only
  split
  · exact inv.recent.front inv.lists.nodup i
  · exact inv.recent.later

theorem step (inv : ∃ list, s.Inv list) (step : CacheStep disksize s t) : ∃ list, t.Inv list := by
  obtain ⟨list, inv⟩ := inv
  cases step with
  | bget pid blockno call => exact ⟨list, inv.bget pid call⟩
  | @acquiresleep cache waiting leaving clock released w free =>
    refine ⟨list, inv.change rfl rfl (inv.counted.update ⟨rfl, rfl⟩ (fun j other => ?_) ?_)⟩
    · dsimp only
      rw [Bcache.uses_waiting, if_neg other.symm, Nat.add_zero]
    · have count := inv.counted.count w.idx
      dsimp only at count
      rw [Bcache.uses_waiting, if_pos rfl, if_pos free] at count
      exact count
  | use held used =>
    obtain ⟨same, refcnt, holder⟩ := used.same
    refine ⟨list, inv.change rfl rfl (inv.counted.update same (fun j other => rfl) ?_)⟩
    rw [refcnt, holder]
    exact inv.counted.count _
  | brelseUnlock pid i call =>
    obtain ⟨held, rfl⟩ := brelseUnlock_spec call
    refine ⟨list, inv.change rfl rfl (inv.counted.update ⟨rfl, rfl⟩ (fun j other => ?_) ?_)⟩
    · rw [Bcache.uses_leaving, if_neg other]
      rfl
    · have count := inv.counted.count i
      rw [held] at count
      rw [Bcache.uses_leaving, if_pos rfl]
      exact count
  | brelse => exact inv.brelse rfl

theorem run (run : ReflTransGen (CacheStep disksize) .initial s) : ∃ list, s.Inv list := by
  induction run with
  | refl => exact ⟨_, .initial⟩
  | tail _ last ih => exact step ih last

/-- Nothing but `bget` gives a buffer to another block, and it takes one that nobody uses. -/
theorem keeps_block (inv : s.Inv list) (step : CacheStep disksize s t)
    (used : 0 < (s.cache.buf i).refcnt ∨ (s.cache.buf i).dirty = true) :
    (s.cache.buf i).SameBlock (t.cache.buf i) := by
  cases step with
  | @bget cache cache' waiting leaving clock released j pid blockno call =>
    rcases inv.bget_cases call with ⟨_, _, rfl⟩ | recycles
    · refine sameBlock_update ?_ i
      exact ⟨rfl, rfl⟩
    · have other : i ≠ j := by
        rintro rfl
        rcases used with more | dirty
        · exact absurd recycles.unused (Nat.ne_of_gt more)
        · exact absurd recycles.clean (ne_false_of_eq_true dirty)
      have same : cache'.buf i = cache.buf i := recycles.result ▸ update_of_ne other ..
      dsimp only
      rw [same]
      exact ⟨rfl, rfl⟩
  | acquiresleep free =>
    refine sameBlock_update ?_ i
    exact ⟨rfl, rfl⟩
  | use held use => exact sameBlock_update use.same.1 i
  | brelseUnlock pid j call =>
    obtain ⟨_, rfl⟩ := brelseUnlock_spec call
    refine sameBlock_update ?_ i
    exact ⟨rfl, rfl⟩
  | brelse =>
    dsimp only
    rw [(inv.lists.brelse _).1, Bcache.brelseLocked_buf]
    refine sameBlock_update ?_ i
    exact ⟨rfl, rfl⟩

theorem recycles (inv : s.Inv list)
    (missing : ∀ j, ¬((s.cache.buf j).dev = 1 ∧ (s.cache.buf j).blockno = blockno))
    (free : ∃ j, (s.cache.buf j).refcnt = 0 ∧ (s.cache.buf j).dirty = false) :
    ∃ cache i, s.cache.bget 1 blockno = .ok (cache, i) ∧ s.Recycles blockno cache i := by
  obtain ⟨j, free⟩ := free
  rcases Bcache.bget_ok_or_panic (c := ⟨s.cache.buf, list⟩) inv.lists.complete 1 blockno with
    ⟨⟨⟨c', i⟩, call⟩, _⟩ | ⟨_, _, used⟩
  · have linked := inv.lists.bget 1 blockno
    rw [call] at linked
    refine ⟨_, i, linked, ?_⟩
    rcases inv.bget_cases linked with ⟨dev, same, _⟩ | recycles
    · exact absurd ⟨dev, same⟩ (missing i)
    · exact recycles
  · exact absurd free (used j)

end CacheSystem.Inv

/-- In every state the processes can reach the pointers make one ring of the buffers, a block
has at most one of them, `refcnt` counts the processes that use one, a buffer in use or dirty
stays with its block, and on a miss the buffer that was released first is recycled. -/
theorem buffer_cache_representation (run : ReflTransGen (CacheStep disksize) .initial s) :
    (∃ list : List (Fin nbuf), LinkedRing s.cache.next s.cache.prev none (list.map some) ∧
      list.Nodup ∧ ∀ i, i ∈ list) ∧
    (∀ i j, (s.cache.buf i).dev = 1 → (s.cache.buf j).dev = 1 →
      (s.cache.buf i).blockno = (s.cache.buf j).blockno → i = j) ∧
    (∀ i, (s.cache.buf i).refcnt =
      s.waiting.countP (·.idx = i) + s.leaving.count i + if (s.cache.buf i).holder = none then 0 else 1) ∧
    (∀ t, CacheStep disksize s t → ∀ i, 0 < (s.cache.buf i).refcnt ∨ (s.cache.buf i).dirty = true →
      (s.cache.buf i).SameBlock (t.cache.buf i)) ∧
    (∀ blockno, (∀ j, ¬((s.cache.buf j).dev = 1 ∧ (s.cache.buf j).blockno = blockno)) →
      (∃ j, (s.cache.buf j).refcnt = 0 ∧ (s.cache.buf j).dirty = false) →
      ∃ cache i, s.cache.bget 1 blockno = .ok (cache, i) ∧ s.Recycles blockno cache i) := by
  obtain ⟨list, inv⟩ := CacheSystem.Inv.run run
  refine ⟨⟨list, inv.lists.ring, inv.lists.nodup, inv.lists.complete⟩, inv.counted.unique, inv.counted.count,
    fun t step i used => inv.keeps_block step used, fun blockno missing free => inv.recycles missing free⟩

/-- Block 7 is read into buffer 0, which is then released. The next block takes buffer 1. -/
theorem buffer_cache_representation_after_release : ∃ s cache, ReflTransGen (CacheStep 1000) .initial s ∧
    (s.cache.buf 0).blockno = 7 ∧ (s.cache.buf 0).refcnt = 0 ∧ s.cache.bget 1 8 = .ok (cache, 1) := by
  have run : ReflTransGen (CacheStep 1000) .initial _ := .single (.bget 1 7 rfl)
  have run := ((run.tail (.acquiresleep rfl)).tail (.brelseUnlock 1 0 rfl)).tail .brelse
  obtain ⟨_, _, _, _, recycles⟩ := buffer_cache_representation run
  obtain ⟨cache, i, call, recycled⟩ := recycles 8 (by decide +kernel) ⟨1, by decide +kernel⟩
  refine ⟨_, cache, run, rfl, rfl, ?_⟩
  obtain rfl : i = 1 := by
    by_contra other
    have later : ∀ j : Fin nbuf, ¬update (fun i : Fin nbuf => (i : Nat)) 0 nbuf j < 1 := by decide
    exact later i (recycled.oldest 1 (Ne.symm other) (by decide +kernel) (by decide +kernel))
  exact call

end MiniOS
