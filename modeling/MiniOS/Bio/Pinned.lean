import MiniOS.Bio.Refine
import Mathlib.Data.Fintype.Card

namespace MiniOS

open Lib

/-- Only blocks that wait for their installation are dirty. -/
def Bcache.DirtyIn (c : Bcache) (blocks : List (BitVec 32)) : Prop :=
  ∀ i, (c.buf i).dirty = true → (c.buf i).blockno ∈ blocks

namespace Bcache.DirtyIn

variable {c : Bcache} {blocks blocks' : List (BitVec 32)} {i : Fin nbuf} {b : Buf}

theorem mono (only : c.DirtyIn blocks) (more : ∀ blockno ∈ blocks, blockno ∈ blocks') : c.DirtyIn blocks' :=
  fun i dirty => more _ (only i dirty)

theorem set (only : c.DirtyIn blocks) (here : b.dirty = true → b.blockno ∈ blocks) : (c.set i b).DirtyIn blocks := by
  intro j dirty
  by_cases same : j = i
  · subst same
    rw [set_buf_self] at dirty ⊢
    exact here dirty
  · rw [set_buf_ne same] at dirty ⊢
    exact only j dirty

theorem clean (only : c.DirtyIn blocks) (clean : b.dirty = false) : (c.set i b).DirtyIn blocks :=
  only.set fun dirty => absurd clean (ne_false_of_eq_true dirty)

end Bcache.DirtyIn

/-- The system with what it stands for, and with no block dirty without need. -/
structure BlockSystem.Tidy (s : BlockSystem) : Prop where
  represents : ∃ a, Represents s a
  dirty : s.cache.DirtyIn (pending s.log (s.commit.map Prod.snd))

namespace BlockSystem.Tidy

variable {disksize : Nat} {s s' : BlockSystem} {event : Option StoreEvent}

theorem initial (log : LogArea) (disk : Nat → Block) : (BlockSystem.initial log disk).Tidy :=
  ⟨⟨_, .initial log disk⟩, fun _ dirty => nomatch dirty⟩

theorem dirty_step (tidy : s.Tidy) (step : BlockStep disksize s event s') :
    s'.cache.DirtyIn (pending s'.log (s'.commit.map Prod.snd)) := by
  obtain ⟨⟨a, rep⟩, only⟩ := tidy
  obtain ⟨entry, entries, co⟩ := rep.data
  cases step with
  | bget pid dev blockno call =>
    rcases Bcache.bget_cases call with ⟨_, _, rfl⟩ | ⟨_, _, _, _, rfl⟩
    · exact only.set (only _)
    · exact only.clean rfl
  | bread free call =>
    rcases (breadLocked_spec (rep.cache.clean _) call).2 with ⟨_, rfl⟩ | ⟨_, _, rfl⟩
    · exact only.set (only _)
    · exact only.clean rfl
  | brelseUnlock pid i call =>
    obtain ⟨_, rfl⟩ := brelseUnlock_spec call
    exact only.set (only i)
  | @brelseLocked disk cache log ops waiting leaving commit i =>
    have dropped := only.set (i := i) (b := { cache.buf i with refcnt := (cache.buf i).refcnt - 1 }) (only i)
    intro j
    dsimp only
    rw [Bcache.brelseLocked_buf]
    exact dropped j
  | @beginOp disk cache log ops waiting leaving commit log' pid admitted =>
    obtain ⟨_, _, rfl⟩ := beginOp_eq_some admitted
    exact only
  | @modify disk cache log ops waiting leaving commit pid i v holder outside tests =>
    have none := rep.logging_no_commit tests
    subst none
    have more : cache.DirtyIn (absorb (cache.buf i).blockno log.lh) :=
      only.mono fun b member => mem_absorb.2 (.inr member)
    exact more.set fun _ => mem_absorb.2 (.inl rfl)
  | @endOp disk cache log ops waiting leaving commit pid log' doCommit ends =>
    have none := rep.no_commit (by simp)
    subst none
    obtain ⟨_, _, rfl⟩ := endOp_eq_ok ends
    cases doCommit with
    | false => exact only
    | true =>
      dsimp only
      rw [if_pos rfl, Option.map_some, pending_first]
      exact only
  | writeLog _ _ _ _ _ call | writeHead _ _ _ call | clear _ _ call =>
    obtain ⟨_, rfl⟩ := bwrite_spec call
    exact only.clean rfl
  | @installTrans disk cache log ops waiting leaving pid tail blockno disk' b lbuf dbuf here held held' call =>
    obtain ⟨_, rfl⟩ := bwrite_spec call
    intro j dirty
    by_cases same : j = dbuf
    · subst same
      rw [Bcache.set_buf_self] at dirty
      cases dirty
    · rw [Bcache.set_buf_ne same] at dirty ⊢
      have member := only j dirty
      dsimp only [pending, Option.map] at member ⊢
      rw [drop_of_getElem? here] at member
      refine (List.mem_cons.1 member).resolve_left fun block => same ?_
      have device := rep.cache.device j (rep.cache.clean j dirty)
      exact rep.cache.unique j dbuf device held'.2.1 (block.trans (BitVec.eq_of_toNat_eq held'.2.2.symm))
  | @erase disk cache log ops waiting leaving pid tail all =>
    intro i dirty
    have member : (cache.buf i).blockno ∈ log.lh.drop tail := only i dirty
    rw [List.drop_eq_nil_of_le all] at member
    cases member
  | finish => exact only

theorem step (tidy : s.Tidy) (step : BlockStep disksize s event s') : s'.Tidy := by
  obtain ⟨a, rep⟩ := tidy.represents
  obtain ⟨b, _, rep'⟩ := rep.step step
  exact ⟨⟨b, rep'⟩, tidy.dirty_step step⟩

end BlockSystem.Tidy

/-- The buffers that a process waits for, has or is about to leave, and those of
the transaction that is not installed yet. -/
def BlockSystem.pinned (s : BlockSystem) : Finset (Fin nbuf) :=
  Finset.univ.filter fun i => i ∈ s.waiting.map Waiter.idx ∨ i ∈ s.leaving ∨ (s.cache.buf i).holder ≠ none ∨
    ((s.cache.buf i).dev = 1 ∧ (s.cache.buf i).blockno ∈ pending s.log (s.commit.map Prod.snd))

namespace BlockSystem.Tidy

variable {s : BlockSystem}

/-- The buffers that `bget` may recycle are the others. -/
theorem free_iff (tidy : s.Tidy) (i : Fin nbuf) :
    ((s.cache.buf i).refcnt = 0 ∧ (s.cache.buf i).dirty = false) ↔ i ∉ s.pinned := by
  obtain ⟨a, rep⟩ := tidy.represents
  obtain ⟨entry, entries, co⟩ := rep.data
  rw [pinned, Finset.mem_filter]
  refine ⟨?_, fun unused => ?_⟩
  · rintro ⟨zero, clean⟩ ⟨_, pinned⟩
    obtain ⟨uses, holder, waits⟩ := rep.cache.unused zero
    rcases pinned with waiting | leaves | held | ⟨device, member⟩
    · obtain ⟨w, member, idx⟩ := Multiset.mem_map.1 waiting
      exact waits w member idx
    · have none := (Nat.add_eq_zero_iff.1 uses).2
      exact Multiset.count_eq_zero.1 none leaves
    · exact held holder
    · obtain ⟨v, cached⟩ := co.pinned _ member
      obtain ⟨j, device', block, _, _, dirty⟩ := (entries _ _ _).1 cached
      have same := rep.cache.unique j i device' device (BitVec.eq_of_toNat_eq block)
      rw [← same, dirty] at clean
      cases clean
  · have outside := not_or.1 fun pinned => unused ⟨Finset.mem_univ i, pinned⟩
    obtain ⟨waits, outside⟩ := outside
    obtain ⟨leaves, outside⟩ := not_or.1 outside
    obtain ⟨held, apart⟩ := not_or.1 outside
    refine ⟨?_, Bool.eq_false_iff.2 fun dirty => apart ?_⟩
    · rw [rep.cache.count i, if_pos (not_not.1 held), Bcache.uses, Multiset.count_eq_zero.2 leaves,
        Multiset.countP_eq_zero.2 fun w member idx => waits (Multiset.mem_map.2 ⟨w, member, idx⟩)]
    · exact ⟨rep.cache.device i (rep.cache.clean i dirty), tidy.dirty i dirty⟩

theorem bget_returns_iff (tidy : s.Tidy) (blockno : BitVec 32) :
    (∃ out, bget s.cache 1 blockno = .ok out) ↔
      (∃ i, (s.cache.buf i).dev = 1 ∧ (s.cache.buf i).blockno = blockno) ∨ s.pinned.card < nbuf := by
  have free : (∃ i, (s.cache.buf i).refcnt = 0 ∧ (s.cache.buf i).dirty = false) ↔ s.pinned.card < nbuf := by
    simp only [tidy.free_iff]
    refine ⟨fun ⟨i, outside⟩ => ?_, fun fewer => ?_⟩
    · exact (Finset.card_lt_univ_of_notMem outside).trans_eq (Fintype.card_fin nbuf)
    · by_contra all
      rw [Finset.eq_univ_of_forall (not_exists_not.1 all), Finset.card_univ, Fintype.card_fin] at fewer
      exact Nat.lt_irrefl _ fewer
  rw [← free]
  obtain ⟨a, rep⟩ := tidy.represents
  rcases Bcache.bget_ok_or_panic rep.cache.listed 1 blockno with ⟨returns, found⟩ | ⟨panics, missing, used⟩
  · exact ⟨fun _ => found, fun _ => returns⟩
  · refine ⟨fun ⟨out, call⟩ => ?_, fun found => ?_⟩
    · rw [panics] at call
      cases call
    · rcases found with ⟨i, here⟩ | ⟨i, free⟩
      · exact absurd here (missing i)
      · exact absurd free (used i)

end BlockSystem.Tidy

end MiniOS
