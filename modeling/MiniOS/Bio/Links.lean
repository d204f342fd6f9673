import MiniOS.Bio.Code
import MiniOS.Lib.Linked
import MiniOS.Lib.Outcome
import Mathlib.Data.Fintype.Card
import Mathlib.Data.Option.Basic

namespace MiniOS

open Lib Function

/-- A pointer to a `struct buf`: to one of the array, or to `bcache.head`. -/
abbrev BufPtr := Option (Fin nbuf)

/-- `bcache` with the pointers `prev` and `next` of its buffers and of `head`. -/
structure LinkedCache where
  buf : Fin nbuf → Buf
  prev : BufPtr → BufPtr
  next : BufPtr → BufPtr

namespace LinkedCache

/-- The statements of `binit` and `brelse` that put a buffer behind `head`. -/
def linkFront (c : LinkedCache) (i : Fin nbuf) : LinkedCache :=
  let c := { c with next := update c.next (some i) (c.next none) }
  let c := { c with prev := update c.prev (some i) none }
  let c := { c with prev := update c.prev (c.next none) (some i) }
  { c with next := update c.next none (some i) }

/-- The statements of `brelse` that take a buffer out of the list. -/
def unlink (c : LinkedCache) (i : Fin nbuf) : LinkedCache :=
  let c := { c with prev := update c.prev (c.next (some i)) (c.prev (some i)) }
  { c with next := update c.next (c.prev (some i)) (c.next (some i)) }

def binit : LinkedCache :=
  (List.finRange nbuf).foldl linkFront ⟨fun _ => ⟨0, 0, false, false, 0, none, fun _ => 0⟩,
    fun _ => none, fun _ => none⟩

def set (c : LinkedCache) (i : Fin nbuf) (b : Buf) : LinkedCache := { c with buf := update c.buf i b }

/-- A loop of `bget`, which follows the pointers until the test is true or it comes to
`head`. After more rounds than there are buffers it will never end. -/
def scan (step : BufPtr → BufPtr) (test : Fin nbuf → Bool) : Nat → BufPtr → Except Stop (Option (Fin nbuf))
  | 0, _ => .error .endlessLoop
  | _ + 1, none => .ok none
  | rounds + 1, some i => if test i then .ok (some i) else scan step test rounds (step (some i))

/-- The section of `bget` under `bcache.lock`. -/
def bget (c : LinkedCache) (dev blockno : BitVec 32) : Except Stop (LinkedCache × Fin nbuf) := do
  match ← scan c.next (fun i => (c.buf i).dev = dev ∧ (c.buf i).blockno = blockno) (nbuf + 1) (c.next none) with
  | some i => .ok (c.set i { c.buf i with refcnt := (c.buf i).refcnt + 1 }, i)
  | none =>
    match ← scan c.prev (fun i => (c.buf i).refcnt = 0 ∧ (c.buf i).dirty = false) (nbuf + 1) (c.prev none) with
    | some i =>
      .ok (c.set i { c.buf i with dev := dev, blockno := blockno, valid := false, dirty := false, refcnt := 1 }, i)
    | none => .error (.panic "bget: no buffers")

/-- The section of `brelse` under `bcache.lock`. -/
def brelse (c : LinkedCache) (i : Fin nbuf) : LinkedCache :=
  let refcnt := (c.buf i).refcnt - 1
  let c := c.set i { c.buf i with refcnt := refcnt }
  if refcnt = 0 then (c.unlink i).linkFront i else c

/-- The pointers make a ring of `head` and the buffers in the order of the list, which has
every buffer once. -/
structure Lists (c : LinkedCache) (list : List (Fin nbuf)) : Prop where
  ring : LinkedRing c.next c.prev none (list.map some)
  nodup : list.Nodup
  complete : ∀ i, i ∈ list

variable {c : LinkedCache} {list l l' : List (Fin nbuf)} {i : Fin nbuf}

theorem linkFront_next (c : LinkedCache) (i : Fin nbuf) :
    (c.linkFront i).next = update (update c.next (some i) (c.next none)) none (some i) := rfl

theorem linkFront_prev (c : LinkedCache) (i : Fin nbuf) :
    (c.linkFront i).prev = update (update c.prev (some i) none) (c.next none) (some i) := by
  simp only [linkFront, update_of_ne (Option.some_ne_none i).symm]

theorem foldl_linkFront_buf (c : LinkedCache) (l : List (Fin nbuf)) : (l.foldl linkFront c).buf = c.buf := by
  induction l generalizing c with
  | nil => rfl
  | cons i l ih => exact ih (c.linkFront i)

theorem none_notMem_map (l : List (Fin nbuf)) : none ∉ l.map some := by
  intro member
  obtain ⟨i, _, same⟩ := List.mem_map.1 member
  cases same

theorem ring_linkFront (ring : LinkedRing c.next c.prev none (l.map some)) (new : i ∉ l) (nodup : l.Nodup) :
    LinkedRing (c.linkFront i).next (c.linkFront i).prev none ((i :: l).map some) := by
  rw [linkFront_next, linkFront_prev]
  refine ring.push (fun member => ?_) (none_notMem_map l) (nodup.map (Option.some_injective _))
  rcases List.mem_cons.1 member with same | member
  · cases same
  · obtain ⟨j, inside, same⟩ := List.mem_map.1 member
    cases same
    exact new inside

theorem ring_foldl (nodup : (l' ++ l).Nodup) (ring : LinkedRing c.next c.prev none (l.map some)) :
    LinkedRing (l'.foldl linkFront c).next (l'.foldl linkFront c).prev none ((l'.reverse ++ l).map some) := by
  induction l' generalizing c l with
  | nil => exact ring
  | cons i l' ih =>
    obtain ⟨new, others⟩ := List.nodup_cons.1 nodup
    have new := fun member => new (List.mem_append.2 (.inr member))
    rw [List.foldl_cons, List.reverse_cons, List.append_assoc]
    exact ih (List.nodup_middle.2 nodup) (ring_linkFront ring new (List.nodup_append.1 others).2.1)

theorem ring_unlink (ring : LinkedRing c.next c.prev none ((l ++ i :: l').map some)) (nodup : (l ++ i :: l').Nodup) :
    LinkedRing (c.unlink i).next (c.unlink i).prev none ((l ++ l').map some) := by
  have whole := List.nodup_cons.2 ⟨none_notMem_map (l ++ i :: l'), nodup.map (Option.some_injective _)⟩
  rw [List.map_append, List.map_cons] at ring whole
  have other : some i ≠ c.next (some i) := by
    intro same
    have after := (Segment.append_iff.1 ring).2.next_mem
    rw [← same] at after
    rcases List.mem_append.1 after with inside | last
    · exact (List.nodup_cons.1 (List.nodup_append.1 (List.nodup_cons.1 whole).2).2.1).1 inside
    · cases List.mem_singleton.1 last
  have past := ring.unlink whole
  have same : update c.prev (c.next (some i)) (c.prev (some i)) (some i) = c.prev (some i) := update_of_ne other ..
  simp only [unlink, same, List.map_append]
  exact past

/-- The loop along `next` finds what a search of the list finds. -/
theorem scan_segment {next prev : BufPtr → BufPtr} {a : BufPtr} (test : Fin nbuf → Bool) {rounds : Nat}
    (segment : Segment next prev a (l.map some) none) (enough : l.length < rounds) :
    scan next test rounds (next a) = .ok (l.find? test) := by
  induction l generalizing a rounds with
  | nil =>
    obtain ⟨rounds, rfl⟩ := Nat.exists_eq_add_one_of_ne_zero (Nat.ne_of_gt enough)
    rw [segment.1]
    rfl
  | cons i l ih =>
    obtain ⟨rounds, rfl⟩ := Nat.exists_eq_add_one_of_ne_zero (Nat.ne_of_gt (Nat.zero_lt_of_lt enough))
    obtain ⟨first, _, rest⟩ := segment
    rw [first]
    by_cases found : test i
    · simp only [scan, found, if_true, List.find?_cons_of_pos found]
    · rw [List.find?_cons_of_neg found, scan, if_neg found]
      exact ih rest (Nat.lt_of_succ_lt_succ enough)

namespace Lists

theorem binit : LinkedCache.binit.Lists (List.finRange nbuf).reverse := by
  refine ⟨?_, List.nodup_reverse.2 (List.nodup_finRange nbuf), fun i => List.mem_reverse.2 (List.mem_finRange i)⟩
  have all : (List.finRange nbuf ++ []).Nodup := by
    rw [List.append_nil]
    exact List.nodup_finRange nbuf
  have ring := ring_foldl (c := ⟨fun _ => ⟨0, 0, false, false, 0, none, fun _ => 0⟩, fun _ => none, fun _ => none⟩)
    all ⟨rfl, rfl⟩
  rw [List.append_nil] at ring
  exact ring

theorem length_eq (lists : c.Lists list) : list.length = nbuf := by
  have all : list.toFinset = Finset.univ := Finset.ext fun i => by simp [lists.complete i]
  rw [← List.toFinset_card_of_nodup lists.nodup, all, Finset.card_univ, Fintype.card_fin]

theorem set (lists : c.Lists list) (i : Fin nbuf) (b : Buf) : (c.set i b).Lists list :=
  ⟨lists.ring, lists.nodup, lists.complete⟩

/-- On the linked buffers `bget` does what it does on the list. -/
theorem bget (lists : c.Lists list) (dev blockno : BitVec 32) :
    c.bget dev blockno =
      (MiniOS.bget ⟨c.buf, list⟩ dev blockno).map fun out => ({ c with buf := out.1.buf }, out.2) := by
  have short : list.length < nbuf + 1 := Nat.lt_succ_of_le (Nat.le_of_eq lists.length_eq)
  have back : Segment c.prev c.next none (list.reverse.map some) none := by
    rw [List.map_reverse]
    exact Segment.reverse lists.ring
  simp only [LinkedCache.bget, MiniOS.bget, scan_segment _ lists.ring short, ok_bind,
    scan_segment _ back (List.length_reverse ▸ short)]
  cases list.find? fun i => decide ((c.buf i).dev = dev ∧ (c.buf i).blockno = blockno) with
  | some i => rfl
  | none =>
    cases list.reverse.find? fun i => decide ((c.buf i).refcnt = 0 ∧ (c.buf i).dirty = false) with
    | some i => rfl
    | none => rfl

/-- `brelse` moves a buffer to the front. -/
theorem front (lists : c.Lists (l ++ i :: l')) : ((c.unlink i).linkFront i).Lists (i :: (l ++ l')) := by
  have members := List.nodup_middle.1 lists.nodup
  obtain ⟨new, others⟩ := List.nodup_cons.1 members
  refine ⟨ring_linkFront (ring_unlink lists.ring lists.nodup) new others, members, fun j => ?_⟩
  exact List.perm_middle.mem_iff.1 (lists.complete j)

/-- On the linked buffers `brelse` does what it does on the list. -/
theorem brelse (lists : c.Lists list) (i : Fin nbuf) :
    (c.brelse i).buf = (brelseLocked ⟨c.buf, list⟩ i).buf ∧
    (c.brelse i).Lists (brelseLocked ⟨c.buf, list⟩ i).list := by
  have base := lists.set i { c.buf i with refcnt := (c.buf i).refcnt - 1 }
  by_cases zero : (c.buf i).refcnt - 1 = 0
  · obtain ⟨l, l', _, rfl, erased⟩ := List.exists_erase_eq (lists.complete i)
    have moved := base.front
    rw [← erased] at moved
    simp only [LinkedCache.brelse, brelseLocked, if_pos zero]
    exact ⟨rfl, moved⟩
  · simp only [LinkedCache.brelse, brelseLocked, if_neg zero]
    exact ⟨rfl, base⟩

end Lists

end LinkedCache

end MiniOS
