import MiniOS.Slab.Exact

namespace MiniOS

open Lib Relation

theorem lowestFree_range (n : Nat) : LowestFree (Finset.range n) n :=
  ⟨by simp, fun _ less => Finset.mem_range.2 less⟩

/-- Slots below `pages * width` lie in the first `pages` pages. -/
theorem pagesInUse_le_of_bounded {width pages : Nat} {taken : Finset Nat} (some : 0 < pages)
    (bound : ∀ z ∈ taken, z < pages * width) : pagesInUse width taken ≤ pages := by
  rw [pagesInUse_eq_card]
  have subset : insert 0 (occupiedPages width taken) ⊆ Finset.range pages := by
    intro page member
    rw [Finset.mem_range]
    rcases Finset.mem_insert.1 member with rfl | occupied
    · exact some
    · obtain ⟨z, inside, rfl⟩ := mem_occupiedPages.1 occupied
      exact Nat.div_lt_of_lt_mul (Nat.mul_comm pages width ▸ bound z inside)
  simpa only [Finset.card_range] using Finset.card_le_card subset

/-- Class `c` has its first `n` slots taken and no other class has any. -/
structure Filled (w : World) (c n : Nat) (spare : List Nat) : Prop where
  present : Present w
  intact : Intact w.kernel c
  slots : w.kernel.slots c = Finset.range n
  others : ∀ d : Nat, d < 9 → d ≠ c → w.kernel.slots d = ∅
  spare : Spare w.kernel spare

theorem Bootable.filled {k : Kernel} {pages : List Nat} (boot : Bootable k pages) (c : Nat) (bound : c < 9) :
    ∃ rest, rest.length + 18 = pages.length ∧ Filled ⟨slabinit k, []⟩ c 0 rest := by
  obtain ⟨rest, length, booting⟩ := boot.slabinit_ready
  exact ⟨rest, length, boot.present, boot.exact.intact c bound, (booting.ready c bound).empty, fun d bound' _ =>
    (booting.ready d bound').empty,
    booting.spare⟩

namespace Filled

variable {k k' : Kernel} {live : List Obj} {c n p : Nat} {size : Int} {pg : Nat} {rest : List Nat}

theorem fresh (filled : Filled ⟨k, live⟩ c n (pg :: rest)) : Fresh k := by
  have head : k.freelist = pg := filled.spare.linked.1
  refine ⟨?_, ?_⟩
  · rw [head]
    exact filled.spare.isPage pg (.head _)
  · rw [head]
    exact filled.spare.unheld pg (.head _)

theorem passes (filled : Filled ⟨k, live⟩ c n rest) (bound : c < 9) (room : n < capacity c) :
    kmallocRefuses k c = false := by
  have slots : k.slots c = Finset.range n := filled.slots
  rw [← Bool.not_eq_true, filled.present.inv.refuses_iff bound, slots, Finset.card_range]
  rintro (full | full)
  · omega
  · by_cases zero : c = 0
    · subst zero
      rw [slots, Finset.card_range] at full
      omega
    · have empty : k.slots (0 : Nat) = ∅ := filled.others 0 (by decide) (Ne.symm zero)
      rw [empty] at full
      cases full

theorem served (filled : Filled ⟨k, live⟩ c n rest) (positive : 0 < size) (small : size ≤ 2048)
    (idx : kmallocIdx size = c) (bound : c < 9) (room : n < capacity c) : Served k size c n := by
  have slots : k.slots c = Finset.range n := filled.slots
  obtain ⟨d, z, served⟩ := filled.present.inv.served positive small (idx ▸ filled.passes bound room)
  have same : d = c := by
    have := served.idx
    omega
  subst same
  have lowest := served.lowest
  rw [slots] at lowest
  rwa [lowest.unique (lowestFree_range n)] at served

theorem opens (filled : Filled ⟨k, live⟩ c n rest) (bound : c < 9) (nonzero : n ≠ 0) (start : n % perPage c = 0) :
    Opens k c n := by
  have slots : k.slots c = Finset.range n := filled.slots
  have lowest : LowestFree (k.slots c) n := by
    rw [slots]
    exact lowestFree_range n
  refine (lowest.not_pageInUse_iff (perPage_pos bound)).2 ⟨nonzero, start, fun z used => ?_⟩
  rw [slots, Finset.mem_range] at used
  exact (Nat.div_lt_div_of_lt_of_dvd (Nat.dvd_of_mod_eq_zero start) used).ne

theorem given (filled : Filled ⟨k, live⟩ c n (pg :: rest)) (positive : 0 < size) (small : size ≤ 2048)
    (idx : kmallocIdx size = c) (bound : c < 9) (room : n < capacity c) : ∃ k' p, Given k size c n k' p :=
  filled.present.given (filled.served positive small idx bound room) filled.intact fun _ _ => filled.fresh

theorem spare_kmalloc (filled : Filled ⟨k, live⟩ c n (pg :: rest)) (given : Given k size c n k' p) :
    ∃ rest', Spare k' rest' ∧ rest.length ≤ rest'.length := by
  have alloc := given.alloc
  have kept : ∀ {pages}, Linked k.mem k'.freelist pages → (∀ qg ∈ pages, qg ∈ pg :: rest ∧ k'.holder qg = none) →
      pages.Nodup → Spare k' pages := by
    intro pages linked unheld nodup
    have page : ∀ qg ∈ pages, k.IsPage qg := fun qg member => filled.spare.isPage qg (unheld qg member).1
    refine ⟨linked.congr fun qg member a low high => ?_, fun qg member => alloc.isPage.2 (page qg member),
      fun qg member => (unheld qg member).2, nodup⟩
    exact filled.present.unheld_mem given (page qg member) (unheld qg member).2 low high
  have head : k.freelist = pg := filled.spare.linked.1
  have nonzero := (filled.spare.isPage pg (.head _)).ne_zero
  by_cases opens : Opens k c n
  · refine ⟨rest, kept ?_ (fun qg member => ?_) (List.nodup_cons.1 filled.spare.nodup).2, le_rfl⟩
    · rw [alloc.freelist, if_pos opens]
      simp only [kalloc, head, nonzero, if_false]
      exact filled.spare.linked.2
    · refine ⟨.tail _ member, ?_⟩
      have other : qg ≠ pg := fun same => (List.nodup_cons.1 filled.spare.nodup).1 (same ▸ member)
      rw [(alloc.opened opens).2, head, if_neg nonzero, Function.update_of_ne other]
      exact filled.spare.unheld qg (.tail _ member)
  · refine ⟨pg :: rest, kept ?_ (fun qg member => ⟨member, ?_⟩) filled.spare.nodup, by simp⟩
    · rw [alloc.freelist, if_neg opens]
      exact filled.spare.linked
    · rw [alloc.kept opens]
      exact filled.spare.unheld qg member

theorem modest (filled : Filled ⟨k, live⟩ c n rest) (early : n ≤ 99 * perPage c) : Modest k := by
  have slots : k.slots c = Finset.range n := filled.slots
  intro d bound
  have numPages : k.int d .numPages = pagesInUse (perPage d) (k.slots d) :=
    (filled.present.inv.classes d bound).numPages
  have few : pagesInUse (perPage d) (k.slots d) ≤ 99 := by
    refine pagesInUse_le_of_bounded (by decide) fun z used => ?_
    by_cases same : d = c
    · subst same
      rw [slots, Finset.mem_range] at used
      omega
    · have empty : k.slots d = ∅ := filled.others d bound same
      rw [empty] at used
      cases used
  omega

/-- One more object. -/
theorem kmalloc_step (filled : Filled ⟨k, live⟩ c n (pg :: rest)) (positive : 0 < size) (small : size ≤ 2048)
    (idx : kmallocIdx size = c) (bound : c < 9) (room : n < capacity c) :
    ∃ k' p rest', kmalloc k size = .ok (k', p) ∧ Step Provided ⟨k, live⟩ ⟨k', newObj k size p :: live⟩ ∧
      Filled ⟨k', newObj k size p :: live⟩ c (n + 1) rest' ∧ rest.length ≤ rest'.length := by
  obtain ⟨k', p, given⟩ := filled.given positive small idx bound room
  obtain ⟨rest', spare, length⟩ := filled.spare_kmalloc given
  have slots : k.slots c = Finset.range n := filled.slots
  have step : Step Provided ⟨k, live⟩ ⟨k', newObj k size p :: live⟩ := by
    have step : Step Provided ⟨k, live⟩ ⟨k', if p = 0 then live else newObj k size p :: live⟩ :=
      .kmalloc positive small (fun _ _ => filled.fresh) given.call
    rwa [if_neg given.real] at step
  refine ⟨k', p, rest', given.call, step, ⟨filled.present.step step, ?_, ?_, ?_, spare⟩, length⟩
  · rw [Intact, Kernel.int_eq_of_field (given.alloc.size_other given.takes fun next => by omega)]
    exact filled.intact
  · rw [given.alloc.slots, slots, Finset.range_add_one]
  · intro d bound' other
    have empty : k.slots d = ∅ := filled.others d bound' other
    rw [given.alloc.otherSlots filled.present.inv given.takes given.supplied given.served.asked.2 bound' other, empty]

end Filled

/-- Any number of objects of one class that the class has room for can be allocated right after
`slabinit`. As long as they fit into 99 pages, no class gets more than that. -/
theorem Bootable.fill {k : Kernel} {pages : List Nat} {c n : Nat} {size : Int} (boot : Bootable k pages)
    (positive : 0 < size) (small : size ≤ 2048) (idx : kmallocIdx size = c) (bound : c < 9) (room : n ≤ capacity c)
    (enough : n + 19 ≤ pages.length) :
    ∃ w pg rest, ReflTransGen (Step Provided) ⟨slabinit k, []⟩ w ∧
      (n ≤ 99 * perPage c → ReflTransGen ModestStep ⟨slabinit k, []⟩ w) ∧ Filled w c n (pg :: rest) ∧
      w.live.length = n ∧
      pages.length ≤ rest.length + n + 19 := by
  induction n with
  | zero =>
    obtain ⟨rest, length, filled⟩ := boot.filled c bound
    obtain ⟨pg, rest, rfl⟩ := List.exists_cons_of_length_pos (l := rest) (by omega)
    rw [List.length_cons] at length
    exact ⟨_, pg, rest, .refl, fun _ => .refl, filled, rfl, by omega⟩
  | succ n ih =>
    obtain ⟨⟨k', live⟩, pg, rest, run, modestRun, filled, count, length⟩ := ih (by omega) (by omega)
    obtain ⟨k'', p, rest', _, step, filled', length'⟩ := filled.kmalloc_step positive small idx bound (by omega)
    obtain ⟨pg', rest', rfl⟩ := List.exists_cons_of_length_pos (l := rest') (by omega)
    rw [List.length_cons] at length'
    exact ⟨_, pg', rest', run.tail step, fun early => (modestRun (by omega)).tail
      ⟨step, filled'.modest early⟩, filled',
      congrArg Nat.succ count, by omega⟩

end MiniOS
