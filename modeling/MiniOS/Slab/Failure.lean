import MiniOS.Slab.Room

namespace MiniOS

open Lib Relation

/-- `kmalloc` gets past its tests and asks `kalloc` for a page. -/
def NeedsPage (k : Kernel) (size : Int) : Prop :=
  kmallocRefuses k (kmallocIdx size) = false ∧ ∃ i, newPageIndex k (kmallocIdx size) = .ok (some i)

/-- `kmalloc` answers 0 and leaves the books, the pages in use and memory as they were, and
once `kalloc` has a page again it gives out an object. -/
structure FailsCleanly (k : Kernel) (size : Int) (k' : Kernel) : Prop where
  call : kmalloc k size = .ok (k', 0)
  slots : ∀ c : Nat, c < 9 → k'.slots c = k.slots c
  used : ∀ c : Nat, c < 9 → k'.int c .numUsedObjects = k.int c .numUsedObjects
  free : ∀ c : Nat, c < 9 → k'.int c .numFreeObjects = k.int c .numFreeObjects
  pages : ∀ c : Nat, c < 9 → k'.int c .numPages = k.int c .numPages
  entries : ∀ c : Nat, c < 9 → ∀ p, PageInUse (perPage c) (k.slots c) p → pagePtr k' c p = pagePtr k c p
  mem : k'.mem = k.mem
  later : ∀ k₁, Elsewhere k' k₁ → Fresh k₁ → ∃ k₂ p, kmalloc k₁ size = .ok (k₂, p) ∧ p ≠ 0

section Counters

variable {k k' : Kernel} {slabIdx : Int}

/-- The store of a page pointer changes at most one word. -/
theorem openPage_frame (ended : openPage k slabIdx = .ok k') :
    k'.int slabIdx .numUsedObjects = k.int slabIdx .numUsedObjects ∨
    k'.int slabIdx .numFreeObjects = k.int slabIdx .numFreeObjects := by
  unfold openPage at ended
  obtain ⟨index, _, ended⟩ := bind_eq_ok.1 ended
  cases index with
  | none =>
    cases ended
    exact .inl rfl
  | some i =>
    cases ended
    by_cases hit : Field.numUsedObjects.word slabIdx = (Field.page i).word slabIdx
    · refine .inr (Kernel.int_eq_of_field ((Kernel.field_setField_ne ?_).trans (kalloc_field _ _ _ _)))
      simp only [Field.word, Field.offset] at hit ⊢
      omega
    · exact .inl (Kernel.int_eq_of_field ((Kernel.field_setField_ne hit).trans (kalloc_field _ _ _ _)))

theorem ofInt_toInt_add_ne (x : BitVec 32) : (BitVec.ofInt 32 (x.toInt + 1)).toInt ≠ x.toInt := by
  rw [BitVec.ofInt_add, BitVec.ofInt_toInt, ne_eq, BitVec.toInt_inj]
  bv_omega

theorem ofInt_toInt_sub_ne (x : BitVec 32) : (BitVec.ofInt 32 (x.toInt - 1)).toInt ≠ x.toInt := by
  rw [Int.sub_eq_add_neg, BitVec.ofInt_add, BitVec.ofInt_toInt, ne_eq, BitVec.toInt_inj]
  bv_omega

theorem countAlloc_counts (k : Kernel) (slabIdx pages : Int) :
    (countAlloc k slabIdx pages).int slabIdx .numUsedObjects ≠ k.int slabIdx .numUsedObjects ∧
      (countAlloc k slabIdx pages).int slabIdx .numFreeObjects ≠ k.int slabIdx .numFreeObjects := by
  have apart : ∀ f g : Field, f.offset ≠ g.offset → f.word slabIdx ≠ g.word slabIdx := by
    intro f g different
    simp only [Field.word]
    omega
  constructor
  · simp only [countAlloc, Kernel.int, Kernel.setInt, Kernel.field_setField_same,
      Kernel.field_setField_ne (apart .numUsedObjects .numFreeObjects (by decide)),
      Kernel.field_setField_ne (apart .numUsedObjects .numPages (by decide))]
    exact ofInt_toInt_add_ne _
  · simp only [countAlloc, Kernel.int, Kernel.setInt, Kernel.field_setField_same,
      Kernel.field_setField_ne (apart .numFreeObjects .numUsedObjects (by decide)),
      Kernel.field_setField_ne (apart .numFreeObjects .numPages (by decide))]
    exact ofInt_toInt_sub_ne _

/-- The section of `kmalloc` always counts an object. -/
theorem kmallocLocked_counts {size : Int} {p : Nat} (ended : kmallocLocked k slabIdx size = .ok (k', p)) :
    k'.int slabIdx .numUsedObjects ≠ k.int slabIdx .numUsedObjects ∨
    k'.int slabIdx .numFreeObjects ≠ k.int slabIdx .numFreeObjects := by
  simp only [kmallocLocked, bind_eq_ok] at ended
  obtain ⟨k₁, opened, pages, _, q, _, ended⟩ := ended
  cases ended
  have counts := countAlloc_counts (setBitmap k₁ slabIdx).1 slabIdx pages
  rw [int_congr (setBitmap_words k₁ slabIdx), int_congr (setBitmap_words k₁ slabIdx)] at counts
  rw [Kernel.int_withMem, Kernel.int_withMem]
  rcases openPage_frame opened with same | same
  · rw [same] at counts
    exact .inl counts.1
  · rw [same] at counts
    exact .inr counts.2

end Counters

/-- Whenever `kmalloc` has to ask for a page and there is none, the books are wrong
afterwards. So it fails cleanly only if that does not happen. -/
theorem kmalloc_fails_cleanly_iff {k : Kernel} {size : Int} (positive : 0 < size) (small : size ≤ 2048) :
    (NeedsPage k size → k.freelist = 0 → ∃ k', FailsCleanly k size k') ↔ ¬(NeedsPage k size ∧ k.freelist = 0) := by
  constructor
  · rintro clean ⟨needs, empty⟩
    obtain ⟨k', fails⟩ := clean needs empty
    obtain ⟨c, bound, idx, _⟩ := kmallocIdx_spec positive small
    have sizes : ¬(size > 2048 ∨ size ≤ 0) := by omega
    have call := fails.call
    rw [kmalloc, if_neg sizes, needs.1, if_neg (by decide), idx] at call
    rcases kmallocLocked_counts call with wrong | wrong
    · exact wrong (fails.used c bound)
    · exact wrong (fails.free c bound)
  · intro never needs empty
    exact absurd ⟨needs, empty⟩ never

theorem kmalloc_fails_cleanly_first : ∃ k pages, Bootable k pages ∧
    (NeedsPage (slabinit k) 8 → (slabinit k).freelist = 0 → ∃ k', FailsCleanly (slabinit k) 8 k') := by
  obtain ⟨k, pages, boot, enough⟩ := exists_bootable
  obtain ⟨rest, length, filled⟩ := boot.filled 0 (by decide)
  obtain ⟨pg, rest, rfl⟩ := List.exists_cons_of_length_pos (l := rest) (by omega)
  exact ⟨k, pages, boot, (kmalloc_fails_cleanly_iff (by decide) (by decide)).mpr fun ⟨_, empty⟩ =>
    filled.fresh.isPage.ne_zero empty⟩

/-- Other code of the kernel takes all pages of the free list. -/
theorem Elsewhere.takes_all (k : Kernel) : Elsewhere k { k with
    freelist := 0
    holder := fun pg => if k.holder pg = none then some .other else k.holder pg } where
  words := rfl
  kend := rfl
  holder pg h slab := by
    by_cases free : k.holder pg = none
    · simp only [free, if_true, Option.some.injEq, reduceCtorEq, iff_false]
      exact fun same => slab same.symm
    · simp only [free, if_false]
  mem _ _ _ _ _ _ _ := rfl

theorem Filled.without_pages {k k' : Kernel} {live : List Obj} {c n : Nat} {pages : List Nat}
    (filled : Filled ⟨k, live⟩ c n pages) (bound : c < 9) (elsewhere : Elsewhere k k') :
    Filled ⟨k', live⟩ c n [] where
  present := filled.present.step (.elsewhere elsewhere)
  intact := (intact_congr elsewhere.words).2 filled.intact
  slots := (elsewhere.slots filled.present.inv bound).trans filled.slots
  others _ bound other := (elsewhere.slots filled.present.inv bound).trans (filled.others _ bound other)
  spare := ⟨trivial, nofun, nofun, List.nodup_nil⟩

/-- The first page of the class of 2048 bytes is full and all other pages are taken. The next
call answers 0, but the class has one more object. -/
theorem kmalloc_counts_missing_page : ∃ k pages w, Bootable k pages ∧
    ReflTransGen (Step Provided) ⟨slabinit k, []⟩ w ∧
    NeedsPage w.kernel 2048 ∧ w.kernel.freelist = 0 ∧ ∃ k', kmalloc w.kernel 2048 = .ok (k', 0) ∧
      w.kernel.int 8 .numUsedObjects = 2 ∧ k'.int 8 .numUsedObjects = 3 ∧
      k'.slots 8 = insert 2 (w.kernel.slots 8) := by
  obtain ⟨k, pages, boot, enough⟩ := exists_bootable
  obtain ⟨⟨k₁, live⟩, _, _, run, _, filled, _, _⟩ :=
    boot.fill (n := 2) (c := 8) (show (0 : Int) < 2048 by decide) (by decide)
    (by decide) (by decide) (by decide) (by omega)
  have elsewhere := Elsewhere.takes_all k₁
  have run := run.tail (.elsewhere elsewhere)
  have filled := filled.without_pages (by decide) elsewhere
  have empty : Kernel.freelist { k₁ with
    freelist := 0
    holder := fun pg => if k₁.holder pg = none then some .other else k₁.holder pg } = 0 := rfl
  generalize (⟨k₁.words, k₁.mem, 0, _, k₁.kend⟩ : Kernel) = k₂ at filled empty run
  have served := filled.served (show (0 : Int) < 2048 by decide) (by decide) (by decide) (by decide) (by decide)
  have opens := filled.opens (by decide) (by decide) (by decide)
  have supplied : Supplied k₂ 8 2 := fun _ => Or.inr ⟨empty, by decide⟩
  have takes := filled.present.inv.takes served.bound filled.intact served.lowest served.inside supplied
  obtain ⟨k', p, call, alloc⟩ := takes.kmallocLocked_spec served.asked.2
  have null : p = 0 := by
    rw [alloc.addr, objAddr, (alloc.opened opens).1, empty]
    rfl
  have two : k₂.int (8 : Nat) .numUsedObjects = 2 := by
    rw [(filled.present.inv.classes 8 (by decide)).used, filled.slots, Finset.card_range]
    rfl
  have three : k'.int (8 : Nat) .numUsedObjects = 3 := by
    rw [alloc.numUsed, two]
    rfl
  exact ⟨k, pages, ⟨k₂, live⟩, boot, run, ⟨served.admitted, _, served.asks filled.present.inv opens⟩, empty, k',
    null ▸ served.passes.trans call, two, three, alloc.slots⟩

end MiniOS
