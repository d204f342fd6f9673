import MiniOS.Slab.Free

namespace MiniOS

open Lib

variable {k : Kernel} {c : Nat}

/-- An object that `kmalloc` returned and nobody has freed yet, with the
size that was asked for and the bit that stands for the object. -/
structure Obj where
  addr : Nat
  cls : Nat
  req : Int
  slot : Nat
  deriving DecidableEq, Repr

/-- The descriptor of the class still has the object size that `slabinit` stored. -/
def Intact (k : Kernel) (c : Nat) : Prop := k.int c .size = classSize c

/-- Page `p` of class `c` is a page that `kalloc` handed out to the class. -/
structure HeldPage (k : Kernel) (c p : Nat) : Prop where
  isPage : k.IsPage (pagePtr k c p)
  holder : k.holder (pagePtr k c p) = some (.objectsOf c)

/-- `kalloc` had nothing when page `p` of class `c` was opened. The slot that
opened it was never handed out as an object, so its bit stays set for good. -/
structure NullPage (k : Kernel) (c p : Nat) : Prop where
  null : pagePtr k c p = 0
  notFirst : p ≠ 0
  start : p * perPage c ∈ k.slots c

/-- What holds for one class at all times. The size in the descriptor is
spoilt once the class before it stores a pointer into `page[100]`. -/
structure ClassInv (k : Kernel) (c : Nat) : Prop where
  width : k.int c .numObjectsPerPage = perPage c
  size : Intact k c ∨ k.IsPage (k.ptr c .size)
  bitmapPage : k.IsPage (k.ptr c .bitmap)
  bitmapHeld : k.holder (k.ptr c .bitmap) = some (.bitmapOf c)
  bounded : ∀ z ∈ k.slots c, z < capacity c
  used : k.int c .numUsedObjects = (k.slots c).card
  total : k.int c .numUsedObjects + k.int c .numFreeObjects = capacity c
  numPages : k.int c .numPages = pagesInUse (perPage c) (k.slots c)
  pages : ∀ p, PageInUse (perPage c) (k.slots c) p → HeldPage k c p ∨ NullPage k c p
  entries : ∀ p q, PageInUse (perPage c) (k.slots c) p → q < p → k.IsPage (pagePtr k c q) ∨ NullPage k c q
  order : ∀ p q, PageInUse (perPage c) (k.slots c) p → HeldPage k c p → q < p → pagePtr k c q ≠ pagePtr k c p
  owned : ∀ pg, k.holder pg = some (.objectsOf c) →
    ∃ p, PageInUse (perPage c) (k.slots c) p ∧ pagePtr k c p = pg

/-- What holds for every live object. -/
structure LiveInv (k : Kernel) (o : Obj) : Prop where
  cls : o.cls < 9
  req : 0 < o.req ∧ o.req ≤ classSize o.cls
  slot : o.slot < capacity o.cls
  addr : o.addr = objAddr k o.cls o.slot
  occupied : o.slot / perPage o.cls ∈ occupiedPages (perPage o.cls) (k.slots o.cls)
  held : pagePtr k o.cls (o.slot / perPage o.cls) ≠ 0 →
    o.slot ∈ k.slots o.cls ∨ ¬Intact k o.cls ∧ o.slot % perPage o.cls = 0
  null : pagePtr k o.cls (o.slot / perPage o.cls) = 0 → o.slot % perPage o.cls ≠ 0

/-- Two live objects have different bits, except in a page that does not exist. -/
def Distinct (k : Kernel) (o o' : Obj) : Prop :=
  o.cls = o'.cls → o.slot = o'.slot → pagePtr k o.cls (o.slot / perPage o.cls) = 0

structure Inv (k : Kernel) (live : List Obj) : Prop where
  classes : ∀ c < 9, ClassInv k c
  objects : ∀ o ∈ live, LiveInv k o
  distinct : live.Pairwise (Distinct k)

/-- No class has stored a pointer into `page[100]`. -/
def AllIntact (k : Kernel) : Prop := ∀ c < 9, Intact k c

/-- `kalloc` has never failed while a page was opened. -/
def NoNull (k : Kernel) : Prop :=
  ∀ c < 9, ∀ p, PageInUse (perPage c) (k.slots c) p → pagePtr k c p ≠ 0

theorem Distinct.symm {o o' : Obj} (distinct : Distinct k o o') : Distinct k o' o := by
  intro cls slot
  have null := distinct cls.symm slot.symm
  rwa [← cls, ← slot] at null

theorem classSize_pos (c : Nat) : 0 < classSize c := Nat.pow_pos (by decide)

theorem classSize_le (bound : c < 9) : classSize c ≤ 2048 := by
  interval_cases c <;> decide

theorem capacity_le_pages : capacity c ≤ 100 * perPage c := by
  rw [capacity, Nat.mul_comm]
  apply Nat.mul_le_mul_right
  split <;> decide

/-- An object ends within its page. -/
theorem slot_end_le (bound : c < 9) (z : Nat) :
    z % perPage c * classSize c + classSize c ≤ 4096 := by
  rw [← perPage_mul_classSize bound, ← Nat.succ_mul]
  exact Nat.mul_le_mul_right _ (Nat.mod_lt z (perPage_pos bound))

/-- A pointer in the place of the size is negative when it is read as an `int`. -/
theorem Kernel.IsPage.toInt_neg {c : Int} {f : Field} (page : k.IsPage (k.ptr c f)) :
    k.int c f = (k.ptr c f : Int) - 2 ^ 32 := by
  have low := page.low
  rw [Kernel.int, Kernel.ptr] at *
  rw [BitVec.toInt_eq_toNat_cond, if_neg (by omega)]
  rfl

theorem Kernel.IsPage.not_intact (page : k.IsPage (k.ptr c .size)) : ¬Intact k c := by
  have high := page.high
  rw [Intact, page.toInt_neg]
  omega

theorem Kernel.IsPage.ne_zero {pg : Nat} (page : k.IsPage pg) : pg ≠ 0 := by
  have := page.low
  omega

theorem heldPage_iff {p : Nat} : HeldPage k c p ↔ k.IsPage (pagePtr k c p) ∧
    k.holder (pagePtr k c p) = some (.objectsOf c) :=
  ⟨fun held => ⟨held.1, held.2⟩, fun held => ⟨held.1, held.2⟩⟩

theorem HeldPage.ne_zero {p : Nat} (held : HeldPage k c p) : pagePtr k c p ≠ 0 :=
  held.isPage.ne_zero

namespace ClassInv

variable {k : Kernel} {c p q : Nat} (inv : ClassInv k c)

include inv

theorem page_lt (bound : c < 9) (inUse : PageInUse (perPage c) (k.slots c) p) : p < 100 := by
  rcases inUse with zero | occupied
  · omega
  · obtain ⟨z, member, rfl⟩ := mem_occupiedPages.1 occupied
    rw [Nat.div_lt_iff_lt_mul (perPage_pos bound)]
    exact (inv.bounded z member).trans_le capacity_le_pages

theorem heldPage (inUse : PageInUse (perPage c) (k.slots c) p) (real : pagePtr k c p ≠ 0) : HeldPage k c p :=
  (inv.pages p inUse).resolve_right fun page => real page.null

/-- Pages in use do not share a pointer. -/
theorem page_injective (inUse : PageInUse (perPage c) (k.slots c) p) (inUse' : PageInUse (perPage c) (k.slots c) q)
    (real : pagePtr k c p ≠ 0) (same : pagePtr k c p = pagePtr k c q) : p = q := by
  rcases Nat.lt_trichotomy p q with below | equal | above
  · exact absurd same (inv.order q p inUse' (inv.heldPage inUse' (same ▸ real)) below)
  · exact equal
  · exact absurd same.symm (inv.order p q inUse (inv.heldPage inUse real) above)

theorem card_le : (k.slots c).card ≤ capacity c := by
  have subset : k.slots c ⊆ Finset.range (capacity c) := fun z used => Finset.mem_range.2 (inv.bounded z used)
  simpa only [Finset.card_range] using Finset.card_le_card subset

end ClassInv

/-- Nothing of a class changes but, perhaps, its size. -/
structure Untouched (k k' : Kernel) (c : Nat) : Prop where
  field : ∀ f : Field, 1 ≤ f.offset → f.offset < 6 → k'.field c f = k.field c f
  pointer : ∀ {p}, p < 100 → pagePtr k' c p = pagePtr k c p
  slots : k'.slots c = k.slots c
  isPage : ∀ {pg}, k'.IsPage pg ↔ k.IsPage pg
  bitmap : ∀ {pg}, k.holder pg = some (.bitmapOf c) → k'.holder pg = some (.bitmapOf c)
  objects : ∀ {pg}, k'.holder pg = some (.objectsOf c) ↔ k.holder pg = some (.objectsOf c)

theorem ClassInv.untouched {k' : Kernel} (cls : ClassInv k c) (bound : c < 9) (same : Untouched k k' c)
    (size : Intact k' c ∨ k'.IsPage (k'.ptr c .size)) : ClassInv k' c := by
  have counter (f : Field) (low : 1 ≤ f.offset) (high : f.offset < 6) : k'.int c f = k.int c f :=
    Kernel.int_eq_of_field (same.field f low high)
  have bitmap : k'.ptr c .bitmap = k.ptr c .bitmap := Kernel.ptr_eq_of_field (same.field _ (by decide) (by decide))
  have held {p : Nat} (index : p < 100) : HeldPage k' c p ↔ HeldPage k c p := by
    rw [heldPage_iff, heldPage_iff, same.pointer index, same.isPage, same.objects]
  have null {p : Nat} (index : p < 100) (null : NullPage k c p) : NullPage k' c p :=
    ⟨(same.pointer index).trans null.null, null.notFirst, by rw [same.slots]; exact null.start⟩
  have index {p : Nat} (inUse : PageInUse (perPage c) (k.slots c) p) : p < 100 := cls.page_lt bound inUse
  refine ⟨?_, size, ?_, ?_, ?_, ?_, ?_, ?_, fun p inUse => ?_, fun p q inUse below => ?_,
    fun p q inUse page below => ?_,
    fun pg holder => ?_⟩
  · rw [counter .numObjectsPerPage (by decide) (by decide), cls.width]
  · rw [bitmap, same.isPage]
    exact cls.bitmapPage
  · rw [bitmap]
    exact same.bitmap cls.bitmapHeld
  · rw [same.slots]
    exact cls.bounded
  · rw [counter .numUsedObjects (by decide) (by decide), same.slots, cls.used]
  · rw [counter .numUsedObjects (by decide) (by decide), counter .numFreeObjects (by decide) (by decide), cls.total]
  · rw [counter .numPages (by decide) (by decide), same.slots, cls.numPages]
  · rw [same.slots] at inUse
    exact (cls.pages p inUse).imp (held (index inUse)).2 (null (index inUse))
  · rw [same.slots] at inUse
    have low := below.trans (index inUse)
    rw [same.pointer low, same.isPage]
    exact (cls.entries p q inUse below).imp_right (null low)
  · rw [same.slots] at inUse
    rw [same.pointer (below.trans (index inUse)), same.pointer (index inUse)]
    exact cls.order p q inUse ((held (index inUse)).1 page) below
  · obtain ⟨p, inUse, pointed⟩ := cls.owned pg (same.objects.1 holder)
    exact ⟨p, by rwa [same.slots], (same.pointer (index inUse)).trans pointed⟩

namespace Inv

variable {k : Kernel} {live : List Obj} {c d p : Nat} {o o' : Obj} (inv : Inv k live)

include inv

/-- The page of an object does not meet the bitmap of any class. -/
theorem page_bitmap_apart (bound : d < 9) (held : HeldPage k c p) :
    pagePtr k c p + 4096 ≤ k.ptr d .bitmap ∨ k.ptr d .bitmap + 4096 ≤ pagePtr k c p := by
  have page := held.isPage
  have bitmap := (inv.classes d bound).bitmapPage
  have different : pagePtr k c p ≠ k.ptr d .bitmap := by
    intro same
    have holder := held.holder
    rw [same, (inv.classes d bound).bitmapHeld] at holder
    cases holder
  have := page.aligned
  have := bitmap.aligned
  omega

theorem bitmaps_apart (bound : c < 9) (bound' : d < 9) (different : c ≠ d) :
    k.ptr c .bitmap + 4096 ≤ k.ptr d .bitmap ∨ k.ptr d .bitmap + 4096 ≤ k.ptr c .bitmap := by
  have page := (inv.classes c bound).bitmapPage
  have page' := (inv.classes d bound').bitmapPage
  have apart : k.ptr c .bitmap ≠ k.ptr d .bitmap := by
    intro same
    have holder := (inv.classes c bound).bitmapHeld
    rw [same, (inv.classes d bound').bitmapHeld] at holder
    simp only [Option.some.injEq, Holder.bitmapOf.injEq, Nat.cast_inj] at holder
    exact different holder.symm
  have := page.aligned
  have := page'.aligned
  omega

theorem object_pageInUse (member : o ∈ live) : PageInUse (perPage o.cls) (k.slots o.cls) (o.slot / perPage o.cls) :=
  .inr (inv.objects o member).occupied

theorem object_used_pos (member : o ∈ live) : 0 < (k.slots o.cls).card := by
  obtain ⟨z, used, _⟩ := mem_occupiedPages.1 (inv.objects o member).occupied
  exact Finset.card_pos.2 ⟨z, used⟩

/-- An object lies in its page. -/
theorem object_mem_page (member : o ∈ live) : pagePtr k o.cls (o.slot / perPage o.cls) ≤ o.addr ∧
    o.addr + classSize o.cls ≤ pagePtr k o.cls (o.slot / perPage o.cls) + 4096 := by
  have object := inv.objects o member
  have fits := slot_end_le object.cls o.slot
  rw [object.addr, objAddr]
  omega

/-- Live objects in pages that exist do not meet. -/
theorem disjoint (member : o ∈ live) (member' : o' ∈ live) (distinct : Distinct k o o')
    (real : pagePtr k o.cls (o.slot / perPage o.cls) ≠ 0) (real' : pagePtr k o'.cls (o'.slot / perPage o'.cls) ≠ 0) :
    o.addr + classSize o.cls ≤ o'.addr ∨ o'.addr + classSize o'.cls ≤ o.addr := by
  have object := inv.objects o member
  have object' := inv.objects o' member'
  have inUse := inv.object_pageInUse member
  have inUse' := inv.object_pageInUse member'
  have held := (inv.classes o.cls object.cls).heldPage inUse real
  have held' := (inv.classes o'.cls object'.cls).heldPage inUse' real'
  by_cases samePage : pagePtr k o.cls (o.slot / perPage o.cls) = pagePtr k o'.cls (o'.slot / perPage o'.cls)
  · have sameClass : o.cls = o'.cls := by
      have holder := held.holder
      rw [samePage, held'.holder] at holder
      simp only [Option.some.injEq, Holder.objectsOf.injEq, Nat.cast_inj] at holder
      exact holder.symm
    have addr := object.addr
    have addr' := object'.addr
    rw [objAddr] at addr addr'
    rw [samePage] at addr
    rw [← sameClass] at addr' samePage inUse' addr ⊢
    have index := (inv.classes o.cls object.cls).page_injective inUse inUse' real samePage
    have apart : o.slot % perPage o.cls ≠ o'.slot % perPage o.cls := by
      intro same
      refine real (distinct sameClass ?_)
      rw [← Nat.div_add_mod o.slot (perPage o.cls), ← Nat.div_add_mod o'.slot (perPage o.cls), index, same]
    rcases Nat.lt_or_gt_of_ne apart with less | greater
    · have step := Nat.mul_le_mul_right (classSize o.cls) (Nat.succ_le_of_lt less)
      rw [Nat.succ_mul] at step
      omega
    · have step := Nat.mul_le_mul_right (classSize o.cls) (Nat.succ_le_of_lt greater)
      rw [Nat.succ_mul] at step
      omega
  · have within := inv.object_mem_page member
    have within' := inv.object_mem_page member'
    have := held.isPage.aligned
    have := held'.isPage.aligned
    omega

end Inv

end MiniOS
