import Mathlib.Data.Set.Card
import Mathlib.Order.Interval.Finset.Nat
import MiniOS.Slab.Fill

namespace MiniOS

open Lib

variable {k : Kernel} {c : Nat}

/-- Live objects never overlap and are never disturbed, and the calls that
could disturb them return. -/
theorem live_objects_undisturbed {k : Kernel} {pages : List Nat} {w : World} (boot : Bootable k pages)
    (run : Relation.ReflTransGen ModestStep ⟨slabinit k, []⟩ w) :
    (∀ o ∈ w.live, w.kernel.int o.cls .size = classSize o.cls ∧ o.req ≤ classSize o.cls) ∧
    (∀ o ∈ w.live, ∃ pg, w.kernel.IsPage pg ∧ w.kernel.holder pg = some (.objectsOf o.cls) ∧
      pg ≤ o.addr ∧ o.addr + classSize o.cls ≤ pg + pgsize) ∧
    w.live.Pairwise (fun o o' => o.addr + classSize o.cls ≤ o'.addr ∨ o'.addr + classSize o'.cls ≤ o.addr) ∧
    (∀ size, 0 < size → size ≤ 2048 → Provided w.kernel (kmallocIdx size) →
      ∃ k' p, kmalloc w.kernel size = .ok (k', p) ∧ ∀ o ∈ w.live, Unchanged w.kernel k' o) ∧
    ∀ o ∈ w.live, ∃ k', kmfree w.kernel o.addr (classSize o.cls) = .ok k' ∧
      ∀ o' ∈ w.live.erase o, Unchanged w.kernel k' o' := by
  have exact := boot.exact_run run
  obtain ⟨k, live⟩ := w
  have real : ∀ o ∈ live, pagePtr k o.cls (o.slot / perPage o.cls) ≠ 0 := fun o => exact.real
  refine ⟨fun o member => ?_, fun o member => ?_, ?_, fun size positive small provided => ?_, fun o member => ?_⟩
  · have object := exact.inv.objects o member
    exact ⟨exact.intact o.cls object.cls, object.req.2⟩
  · have held := (exact.inv.classes o.cls (exact.inv.objects o member).cls).heldPage
      (exact.inv.object_pageInUse member) (real o member)
    exact ⟨_, held.isPage, held.holder, exact.inv.object_mem_page member⟩
  · exact exact.inv.distinct.imp_of_mem fun left right distinct =>
      exact.inv.disjoint left right distinct (real _ left) (real _ right)
  · rcases exact.inv.kmalloc_cases positive small with refused | ⟨c, z, served⟩
    · exact ⟨k, 0, refused, fun o _ a _ _ => rfl⟩
    · obtain ⟨k', p, given⟩ := exact.given served provided
      exact ⟨k', p, given.call, fun o => exact.kmalloc_unchanged given⟩
  · obtain ⟨k', result, _, unchanged⟩ := exact.kmfree_exact member
    exact ⟨k', result, unchanged⟩

theorem live_objects_undisturbed_after_kmallocs : ∃ k pages w, Bootable k pages ∧
    Relation.ReflTransGen ModestStep ⟨slabinit k, []⟩ w ∧ w.live.length = 3 ∧
    w.live.Pairwise (fun o o' => o.addr + classSize o.cls ≤ o'.addr ∨ o'.addr + classSize o'.cls ≤ o.addr) := by
  obtain ⟨k, pages, boot, enough⟩ := exists_bootable
  obtain ⟨w, _, _, _, run, _, count, _⟩ := boot.fill (n := 3) (c := 4) (show (0 : Int) < 100 by decide) (by decide)
    (by decide) (by decide) (by decide) (by omega)
  exact ⟨k, pages, w, boot, run (by decide), count, (live_objects_undisturbed boot (run (by decide))).2.2.1⟩

/-- The entries of `page` from the second on whose range of the bitmap has a set bit. -/
def laterPages (k : Kernel) (c : Nat) : Finset Nat :=
  (Finset.Icc 2 100).filter fun i => ∃ z ∈ k.slots c, z / perPage c + 1 = i

theorem ClassInv.card_laterPages (cls : ClassInv k c) (bound : c < 9) :
    1 + (laterPages k c).card = pagesInUse (perPage c) (k.slots c) := by
  have same : laterPages k c = ((occupiedPages (perPage c) (k.slots c)).erase 0).image (· + 1) := by
    ext i
    simp only [laterPages, Finset.mem_filter, Finset.mem_Icc, Finset.mem_image, Finset.mem_erase]
    constructor
    · rintro ⟨⟨low, _⟩, z, member, rfl⟩
      exact ⟨_, ⟨by omega, mem_occupiedPages.2 ⟨z, member, rfl⟩⟩, rfl⟩
    · rintro ⟨p, ⟨nonzero, occupied⟩, rfl⟩
      have index := cls.page_lt bound (.inr occupied)
      have range : 2 ≤ p + 1 ∧ p + 1 ≤ 100 := by omega
      obtain ⟨z, member, rfl⟩ := mem_occupiedPages.1 occupied
      exact ⟨range, z, member, rfl⟩
  rw [same, Finset.card_image_of_injective _ (fun _ _ => Nat.succ.inj), pagesInUse]

/-- A class holds as many pages as it has in use. -/
theorem ClassInv.card_held (cls : ClassInv k c)
    (present : ∀ p, PageInUse (perPage c) (k.slots c) p → pagePtr k c p ≠ 0) :
    {pg | k.holder pg = some (.objectsOf c)}.ncard = pagesInUse (perPage c) (k.slots c) := by
  have mem : ∀ p, p ∈ insert 0 (occupiedPages (perPage c) (k.slots c)) ↔ PageInUse (perPage c) (k.slots c) p :=
    fun p => Finset.mem_insert
  have image : {pg | k.holder pg = some (.objectsOf c)} =
      ((insert 0 (occupiedPages (perPage c) (k.slots c))).image (pagePtr k c) : Finset Nat) := by
    ext pg
    simp only [Set.mem_ofPred_eq, Finset.coe_image, Set.mem_image, Finset.mem_coe, mem]
    constructor
    · intro held
      exact cls.owned pg held
    · rintro ⟨p, inUse, rfl⟩
      exact (cls.heldPage inUse (present p inUse)).holder
  rw [image, Set.ncard_coe_finset, Finset.card_image_of_injOn, pagesInUse_eq_card]
  intro p inP q inQ same
  rw [Finset.mem_coe, mem] at inP inQ
  exact cls.page_injective inP inQ (present p inP) same

/-- `kmalloc` never calls `setBitmap` for a full bitmap: the offset it gets
is that of a bit that was clear. -/
theorem Exact.setBitmap_finds {live : List Obj} {size : Int} (exact : Exact ⟨k, live⟩)
    (positive : 0 < size) (small : size ≤ 2048) (provided : Provided k (kmallocIdx size))
    (passes : kmallocRefuses k (kmallocIdx size) = false) :
    ∃ k₁, openPage k (kmallocIdx size) = .ok k₁ ∧ ∃ z < pgsize * 8, k₁.slotBit (kmallocIdx size) z = false ∧
      (setBitmap k₁ (kmallocIdx size)).2 = z := by
  obtain ⟨c, z, served⟩ := exact.inv.served positive small passes
  obtain ⟨_, _, given⟩ := exact.given served provided
  have takes := given.takes
  have lowest : LowestFree ((opened k c z).slots c) z := by
    rw [takes.opened_slots]
    exact served.lowest
  have inside := served.inside.trans_le (capacity_le served.bound)
  rw [served.idx]
  refine ⟨_, takes.openPage_eq, z, inside, Kernel.slotBit_of_notMem inside lowest.1, ?_⟩
  rw [setBitmap_spec lowest inside]

/-- The counters of every class agree with its bitmap, with its live objects
and with the pages it holds, and `setBitmap` never fails. -/
theorem counters_exact {k : Kernel} {pages : List Nat} {w : World} (boot : Bootable k pages)
    (run : Relation.ReflTransGen ModestStep ⟨slabinit k, []⟩ w) :
    (∀ c : Nat, c < 9 →
      w.kernel.int c .numUsedObjects = (w.kernel.slots c).card ∧
      w.kernel.int c .numUsedObjects = w.live.countP (fun o => o.cls = c) ∧
      w.kernel.int c .numUsedObjects + w.kernel.int c .numFreeObjects =
        w.kernel.int c .numObjectsPerPage * (if c = 0 then 64 else 100) ∧
      w.kernel.int c .numPages = {pg | w.kernel.holder pg = some (.objectsOf c)}.ncard ∧
      w.kernel.int c .numPages = 1 + (laterPages w.kernel c).card) ∧
    ∀ size, 0 < size → size ≤ 2048 → Provided w.kernel (kmallocIdx size) →
      kmallocRefuses w.kernel (kmallocIdx size) = false →
      ∃ k₁, openPage w.kernel (kmallocIdx size) = .ok k₁ ∧ ∃ z < pgsize * 8,
        k₁.slotBit (kmallocIdx size) z = false ∧ (setBitmap k₁ (kmallocIdx size)).2 = z := by
  have exact := boot.exact_run run
  obtain ⟨k, live⟩ := w
  refine ⟨fun c bound => ?_, fun size => exact.setBitmap_finds⟩
  have cls := exact.inv.classes c bound
  have later := cls.card_laterPages bound
  refine ⟨cls.used, ?_, ?_, ?_, ?_⟩
  · rw [exact.card_live bound]
    exact cls.used
  · rw [cls.total, cls.width, capacity]
    push_cast
    rfl
  · rw [cls.card_held (exact.present c bound)]
    exact cls.numPages
  · rw [cls.numPages, ← later]
    push_cast
    rfl

theorem counters_exact_after_kmallocs : ∃ k pages w, Bootable k pages ∧
    Relation.ReflTransGen ModestStep ⟨slabinit k, []⟩ w ∧ w.kernel.int (8 : Nat) .numUsedObjects = 5 ∧
    w.kernel.int (8 : Nat) .numPages = 3 := by
  obtain ⟨k, pages, boot, enough⟩ := exists_bootable
  obtain ⟨w, _, _, _, run, filled, count, _⟩ := boot.fill (n := 5) (c := 8) (show (0 : Int) < 2000 by decide)
    (by decide) (by decide) (by decide) (by decide) (by omega)
  obtain ⟨used, _, _, _, numPages⟩ := (counters_exact boot (run (by decide))).1 8 (by decide)
  refine ⟨k, pages, w, boot, run (by decide), ?_, ?_⟩
  · rw [used, filled.slots, Finset.card_range]
    rfl
  · rw [numPages, laterPages, filled.slots]
    decide

end MiniOS
