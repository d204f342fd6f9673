import MiniOS.Slab.Fill

namespace MiniOS

open Lib

variable {k : Kernel} {pages : List Nat} {w : World}

/-- The indices into `page` that `kmalloc` uses once it holds the lock: that of
a page it stores, if it fetches one, and that of the page it takes the object from. -/
def kmallocIndices (k : Kernel) (slabIdx : Int) : Except Stop (List Int) := do
  let stored ← newPageIndex k slabIdx
  let k ← openPage k slabIdx
  let (k, bitOffset) := setBitmap k slabIdx
  let nowpage ← nowpage k slabIdx bitOffset
  return stored.toList ++ [nowpage]

/-- The indices into `page` that `kmfree` uses: the loop stops at the page it
is looking for, and goes up to 100 if it does not find it. -/
def kmfreeIndices (k : Kernel) (slabIdx : Int) (addr : Nat) : List Int :=
  let pageNum := findPage k slabIdx addr
  upTo 1 (if pageNum = 0 then 100 else pageNum) ++ [pageNum]

/-- A call of `kmalloc` that is not refused finds a free object in the first
99 pages of its class, and `kalloc` answers with a page that nobody holds or
not at all. -/
def InFirstPages (k : Kernel) (slabIdx : Int) : Prop :=
  kmallocRefuses k slabIdx = false →
    (∃ z : Nat, z < 99 * k.int slabIdx .numObjectsPerPage ∧ z ∉ k.slots slabIdx) ∧
    ((∃ i, newPageIndex k slabIdx = .ok (some i)) → Fresh k ∨ k.freelist = 0)

namespace Served

variable {k k' : Kernel} {live : List Obj} {size : Int} {c z p : Nat} (served : Served k size c z) (inv : Inv k live)
  (firstPages : InFirstPages k (kmallocIdx size))

include served inv firstPages

theorem page_lt_99 : z / perPage c < 99 := by
  obtain ⟨⟨y, early, free⟩, _⟩ := firstPages served.admitted
  have width := (inv.classes c served.bound).width
  rw [served.idx, width] at early
  rw [served.idx] at free
  have before : z ≤ y := by
    by_contra later
    exact free (served.lowest.2 y (by omega))
  rw [Nat.div_lt_iff_lt_mul (perPage_pos served.bound)]
  omega

theorem supplied_early : Supplied k c z := by
  intro opens
  rcases (firstPages served.admitted).2 ⟨_, served.asks inv opens⟩ with fresh | empty
  · exact .inl fresh
  · exact .inr ⟨empty, served.page_lt_99 inv firstPages⟩

end Served

theorem Takes.kmallocIndices_eq {c z : Nat} (takes : Takes k c z) : kmallocIndices k c =
    .ok ((if Opens k c z then [((z / perPage c : Nat) : Int) + 1] else []) ++
      [((z / perPage c : Nat) : Int) + 1]) := by
  have lowest : LowestFree ((opened k c z).slots c) z := by
    rw [takes.opened_slots]
    exact takes.lowest
  have width : ((opened k c z).writeBit c z true).int c .numObjectsPerPage = perPage c :=
    (Kernel.int_eq_of_field (opened_own (by decide) (by decide))).trans takes.width
  simp only [kmallocIndices, newPageIndex_eq takes.bound takes.width takes.used takes.lowest takes.inside.2,
    takes.openPage_eq, ok_bind, setBitmap_spec lowest takes.inside.2, nowpage, width,
    cdiv_natCast (perPage_pos takes.bound), pure_eq_ok]
  split <;> rfl

/-- What holds in a run that stays in the first 99 pages. `start` is the state
that `slabinit` left. -/
structure Bounded (start : Kernel) (w : World) : Prop where
  inv : Inv w.kernel w.live
  intact : AllIntact w.kernel
  early : ∀ c : Nat, c < 9 → ∀ z ∈ w.kernel.slots c, z / perPage c < 99
  bitmap : ∀ c : Nat, c < 9 → w.kernel.field c .bitmap = start.field c .bitmap

namespace Bounded

variable {start : Kernel} {w w' : World} {k : Kernel} {live : List Obj} {size : Int} {c : Nat}

theorem takes {z : Nat} (bounded : Bounded start ⟨k, live⟩)
    (served : Served k size c z) (firstPages : InFirstPages k (kmallocIdx size)) : Takes k c z :=
  bounded.inv.takes served.bound (bounded.intact c served.bound) served.lowest served.inside
    (served.supplied_early bounded.inv firstPages)

theorem congr {k' : Kernel} (bounded : Bounded start ⟨k, live⟩) (words : k'.words = k.words)
    (kend : k'.kend = k.kend) (holder : ∀ pg h, h ≠ .other → (k'.holder pg = some h ↔ k.holder pg = some h))
    (slots : ∀ d : Nat, d < 9 → k'.slots d = k.slots d) : Bounded start ⟨k', live⟩ := by
  refine ⟨bounded.inv.congr words kend holder slots, fun c bound => (intact_congr words).2 (bounded.intact c bound),
    fun c bound => ?_, fun c bound => (congrFun words _).trans (bounded.bitmap c bound)⟩
  simp only [slots c bound]
  exact bounded.early c bound

theorem step (bounded : Bounded start w) (step : Step InFirstPages w w') : Bounded start w' := by
  cases step with
  | kmalloc positive small firstPages call =>
    rcases bounded.inv.kmalloc_cases positive small with refused | ⟨c, z, served⟩
    · rw [refused] at call
      cases call
      exact bounded
    · have takes := bounded.takes served firstPages
      obtain ⟨k', p, result, alloc⟩ := takes.kmallocLocked_spec served.asked.2
      rw [served.passes, result] at call
      cases call
      have supplied := served.supplied_early bounded.inv firstPages
      have early := served.page_lt_99 bounded.inv firstPages
      have after := alloc.keeps bounded.inv takes supplied served.inside served.asked
      rw [← served.newObj_eq] at after
      refine ⟨after, alloc.allIntact takes early bounded.intact, fun d bound y used => ?_,
        fun d bound => (alloc.static takes (by decide) (by decide) (.inr (by decide))).trans (bounded.bitmap d bound)⟩
      by_cases same : d = c
      · subst same
        rw [alloc.slots] at used
        rcases Finset.mem_insert.1 used with rfl | old
        · exact early
        · exact bounded.early d bound y old
      · rw [alloc.otherSlots bounded.inv takes supplied served.asked.2 bound same] at used
        exact bounded.early d bound y used
  | kmfree member call =>
    obtain ⟨p, y, clears, frees⟩ := bounded.inv.frees member (.inl bounded.intact)
    obtain ⟨k', result, freed⟩ := frees.kmfree_spec
    rw [result] at call
    cases call
    exact ⟨freed.inv_erase clears frees bounded.inv member, freed.allIntact bounded.intact,
      fun d bound x used => bounded.early d bound x (freed.slots_subset clears frees bounded.inv member bound used),
      fun d bound => (freed.static (by decide)).trans (bounded.bitmap d bound)⟩
  | write member inside =>
    exact bounded.congr rfl rfl (fun _ _ _ => Iff.rfl) fun c bound => bounded.inv.write_slots member inside bound
  | elsewhere elsewhere =>
    exact bounded.congr elsewhere.words elsewhere.kend elsewhere.holder fun c bound =>
      elsewhere.slots bounded.inv bound

theorem pageInUse_lt {p : Nat} (bounded : Bounded start ⟨k, live⟩) (bound : c < 9)
    (inUse : PageInUse (perPage c) (k.slots c) p) : p < 99 := by
  rcases inUse with rfl | occupied
  · decide
  · obtain ⟨z, used, rfl⟩ := mem_occupiedPages.1 occupied
    exact bounded.early c bound z used

/-- Freeing a live object, `kmfree` finds it in one of the first 99 pages. -/
theorem kmfreeIndices_le {o : Obj} (bounded : Bounded start ⟨k, live⟩)
    (member : o ∈ live) : ∀ i ∈ kmfreeIndices k o.cls o.addr, 0 ≤ i ∧ i < maxPagesPerSlab := by
  have bound := (bounded.inv.objects o member).cls
  obtain ⟨p, y, clears, frees⟩ := bounded.inv.frees member (.inl bounded.intact)
  have index : p < 99 := bounded.pageInUse_lt bound (clears.pageInUse bounded.inv member)
  have found := frees.found
  intro i used
  simp only [kmfreeIndices, found, List.mem_append, List.mem_singleton, mem_upTo, maxPagesPerSlab] at used ⊢
  rw [if_neg (by omega)] at used
  omega

/-- An admitted `kmalloc` stays within the array as well. -/
theorem kmallocIndices_le (bounded : Bounded start ⟨k, live⟩)
    (positive : 0 < size) (small : size ≤ 2048) (admitted : kmallocRefuses k (kmallocIdx size) = false)
    (firstPages : InFirstPages k (kmallocIdx size)) :
    ∃ indices, kmallocIndices k (kmallocIdx size) = .ok indices ∧ ∀ i ∈ indices, 0 ≤ i ∧ i < maxPagesPerSlab := by
  obtain ⟨c, z, served⟩ := bounded.inv.served positive small admitted
  have early := served.page_lt_99 bounded.inv firstPages
  refine ⟨_, served.idx ▸ (bounded.takes served firstPages).kmallocIndices_eq, fun i used => ?_⟩
  generalize z / perPage c = q at early used
  have same : i = (q : Int) + 1 := by
    split at used <;> simpa using used
  simp only [maxPagesPerSlab]
  omega

end Bounded

theorem Bootable.bounded (boot : Bootable k pages) :
    Bounded (slabinit k) ⟨slabinit k, []⟩ := by
  obtain ⟨inv, intact, _⟩ := boot.slabinit_inv
  obtain ⟨rest, _, booting⟩ := boot.slabinit_ready
  refine ⟨inv, intact, fun c bound z used => ?_, fun c bound => rfl⟩
  simp only [(booting.ready c bound).empty, Finset.notMem_empty] at used

theorem Bootable.bounded_run (boot : Bootable k pages)
    (run : Relation.ReflTransGen (Step InFirstPages) ⟨slabinit k, []⟩ w) : Bounded (slabinit k) w :=
  run_induction Bounded.step boot.bounded run

/-- While `kmalloc` finds free objects in the first 99 pages of a class, all
indices into `page` are those of the array, and no class loses its size, the
number of its objects in a page or its bitmap. -/
theorem page_indices_bounded {k : Kernel} {pages : List Nat} {w : World} (boot : Bootable k pages)
    (run : Relation.ReflTransGen (Step InFirstPages) ⟨slabinit k, []⟩ w) :
    (∀ c : Nat, c < 9 →
      w.kernel.int c .size = (slabinit k).int c .size ∧
      w.kernel.int c .numObjectsPerPage = (slabinit k).int c .numObjectsPerPage ∧
      w.kernel.ptr c .bitmap = (slabinit k).ptr c .bitmap) ∧
    (∀ size, 0 < size → size ≤ 2048 → kmallocRefuses w.kernel (kmallocIdx size) = false →
      InFirstPages w.kernel (kmallocIdx size) → ∃ indices, kmallocIndices w.kernel (kmallocIdx size) = .ok indices ∧
        ∀ i ∈ indices, 0 ≤ i ∧ i < maxPagesPerSlab) ∧
    ∀ o ∈ w.live, ∀ i ∈ kmfreeIndices w.kernel o.cls o.addr, 0 ≤ i ∧ i < maxPagesPerSlab := by
  have bounded := boot.bounded_run run
  obtain ⟨inv, intact, _⟩ := boot.slabinit_inv
  obtain ⟨k', live⟩ := w
  refine ⟨fun c bound => ⟨?_, ?_, ?_⟩, fun size => bounded.kmallocIndices_le, fun o => bounded.kmfreeIndices_le⟩
  · exact (bounded.intact c bound).trans (intact c bound).symm
  · exact (bounded.inv.classes c bound).width.trans (inv.classes c bound).width.symm
  · exact Kernel.ptr_eq_of_field (bounded.bitmap c bound)

/-- A run in which no class gets more than 99 pages stays in the first 99 pages. -/
theorem Exact.step_inFirstPages {w' : World} (exact : Exact w) (step : ModestStep w w') : Step InFirstPages w w' := by
  obtain ⟨step, modest⟩ := step
  cases step with
  | kmalloc positive small provided call =>
    refine .kmalloc positive small (fun admitted => ⟨?_, fun ⟨i, asks⟩ => .inl (provided i asks)⟩) call
    obtain ⟨c, z, served⟩ := exact.inv.served positive small admitted
    obtain ⟨k', p, given⟩ := exact.given served provided
    rw [given.call] at call
    cases call
    have early := served.page_lt_of_modest given.alloc modest
    rw [Nat.div_lt_iff_lt_mul (perPage_pos served.bound)] at early
    have width := (exact.inv.classes c served.bound).width
    rw [served.idx]
    refine ⟨z, ?_, served.lowest.1⟩
    rw [width]
    omega
  | kmfree member call => exact .kmfree member call
  | write member inside => exact .write member inside
  | elsewhere elsewhere => exact .elsewhere elsewhere

theorem Bootable.run_inFirstPages (boot : Bootable k pages)
    (run : Relation.ReflTransGen ModestStep ⟨slabinit k, []⟩ w) :
    Relation.ReflTransGen (Step InFirstPages) ⟨slabinit k, []⟩ w :=
  run_simulation (f := fun w => w) (fun {w w'} (exact : Exact w) (step : ModestStep w w') => exact.step step)
    (fun exact step => .single (exact.step_inFirstPages step)) boot.exact run

theorem page_indices_bounded_at_99_pages : ∃ k pages w, Bootable k pages ∧
    Relation.ReflTransGen (Step InFirstPages) ⟨slabinit k, []⟩ w ∧ w.live.length = 396 ∧
    ∀ o ∈ w.live, ∀ i ∈ kmfreeIndices w.kernel o.cls o.addr, 0 ≤ i ∧ i < maxPagesPerSlab := by
  obtain ⟨k, pages, boot, enough⟩ := exists_bootable
  obtain ⟨w, _, _, _, run, _, count, _⟩ := boot.fill (n := 396) (c := 7) (show (0 : Int) < 1024 by decide) (by decide)
    (by decide) (by decide) (by decide) (by omega)
  have run := boot.run_inFirstPages (run (by decide))
  exact ⟨k, pages, w, boot, run, count, (page_indices_bounded boot run).2.2⟩

/-- With 99 pages of 1024-byte objects in use, the next object of that size is
admitted, and the pointer to its page is stored into `page[100]`, which is the
size of the class of 2048-byte objects. -/
theorem page_index_reaches_100 : ∃ k pages w, Bootable k pages ∧
    Relation.ReflTransGen (Step Provided) ⟨slabinit k, []⟩ w ∧ w.live.length = 396 ∧
    Provided w.kernel (kmallocIdx 1024) ∧ kmallocRefuses w.kernel (kmallocIdx 1024) = false ∧
    kmallocIndices w.kernel (kmallocIdx 1024) = .ok [100, 100] ∧
    ∃ k' p, kmalloc w.kernel 1024 = .ok (k', p) ∧ k'.int 8 .size ≠ (slabinit k).int 8 .size := by
  obtain ⟨k, pages, boot, enough⟩ := exists_bootable
  obtain ⟨⟨k₁, live⟩, pg, rest, run, _, filled, count, _⟩ := boot.fill (n := 396) (c := 7)
    (show (0 : Int) < 1024 by decide) (by decide) (by decide) (by decide) (by decide) (by omega)
  have provided : Provided k₁ (kmallocIdx 1024) := fun _ _ => filled.fresh
  obtain ⟨k', p, given⟩ := filled.given (show (0 : Int) < 1024 by decide) (by decide) (by decide)
    (by decide) (by decide)
  have opens : Opens k₁ 7 396 := filled.opens (by decide) (by decide) (by decide)
  refine ⟨k, pages, ⟨k₁, live⟩, boot, run, count, provided, given.served.admitted, ?_, k', p, given.call, ?_⟩
  · rw [given.served.idx, given.takes.kmallocIndices_eq, if_pos opens]
    rfl
  · have size : (slabinit k).int 8 .size = classSize 8 := boot.slabinit_inv.2.1 8 (by decide)
    have pointer : k'.ptr 8 .size = k₁.freelist := given.alloc.size_next opens rfl
    have page : k'.IsPage (k'.ptr ((8 : Nat) : Int) .size) := by
      simp only [Nat.cast_ofNat, pointer]
      exact given.alloc.isPage.mpr filled.fresh.isPage
    rw [size]
    exact page.not_intact

end MiniOS
