import MiniOS.Slab.Undo

namespace MiniOS

open Lib Relation

variable {k k' : Kernel}

/-- The bitmaps are where they were, and what was the pointer to a page still is one. -/
structure Later (k k' : Kernel) : Prop where
  kend : k'.kend = k.kend
  bitmap : ∀ d : Nat, d < 9 → k'.ptr d .bitmap = k.ptr d .bitmap
  pages : ∀ d : Nat, d < 9 → ∀ r < 100, k.IsPage (pagePtr k d r) → k'.IsPage (pagePtr k' d r)

theorem Later.of_words (words : k'.words = k.words) (kend : k'.kend = k.kend) : Later k k' := by
  refine ⟨kend, fun d _ => ptr_congr words _ _, fun d _ r _ page => ?_⟩
  rw [pagePtr_congr words, Kernel.IsPage.congr kend]
  exact page

theorem Later.trans {k'' : Kernel} (first : Later k k') (second : Later k' k'') : Later k k'' where
  kend := second.kend.trans first.kend
  bitmap d bound := (second.bitmap d bound).trans (first.bitmap d bound)
  pages d bound r index page := second.pages d bound r index (first.pages d bound r index page)

namespace Present

variable {k k' : Kernel} {live : List Obj} {size : Int} {c z p : Nat} {w w' : World}

theorem later_kmalloc (before : Present ⟨k, live⟩) (given : Given k size c z k' p) : Later k k' := by
  have after := before.kmalloc given.toTaken
  obtain ⟨⟨_, _, _, takes, _, alloc, present, _⟩, _⟩ := given
  refine ⟨alloc.kend, fun d _ => alloc.bitmap takes, fun d bound r index page => ?_⟩
  by_cases new : d = c ∧ r = z / perPage c
  · obtain ⟨rfl, rfl⟩ := new
    have inUse : PageInUse (perPage d) (k'.slots d) (z / perPage d) := by
      rw [alloc.slots]
      exact pageInUse_insert.2 (.inl rfl)
    exact ((after.inv.classes d bound).heldPage inUse (present d bound _ inUse)).isPage
  · rw [alloc.pagePtr_other takes index fun opens => new ⟨opens.1, opens.2.1⟩]
    exact alloc.isPage.2 page

theorem later (before : Present w) (step : Step Provided w w') : Later w.kernel w'.kernel := by
  cases step with
  | kmalloc positive small provided call =>
    rcases before.kmalloc_cases positive small provided with ⟨_, refused⟩ | ⟨_, _, _, _,
      endless⟩ | ⟨c, z, k', p, given⟩
    · rw [refused] at call
      cases call
      exact .of_words rfl rfl
    · rw [endless] at call
      cases call
    · rw [given.call] at call
      cases call
      exact before.later_kmalloc given
  | kmfree member call =>
    obtain ⟨q, y, clears, frees⟩ := before.inv.frees member (.inr before.present)
    obtain ⟨k', result, freed⟩ := frees.kmfree_spec
    rw [result] at call
    cases call
    refine ⟨freed.kend, fun d _ => freed.bitmap, fun d _ r index page => ?_⟩
    rw [freed.pagePtr_eq index]
    exact freed.isPage.2 page
  | write _ _ => exact .of_words rfl rfl
  | elsewhere elsewhere => exact .of_words elsewhere.words elsewhere.kend

theorem later_run (before : Present w) (run : ReflTransGen (Step Provided) w w') :
    Present w' ∧ Later w.kernel w'.kernel := by
  induction run with
  | refl => exact ⟨before, .of_words rfl rfl⟩
  | tail _ step ih => exact ⟨ih.1.step step, ih.2.trans (ih.1.later step)⟩

end Present

/-- Although the entries of released pages are never cleared, the loop of `kmfree` stops at
the page of a live object, and the bit it computes is that of the object. -/
theorem kmfree_finds_slot {k : Kernel} {pages : List Nat} {w : World} (boot : Bootable k pages)
    (run : ReflTransGen ModestStep ⟨slabinit k, []⟩ w) : ∀ o ∈ w.live,
      o.slot ∈ w.kernel.slots o.cls ∧ o.addr = objAddr w.kernel o.cls o.slot ∧
      findPage w.kernel o.cls o.addr = o.slot / w.kernel.int o.cls .numObjectsPerPage + 1 ∧
      kmfreeOffset w.kernel o.cls o.addr = .ok o.slot := by
  intro o member
  have exact := boot.exact_run run
  have object := exact.inv.objects o member
  have width := (exact.inv.classes o.cls object.cls).width
  have found := exact.inv.findPage_real member (exact.real member)
  refine ⟨exact.slot_mem member (exact.intact o.cls object.cls), object.addr, ?_, ?_⟩
  · rw [found, width]
    norm_cast
  · have quotient : cdiv (ptrdiff o.addr (pagePtr w.kernel o.cls (o.slot / perPage o.cls)))
      (w.kernel.int o.cls .size) =
        .ok ((o.slot % perPage o.cls : Nat) : Int) := by
      rw [exact.inv.pageOffset member]
      exact cdiv_intact (exact.intact o.cls object.cls) _
    rw [kmfreeOffset_eq width found quotient, Nat.mul_comm, Nat.div_add_mod]

/-- Of `n` objects of 2048 bytes, the one with bit `z` is freed. -/
theorem exists_freed {n z : Nat} (early : n ≤ 99) (below : z < n) : ∃ k pages k₀ live o k₁, Bootable k pages ∧
    ReflTransGen ModestStep ⟨slabinit k, []⟩ ⟨k₀, live⟩ ∧ live.length = n ∧ o ∈ live ∧ o.cls = 8 ∧ o.slot = z ∧
    ModestStep ⟨k₀, live⟩ ⟨k₁, live.erase o⟩ ∧ k₁.slots (8 : Nat) = (Finset.range n).erase z ∧ Intact k₁ 8 ∧
    ∀ r < 100, pagePtr k₁ 8 r = pagePtr k₀ 8 r := by
  obtain ⟨k, pages, boot, enough⟩ := exists_bootable
  have each : perPage 8 = 2 := rfl
  have room : capacity 8 = 200 := rfl
  obtain ⟨⟨k₀, live⟩, _, _, _, run, filled, length, _⟩ :=
    boot.fill (n := n) (c := 8) (show (0 : Int) < 2048 by decide)
    (by decide) (by decide) (by decide) (by omega) (by omega)
  have before := filled.present
  have slots : k₀.slots (8 : Nat) = Finset.range n := filled.slots
  obtain ⟨o, member, cls, slot⟩ := before.exists_live (c := 8) (z := z) (by decide) filled.intact (by
    rw [slots]
    exact Finset.mem_range.2 below)
  obtain ⟨q, y, clears, frees⟩ := before.inv.frees member (.inr before.present)
  obtain ⟨k₁, call, freed⟩ := frees.kmfree_spec
  have own := (before.clears_own member (cls ▸ filled.intact) clears).2
  have after := freed.slots
  rw [cls, own, slot, slots] at after
  have modest : Modest k₁ := by
    intro d bound
    have numPages : k₁.int d .numPages = pagesInUse (perPage d) (k₁.slots d) :=
      ((before.kmfree member clears frees freed).inv.classes d bound).numPages
    have few : pagesInUse (perPage d) (k₁.slots d) ≤ 99 := by
      refine pagesInUse_le_of_bounded (by decide) fun x used => ?_
      have old : x ∈ k₀.slots d := freed.slots_subset clears frees before.inv member bound used
      by_cases same : d = 8
      · subst same
        rw [slots, Finset.mem_range] at old
        omega
      · have empty : k₀.slots d = ∅ := filled.others d bound same
        rw [empty] at old
        cases old
    omega
  exact ⟨k, pages, k₀, live, o, k₁, boot, run (by omega), length, member, cls, slot,
    ⟨.kmfree member call, modest⟩, after,
    freed.intact_iff.2 filled.intact, fun r bound => freed.pagePtr_eq bound⟩

/-- Of five objects of 2048 bytes the one in the third page has been freed. The entry of the page
still points to it. -/
theorem kmfree_finds_slot_beside_stale_entry : ∃ k pages w, Bootable k pages ∧
    ReflTransGen ModestStep ⟨slabinit k, []⟩ w ∧
    w.live.length = 4 ∧ ¬PageInUse (perPage 8) (w.kernel.slots (8 : Nat)) 2 ∧ w.kernel.IsPage (pagePtr w.kernel 8 2) ∧
    ∀ o ∈ w.live, kmfreeOffset w.kernel o.cls o.addr = .ok o.slot := by
  obtain ⟨k, pages, k₀, live, o, k₁, boot, run, length, member, cls, slot, step, slots, _, entries⟩ :=
    exists_freed (n := 5) (z := 4) (by decide) (by decide)
  have before := boot.present_run (ModestStep.run run)
  have inUse := before.inv.object_pageInUse member
  have held := (before.inv.classes o.cls (before.inv.objects o member).cls).heldPage inUse (before.real member)
  have page : k₀.IsPage (pagePtr k₀ o.cls (o.slot / perPage o.cls)) := held.isPage
  rw [cls, slot] at page
  refine ⟨k, pages, ⟨k₁, live.erase o⟩, boot, run.tail step, ?_, ?_, ?_, fun o member =>
    (kmfree_finds_slot boot (run.tail step) o member).2.2.2⟩
  · rw [List.length_erase_of_mem member, length]
  · rw [slots]
    decide
  · rw [entries 2 (by decide)]
    exact (Kernel.IsPage.congr (before.later step.1).kend).2 page

/-- A free of a clear bit in a page with other objects only overwrites the object. -/
theorem Frees.kmfree_repeated {c p y addr : Nat} (frees : Frees k c p y addr) (absent : y ∉ k.slots c)
    (kept : ¬Releases k c p y) : kmfree k addr (classSize c) = .ok (scribbled k c addr) := by
  rw [frees.kmfree_release, if_neg kept, frees.clearSlot_eq, if_neg absent]

/-- The entry of page `r` contains the address. -/
def Contains (k : Kernel) (c addr r : Nat) : Prop := pagePtr k c r ≤ addr ∧ addr < pagePtr k c r + 4096

/-- The bit that `kmfree` computes for an object that it finds in page `q`. -/
def freedBit (k : Kernel) (o : Obj) (q : Nat) : Nat :=
  q * perPage o.cls + if k.int o.cls .size = classSize o.cls then o.slot % perPage o.cls else 0

/-- What is left of an object that was live once: it lies in a page that is no bitmap,
and the entries of `page` up to its own have been pages ever since. -/
structure Once (k : Kernel) (o : Obj) (page : Nat) : Prop where
  cls : o.cls < 9
  slot : o.slot < capacity o.cls
  index : o.slot / perPage o.cls < 100
  entries : ∀ r ≤ o.slot / perPage o.cls, k.IsPage (pagePtr k o.cls r)
  isPage : k.IsPage page
  notBitmap : ∀ d : Nat, d < 9 → page ≠ k.ptr d .bitmap
  addr : o.addr = page + o.slot % perPage o.cls * classSize o.cls

theorem Present.once {live : List Obj} {o : Obj} (before : Present ⟨k, live⟩)
    (member : o ∈ live) (later : Later k k') :
    Once k' o (pagePtr k o.cls (o.slot / perPage o.cls)) := by
  have object := before.inv.objects o member
  have inUse := before.inv.object_pageInUse member
  have cls := before.inv.classes o.cls object.cls
  have held := cls.heldPage inUse (before.present o.cls object.cls _ inUse)
  have index := cls.page_lt object.cls inUse
  refine ⟨object.cls, object.slot, index, fun r below => ?_, (Kernel.IsPage.congr later.kend).2 held.isPage,
    fun d bound => ?_, object.addr⟩
  · refine later.pages o.cls object.cls r (by omega) ?_
    rcases Nat.lt_or_eq_of_le below with less | rfl
    · refine (cls.entries _ r inUse less).resolve_right fun null => ?_
      exact before.present o.cls object.cls r (pageInUse_of_start null.start (perPage_pos object.cls)) null.null
    · exact held.isPage
  · rw [later.bitmap d bound]
    intro same
    have apart := before.inv.page_bitmap_apart bound held
    dsimp only at apart
    omega

namespace Once

variable {k : Kernel} {o : Obj} {page q : Nat}

/-- The address lies in one page only. -/
theorem first_page (once : Once k o page) (below : q ≤ o.slot / perPage o.cls) (here : Contains k o.cls o.addr q) :
    pagePtr k o.cls q = page := by
  have fits := slot_end_le once.cls o.slot
  have nonempty := classSize_pos o.cls
  have addr := once.addr
  exact (once.entries q below).same_of_mem once.isPage here (by omega)

theorem addr_mem (once : Once k o page) : page ≤ o.addr ∧ o.addr + classSize o.cls ≤ page + 4096 := by
  have fits := slot_end_le once.cls o.slot
  have addr := once.addr
  omega

theorem apart (once : Once k o page) {d : Nat} (bound : d < 9) (bitmap : k.IsPage (k.ptr d .bitmap)) :
    page + 4096 ≤ k.ptr d .bitmap ∨ k.ptr d .bitmap + 4096 ≤ page := by
  have := once.isPage.aligned
  have := bitmap.aligned
  have := once.notBitmap d bound
  omega

/-- `kmfree` of the object finds the first page that contains it. -/
theorem frees {live : List Obj} (once : Once k o page) (inv : Inv k live) (used : 0 < k.int o.cls .numUsedObjects)
    (below : q ≤ o.slot / perPage o.cls) (here : Contains k o.cls o.addr q)
    (before : ∀ r < q, ¬Contains k o.cls o.addr r) :
    Frees k o.cls q (freedBit k o q) o.addr := by
  have cls := inv.classes o.cls once.cls
  have positive := perPage_pos once.cls
  have same := once.first_page below here
  have within := once.addr_mem
  have apart := once.apart once.cls cls.bitmapPage
  have high := once.isPage.high
  have card : 0 < (k.slots o.cls).card := by
    have := cls.used
    omega
  have start : q * perPage o.cls ≤ o.slot / perPage o.cls * perPage o.cls := Nat.mul_le_mul_right _ below
  have division : o.slot / perPage o.cls * perPage o.cls + o.slot % perPage o.cls = o.slot := by
    rw [Nat.mul_comm]
    exact Nat.div_add_mod o.slot (perPage o.cls)
  have inside : o.slot < 32768 := once.slot.trans_le (capacity_le once.cls)
  have remainder := Nat.mod_lt o.slot positive
  have index := once.index
  have found : findPage k o.cls o.addr = (q : Int) + 1 := by
    refine findPage_eq (by omega) ?_ (fun r low => ?_) here before
    · have := classSize_pos o.cls
      omega
    · have := (once.entries r (by omega)).high
      omega
  have offset : ptrdiff o.addr (pagePtr k o.cls q) = ((o.slot % perPage o.cls * classSize o.cls : Nat) : Int) := by
    rw [ptrdiff_eq here.1 here.2, same, once.addr, Nat.add_sub_cancel_left]
  have separate : o.addr + classSize o.cls ≤ k.ptr o.cls .bitmap ∨ k.ptr o.cls .bitmap + 4096 ≤ o.addr := by omega
  have pages : k.IsPage (pagePtr k o.cls q) ∧ (pagePtr k o.cls q + 4096 ≤ k.ptr o.cls .bitmap ∨
      k.ptr o.cls .bitmap + 4096 ≤ pagePtr k o.cls q) := by
    rw [same]
    exact ⟨once.isPage, apart⟩
  rw [freedBit]
  by_cases intact : k.int o.cls .size = classSize o.cls
  · rw [if_pos intact]
    refine cls.frees once.cls card remainder (by omega) found ?_ separate fun _ => pages
    rw [offset]
    exact cdiv_intact intact _
  · rw [if_neg intact]
    refine cls.frees once.cls card positive (by omega) found ?_ separate fun _ => pages
    rw [offset]
    have fits := slot_end_le once.cls o.slot
    exact cdiv_spoilt (cls.size.resolve_left intact) (by omega)

end Once

/-- `kmfree` returns, no bit and no counter has changed, and no page has been given back. -/
structure Harmless (k : Kernel) (addr c : Nat) (k' : Kernel) : Prop where
  call : kmfree k addr (classSize c) = .ok k'
  slots : ∀ d : Nat, d < 9 → k'.slots d = k.slots d
  used : ∀ d : Nat, d < 9 → k'.int d .numUsedObjects = k.int d .numUsedObjects
  free : ∀ d : Nat, d < 9 → k'.int d .numFreeObjects = k.int d .numFreeObjects
  pages : ∀ d : Nat, d < 9 → k'.int d .numPages = k.int d .numPages
  freelist : k'.freelist = k.freelist
  holder : k'.holder = k.holder

/-- A second free of an object is harmless exactly when the first entry of `page` that
contains the object is that of a page in use, and the bit computed from it is clear. -/
theorem second_kmfree_harmless_iff {k : Kernel} {pages : List Nat} {w₀ w : World} {o : Obj} (boot : Bootable k pages)
    (run : ReflTransGen (Step Provided) ⟨slabinit k, []⟩ w₀) (member : o ∈ w₀.live)
    (later : ReflTransGen (Step Provided) w₀ w) (used : 0 < w.kernel.int o.cls .numUsedObjects)
    (entry : Contains w.kernel o.cls o.addr (o.slot / perPage o.cls)) :
    (∃ k', Harmless w.kernel o.addr o.cls k') ↔ ∃ q, First (Contains w.kernel o.cls o.addr) 100 q ∧
      PageInUse (perPage o.cls) (w.kernel.slots o.cls) q ∧ freedBit w.kernel o q ∉ w.kernel.slots o.cls := by
  have before := boot.present_run run
  obtain ⟨now, kept⟩ := before.later_run later
  have once := before.once member kept
  have below : ∀ q, First (Contains w.kernel o.cls o.addr) 100 q → q ≤ o.slot / perPage o.cls := fun q first => by
    by_contra above
    exact first.2.2 _ (by omega) entry
  constructor
  · rintro ⟨k', harmless⟩
    obtain ⟨q, first⟩ := exists_first once.index entry
    have frees := once.frees now.inv used (below q first) first.2.1 first.2.2
    obtain ⟨k'', call, freed⟩ := frees.kmfree_spec
    rw [harmless.call] at call
    cases call
    have absent : freedBit w.kernel o q ∉ w.kernel.slots o.cls := by
      intro set
      have slots := freed.slots.symm.trans (harmless.slots o.cls once.cls)
      exact Finset.notMem_erase _ _ (slots ▸ set)
    refine ⟨q, first, ?_, absent⟩
    by_contra unused
    have releases : Releases w.kernel o.cls q (freedBit w.kernel o q) := by
      rw [Releases, Finset.erase_eq_of_notMem absent]
      exact unused
    have fewer := (freed.released releases).1
    have pages := harmless.pages o.cls once.cls
    omega
  · rintro ⟨q, first, inUse, absent⟩
    have frees := once.frees now.inv used (below q first) first.2.1 first.2.2
    have kept : ¬Releases w.kernel o.cls q (freedBit w.kernel o q) := by
      rw [Releases, Finset.erase_eq_of_notMem absent, not_not]
      exact inUse
    refine ⟨_, frees.kmfree_repeated absent kept, fun d bound => ?_, fun _ _ => rfl, fun _ _ => rfl,
      fun _ _ => rfl, rfl, rfl⟩
    have apart := once.apart bound (now.inv.classes d bound).bitmapPage
    have within := once.addr_mem
    exact Kernel.slots_congr rfl fun a low high => memset_of_not_mem (by omega)


/-- Of two objects in the first page the second one is freed twice. -/
theorem second_kmfree_harmless_first_page : ∃ k pages w₀ w o, Bootable k pages ∧
    ReflTransGen (Step Provided) ⟨slabinit k, []⟩ w₀ ∧ o ∈ w₀.live ∧ ReflTransGen (Step Provided) w₀ w ∧
    o.slot ∉ w.kernel.slots o.cls ∧ ∃ k', Harmless w.kernel o.addr o.cls k' := by
  obtain ⟨k, pages, k₀, live, o, k₁, boot, run, _, member, cls, slot, ⟨step, _⟩, slots, intact, entries⟩ :=
    exists_freed (n := 2) (z := 1) (by decide) (by decide)
  have run := ModestStep.run run
  have before := boot.present_run run
  have now := before.step step
  have within := before.inv.object_mem_page member
  have nonempty := classSize_pos o.cls
  have page : o.slot / perPage o.cls = 0 := by
    rw [cls, slot]
    decide
  have entry : Contains k₁ o.cls o.addr 0 := by
    rw [Contains, cls, entries 0 (by decide), ← cls]
    rw [page] at within
    dsimp only at within
    omega
  have clear : o.slot ∉ k₁.slots o.cls := by
    rw [cls, slot, slots]
    decide
  have bit : freedBit k₁ o 0 ∉ k₁.slots o.cls := by
    have intact : k₁.int o.cls .size = classSize o.cls := cls ▸ intact
    rw [freedBit, if_pos intact, cls, slot, slots]
    decide
  have used : 0 < k₁.int o.cls .numUsedObjects := by
    rw [cls, (now.inv.classes 8 (by decide)).used, slots]
    decide
  exact ⟨k, pages, ⟨k₀, live⟩, _, o, boot, run, member, .single step, clear,
    (second_kmfree_harmless_iff boot run member (.single step) used (by rw [page]; exact entry)).mpr
      ⟨0, ⟨by decide, entry, fun r below => absurd below (Nat.not_lt_zero r)⟩, Or.inl rfl, bit⟩⟩

/-- The only object of the second page is freed twice. The page is given back each time,
and the number of pages becomes too small. -/
theorem second_kmfree_returns_page : ∃ k pages w₀ w o, Bootable k pages ∧
    ReflTransGen (Step Provided) ⟨slabinit k, []⟩ w₀ ∧ o ∈ w₀.live ∧ ReflTransGen (Step Provided) w₀ w ∧
    0 < w.kernel.int o.cls .numUsedObjects ∧ o.slot ∉ w.kernel.slots o.cls ∧
    Contains w.kernel o.cls o.addr (o.slot / perPage o.cls) ∧
    ∃ k', kmfree w.kernel o.addr (classSize o.cls) = .ok k' ∧
    k'.int o.cls .numPages = w.kernel.int o.cls .numPages - 1 := by
  obtain ⟨k, pages, k₀, live, o, k₁, boot, run, _, member, cls, slot, ⟨step, _⟩, slots, _, entries⟩ :=
    exists_freed (n := 3) (z := 2) (by decide) (by decide)
  have run := ModestStep.run run
  have before := boot.present_run run
  have now := before.step step
  have once := before.once member (before.later step)
  have within := once.addr_mem
  have nonempty := classSize_pos o.cls
  have page : o.slot / perPage o.cls = 1 := by
    rw [cls, slot]
    decide
  rw [page, cls] at within
  have entry : Contains k₁ o.cls o.addr 1 := by
    rw [Contains, cls, entries 1 (by decide)]
    rw [cls] at nonempty
    omega
  have used : 0 < k₁.int o.cls .numUsedObjects := by
    rw [cls, (now.inv.classes 8 (by decide)).used, slots]
    decide
  have other : ¬Contains k₁ o.cls o.addr 0 := by
    intro here
    have same := (once.first_page (by omega) here).trans (once.first_page page.ge entry).symm
    rw [cls, entries 0 (by decide), entries 1 (by decide)] at same
    have inUse := before.inv.object_pageInUse member
    rw [page, cls] at inUse
    have class8 := before.inv.classes 8 (by decide)
    exact class8.order 1 0 inUse (class8.heldPage inUse (before.present 8 (by decide) 1 inUse)) (by decide) same
  have frees := once.frees now.inv used (q := 1) page.ge entry fun r below => by
    rwa [Nat.lt_one_iff.mp below]
  obtain ⟨k₂, call, freed⟩ := frees.kmfree_spec
  have releases : Releases k₁ o.cls 1 (freedBit k₁ o 1) := by
    have bit : freedBit k₁ o 1 = 2 := by
      rw [freedBit, cls, slot]
      split <;> decide
    rw [bit, cls, Releases, slots]
    decide
  refine ⟨k, pages, ⟨k₀, live⟩, _, o, boot, run, member, .single step, used, ?_, page ▸ entry, k₂, call,
    (freed.released releases).1⟩
  rw [cls, slot]
  show 2 ∉ k₁.slots _
  rw [slots]
  decide

end MiniOS
