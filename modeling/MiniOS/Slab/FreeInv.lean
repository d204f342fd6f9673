import MiniOS.Slab.FindPage

namespace MiniOS

open Lib Function

namespace Clears

variable {k : Kernel} {live : List Obj} {o : Obj} {p y r : Nat} (clears : Clears k o p y)

include clears

theorem pageInUse (inv : Inv k live) (member : o ∈ live) : PageInUse (perPage o.cls) (k.slots o.cls) p := by
  cases clears with
  | own | start => exact inv.object_pageInUse member
  | null _ nullPage => exact pageInUse_of_start nullPage.start (perPage_pos (inv.objects o member).cls)

/-- The bit that keeps a missing page in use is not cleared. -/
theorem ne_start (inv : Inv k live) (member : o ∈ live) (nullPage : NullPage k o.cls r) : r * perPage o.cls ≠ y := by
  have positive := perPage_pos (inv.objects o member).cls
  rintro rfl
  generalize same : r * perPage o.cls = y at clears
  have index : y / perPage o.cls = r := by rw [← same, Nat.mul_div_cancel _ positive]
  have atStart : y % perPage o.cls = 0 := by rw [← same, Nat.mul_mod_left]
  cases clears with
  | own real _ => exact real (by rw [index]; exact nullPage.null)
  | start real _ =>
    rw [Nat.add_zero, Nat.mul_div_cancel _ positive] at index
    exact real (by rw [index]; exact nullPage.null)
  | null real _ =>
    rw [Nat.mul_comm, Nat.mul_add_mod, Nat.mod_mod] at atStart
    exact (inv.objects o member).null real atStart

theorem heldPage (inv : Inv k live) (member : o ∈ live) (releases : Releases k o.cls p y) : HeldPage k o.cls p := by
  have bound := (inv.objects o member).cls
  rcases (inv.classes o.cls bound).pages p (clears.pageInUse inv member) with held | null
  · exact held
  · have start := Finset.mem_erase.2 ⟨clears.ne_start inv member null, null.start⟩
    exact absurd (pageInUse_of_start start (perPage_pos bound)) releases

end Clears

namespace Freed

variable {k k' : Kernel} {live : List Obj} {o o' : Obj} {p y d r : Nat} (freed : Freed k k' o.cls p y o.addr)
  {pg : Nat} {h : Holder}

include freed

theorem isPage : k'.IsPage pg ↔ k.IsPage pg := Kernel.IsPage.congr freed.kend

/-- Only the counters of the class change. -/
theorem static {f : Field} (static : f.offset = 0 ∨ 4 ≤ f.offset ∧ f.offset ≤ 106) : k'.field d f = k.field d f := by
  refine freed.frame d f ?_ ?_ ?_
  · simp only [Field.word, slabWords]
    change _ ≠ 106 * (o.cls : Int) + 1
    omega
  · simp only [Field.word, slabWords]
    change _ ≠ 106 * (o.cls : Int) + 2
    omega
  · simp only [Field.word, slabWords]
    change _ ≠ 106 * (o.cls : Int) + 3
    omega

theorem pagePtr_eq (bound : r < 100) : pagePtr k' d r = pagePtr k d r :=
  Kernel.ptr_eq_of_field (freed.static (by simp only [Field.offset]; omega))

theorem bitmap : k'.ptr d .bitmap = k.ptr d .bitmap :=
  Kernel.ptr_eq_of_field (freed.static (by decide))

theorem intact_iff : Intact k' d ↔ Intact k d := by
  rw [Intact, Intact, Kernel.int_eq_of_field (freed.static (by decide))]

theorem holder_of_held (held : k.holder pg = some h)
    (other : Releases k o.cls p y → pg ≠ pagePtr k o.cls p) : k'.holder pg = some h := by
  by_cases releases : Releases k o.cls p y
  · rw [(freed.released releases).2, update_of_ne (other releases), held]
  · rw [(freed.kept releases).2, held]

theorem held_of_holder (held : k'.holder pg = some h) :
    k.holder pg = some h ∧ (Releases k o.cls p y → pg ≠ pagePtr k o.cls p) := by
  by_cases releases : Releases k o.cls p y
  · rw [(freed.released releases).2] at held
    by_cases same : pg = pagePtr k o.cls p
    · rw [same, update_self] at held
      cases held
    · rw [update_of_ne same] at held
      exact ⟨held, fun _ => same⟩
  · rw [(freed.kept releases).2] at held
    exact ⟨held, fun contra => absurd contra releases⟩

theorem object_page (inv : Inv k live) (member : o' ∈ live) :
    pagePtr k' o'.cls (o'.slot / perPage o'.cls) = pagePtr k o'.cls (o'.slot / perPage o'.cls) := by
  have bound := (inv.objects o' member).cls
  exact freed.pagePtr_eq ((inv.classes o'.cls bound).page_lt bound (inv.object_pageInUse member))

theorem allIntact (before : AllIntact k) : AllIntact k' := fun d bound => freed.intact_iff.2 (before d bound)

variable (clears : Clears k o p y) (frees : Frees k o.cls p y o.addr) (inv : Inv k live) (member : o ∈ live)

include clears frees inv member

theorem otherSlots (bound : d < 9) (different : d ≠ o.cls) : k'.slots d = k.slots d := by
  refine Kernel.slots_congr freed.bitmap fun a low high => ?_
  have apart := inv.bitmaps_apart bound frees.bound different
  have object := inv.addr_bitmap_apart member bound
  have inside := frees.inside
  refine freed.mem a (by omega) (by omega) fun releases => ?_
  have page := inv.page_bitmap_apart bound (clears.heldPage inv member releases)
  omega

theorem slots_subset (bound : d < 9) : k'.slots d ⊆ k.slots d := by
  by_cases same : d = o.cls
  · subst same
    rw [freed.slots]
    exact Finset.erase_subset _ _
  · rw [freed.otherSlots clears frees inv member bound same]

theorem inUse_before (bound : d < 9) (inUse : PageInUse (perPage d) (k'.slots d) r) :
    PageInUse (perPage d) (k.slots d) r :=
  inUse.imp_right fun occupied =>
    Finset.image_subset_image (freed.slots_subset clears frees inv member bound) occupied

theorem nullPage_kept (bound : d < 9) (index : r < 100) (null : NullPage k d r) : NullPage k' d r := by
  refine ⟨by rw [freed.pagePtr_eq index]; exact null.null, null.notFirst, ?_⟩
  by_cases same : d = o.cls
  · subst same
    rw [freed.slots]
    exact Finset.mem_erase.2 ⟨clears.ne_start inv member null, null.start⟩
  · rw [freed.otherSlots clears frees inv member bound same]
    exact null.start

theorem heldPage_kept (bound : d < 9) (inUse : PageInUse (perPage d) (k'.slots d) r) (held : HeldPage k d r) :
    HeldPage k' d r := by
  have before := freed.inUse_before clears frees inv member bound inUse
  have index := (inv.classes d bound).page_lt bound before
  refine ⟨by rw [freed.pagePtr_eq index, freed.isPage]; exact held.isPage, ?_⟩
  rw [freed.pagePtr_eq index]
  refine freed.holder_of_held held.holder fun releases samePage => ?_
  have released := clears.heldPage inv member releases
  have sameClass : d = o.cls := by
    have holder := held.holder
    rw [samePage, released.holder] at holder
    simp only [Option.some.injEq, Holder.objectsOf.injEq, Nat.cast_inj] at holder
    exact holder.symm
  subst sameClass
  have samePlace := (inv.classes o.cls bound).page_injective before
    (clears.pageInUse inv member) held.ne_zero samePage
  rw [samePlace, freed.slots] at inUse
  exact releases inUse

theorem numPages_eq : k'.int o.cls .numPages = pagesInUse (perPage o.cls) (k'.slots o.cls) := by
  have before := (inv.classes o.cls frees.bound).numPages
  have inUse := clears.pageInUse inv member
  rw [freed.slots]
  by_cases releases : Releases k o.cls p y
  · have used : y ∈ k.slots o.cls := by
      by_contra absent
      rw [Releases, Finset.erase_eq_of_notMem absent] at releases
      exact releases inUse
    have fewer : pagesInUse (perPage o.cls) (k.slots o.cls) = pagesInUse (perPage o.cls)
        ((k.slots o.cls).erase y) + 1 :=
      pagesInUse_erase_last used (by rw [frees.inPage]; exact releases)
    rw [(freed.released releases).1]
    omega
  · have same : pagesInUse (perPage o.cls) ((k.slots o.cls).erase y) = pagesInUse (perPage o.cls) (k.slots o.cls) :=
      pagesInUse_erase_same (by rw [frees.inPage]; exact not_not.1 releases)
    rw [(freed.kept releases).1, same, before]

theorem counters (bound : d < 9) : k'.int d .numUsedObjects = (k'.slots d).card ∧
    k'.int d .numUsedObjects + k'.int d .numFreeObjects = capacity d ∧
    k'.int d .numPages = pagesInUse (perPage d) (k'.slots d) := by
  have cls := inv.classes d bound
  by_cases same : d = o.cls
  · subst same
    have used := cls.used
    have total := cls.total
    refine ⟨?_, ?_, freed.numPages_eq clears frees inv member⟩
    · rw [freed.slots]
      by_cases cleared : y ∈ k.slots o.cls
      · have positive := Finset.card_pos.2 ⟨y, cleared⟩
        rw [(freed.cleared cleared).2, Finset.card_erase_of_mem cleared]
        omega
      · rw [(freed.repeated cleared).2, Finset.erase_eq_of_notMem cleared, used]
    · by_cases cleared : y ∈ k.slots o.cls
      · rw [(freed.cleared cleared).1, (freed.cleared cleared).2]
        omega
      · rw [(freed.repeated cleared).1, (freed.repeated cleared).2]
        omega
  · have counter : ∀ f : Field, 1 ≤ f.offset → f.offset < 4 → k'.field d f = k.field d f := by
      intro f low high
      refine freed.frame d f ?_ ?_ ?_
      iterate 3
        · exact Field.word_ne (.inl (by omega)) (by decide) (by omega)
    rw [freed.otherSlots clears frees inv member bound same,
      Kernel.int_eq_of_field (counter .numUsedObjects (by decide) (by decide)),
      Kernel.int_eq_of_field (counter .numFreeObjects (by decide) (by decide)),
      Kernel.int_eq_of_field (counter .numPages (by decide) (by decide))]
    exact ⟨cls.used, cls.total, cls.numPages⟩

theorem inUse_of_held (bound : d < 9) (held : k'.holder pg = some (.objectsOf d)) :
    ∃ r, PageInUse (perPage d) (k'.slots d) r ∧ pagePtr k' d r = pg := by
  obtain ⟨before, other⟩ := freed.held_of_holder held
  obtain ⟨r, inUse, pointed⟩ := (inv.classes d bound).owned pg before
  refine ⟨r, ?_, by rw [freed.pagePtr_eq ((inv.classes d bound).page_lt bound inUse), pointed]⟩
  by_cases same : d = o.cls
  · subst same
    rw [freed.slots]
    by_cases here : r = p
    · subst here
      by_contra releases
      exact other releases pointed.symm
    · exact (pageInUse_erase_of_ne (by rw [frees.inPage]; exact here)).2 inUse
  · rwa [freed.otherSlots clears frees inv member bound same]

theorem classInv (bound : d < 9) : ClassInv k' d := by
  have cls := inv.classes d bound
  have before : ∀ r, PageInUse (perPage d) (k'.slots d) r → PageInUse (perPage d) (k.slots d) r := fun r inUse =>
    freed.inUse_before clears frees inv member bound inUse
  have index : ∀ r, PageInUse (perPage d) (k'.slots d) r → r < 100 := fun r inUse =>
    cls.page_lt bound (before r inUse)
  have counters := freed.counters clears frees inv member bound
  exact {
    width := (Kernel.int_eq_of_field (freed.static (by decide))).trans cls.width
    size := by
      rw [freed.intact_iff, freed.isPage, Kernel.ptr_eq_of_field (freed.static (by decide))]
      exact cls.size
    bitmapPage := by rw [freed.bitmap, freed.isPage]; exact cls.bitmapPage
    bitmapHeld := by
      rw [freed.bitmap]
      refine freed.holder_of_held cls.bitmapHeld fun releases same => ?_
      have page := inv.page_bitmap_apart bound (clears.heldPage inv member releases)
      omega
    bounded := fun z used => cls.bounded z (freed.slots_subset clears frees inv member bound used)
    used := counters.1
    total := counters.2.1
    numPages := counters.2.2
    pages := fun r inUse => (cls.pages r (before r inUse)).imp
      (freed.heldPage_kept clears frees inv member bound inUse)
      (freed.nullPage_kept clears frees inv member bound (index r inUse))
    entries := by
      intro r q inUse below
      have indexR := index r inUse
      rw [freed.pagePtr_eq (by omega), freed.isPage]
      exact (cls.entries r q (before r inUse) below).imp_right
        (freed.nullPage_kept clears frees inv member bound (by omega))
    order := by
      intro r q inUse held below
      have indexR := index r inUse
      have real := held.ne_zero
      rw [freed.pagePtr_eq indexR] at real
      rw [freed.pagePtr_eq indexR, freed.pagePtr_eq (by omega)]
      exact cls.order r q (before r inUse) (cls.heldPage (before r inUse) real) below
    owned := fun pg held => freed.inUse_of_held clears frees inv member bound held }

/-- Another live object keeps its page in use. In a class whose size is spoilt
`kmfree` clears the first bit of the page, so the page needs the bit of one of
the two objects that does not stand first. -/
theorem occupied_kept (member' : o' ∈ live) (distinct : Distinct k o o') :
    o'.slot / perPage o'.cls ∈ occupiedPages (perPage o'.cls) (k'.slots o'.cls) := by
  have object := inv.objects o member
  have object' := inv.objects o' member'
  by_cases same : o'.cls = o.cls
  · have occupied := object'.occupied
    rw [same] at occupied ⊢
    rw [freed.slots]
    by_cases here : o'.slot / perPage o.cls = p
    · suffices ∃ z ∈ k.slots o.cls, z ≠ y ∧ z / perPage o.cls = p by
        obtain ⟨z, used, other, atPage⟩ := this
        rw [here]
        exact mem_occupiedPages.2 ⟨z, Finset.mem_erase.2 ⟨other, used⟩, atPage⟩
      have held' := object'.held
      rw [same, here] at held'
      cases clears with
      | own real intact =>
        rcases held' real with used | ⟨spoilt, _⟩
        · exact ⟨o'.slot, used, fun equal => real (distinct same.symm equal.symm), here⟩
        · exact absurd intact spoilt
      | start real spoilt =>
        have division := Nat.div_add_mod o.slot (perPage o.cls)
        have division' := Nat.div_add_mod o'.slot (perPage o.cls)
        rw [Nat.mul_comm] at division division'
        rw [here] at division'
        have different : o.slot ≠ o'.slot := fun equal => real (distinct same.symm equal)
        by_cases first : o.slot % perPage o.cls = 0
        · rcases held' real with used | ⟨_, first'⟩
          · exact ⟨o'.slot, used, by omega, here⟩
          · omega
        · rcases object.held real with used | ⟨_, first'⟩
          · exact ⟨o.slot, used, by omega, rfl⟩
          · exact absurd first' first
      | null real nullPage =>
        exact ⟨_, nullPage.start, (Clears.null real nullPage).ne_start inv member nullPage,
          Nat.mul_div_cancel _ (perPage_pos object.cls)⟩
    · obtain ⟨z, used, atPage⟩ := mem_occupiedPages.1 occupied
      refine mem_occupiedPages.2 ⟨z, Finset.mem_erase.2 ⟨?_, used⟩, atPage⟩
      rintro rfl
      exact here (atPage.symm.trans frees.inPage)
  · rw [freed.otherSlots clears frees inv member object'.cls same]
    exact object'.occupied

theorem bit_kept (member' : o' ∈ live) (distinct : Distinct k o o')
    (real : pagePtr k o'.cls (o'.slot / perPage o'.cls) ≠ 0) :
    o'.slot ∈ k'.slots o'.cls ∨ ¬Intact k' o'.cls ∧ o'.slot % perPage o'.cls = 0 := by
  have object' := inv.objects o' member'
  rw [freed.intact_iff]
  by_cases same : o'.cls = o.cls
  · refine (object'.held real).elim (fun used => ?_) .inr
    rw [same] at used real ⊢
    rw [freed.slots]
    by_cases cleared : o'.slot = y
    · right
      have inPage := frees.inPage
      cases clears with
      | own real' _ => exact absurd (distinct same.symm cleared.symm) real'
      | start _ spoilt =>
        refine ⟨spoilt, ?_⟩
        rw [cleared, Nat.add_zero, Nat.mul_mod_left]
      | null _ nullPage =>
        rw [← cleared] at inPage
        rw [inPage] at real
        exact absurd nullPage.null real
    · exact .inl (Finset.mem_erase.2 ⟨cleared, used⟩)
  · rw [freed.otherSlots clears frees inv member object'.cls same]
    exact object'.held real

theorem liveInv (member' : o' ∈ live) (distinct : Distinct k o o') : LiveInv k' o' := by
  have object' := inv.objects o' member'
  have page := freed.object_page inv member'
  exact {
    cls := object'.cls
    req := object'.req
    slot := object'.slot
    addr := by rw [objAddr, page]; exact object'.addr
    occupied := freed.occupied_kept clears frees inv member member' distinct
    held := by rw [page]; exact freed.bit_kept clears frees inv member member' distinct
    null := by rw [page]; exact object'.null }

/-- `kmfree` of a live object keeps the invariant. -/
theorem inv_erase : Inv k' (live.erase o) := by
  have pairs : (o :: live.erase o).Pairwise (Distinct k) :=
    ((List.perm_cons_erase member).pairwise_iff Distinct.symm).1 inv.distinct
  have others := (List.pairwise_cons.1 pairs).1
  refine ⟨fun d bound => freed.classInv clears frees inv member bound, fun o' member' => ?_, ?_⟩
  · exact freed.liveInv clears frees inv member (List.mem_of_mem_erase member') (others o' member')
  · refine (List.pairwise_cons.1 pairs).2.imp_of_mem fun left _ distinct cls slot => ?_
    rw [freed.object_page inv (List.mem_of_mem_erase left)]
    exact distinct cls slot

theorem noNull (before : NoNull k) : NoNull k' := by
  intro d bound r inUse
  have old := freed.inUse_before clears frees inv member bound inUse
  rw [freed.pagePtr_eq ((inv.classes d bound).page_lt bound old)]
  exact before d bound r old

/-- No byte of another live object changes. -/
theorem object_mem {a : Nat} (present : NoNull k) (member' : o' ∈ live.erase o)
    (low : o'.addr ≤ a) (high : a < o'.addr + classSize o'.cls) : k'.mem a = k.mem a := by
  have inLive := List.mem_of_mem_erase member'
  have pairs : (o :: live.erase o).Pairwise (Distinct k) :=
    ((List.perm_cons_erase member).pairwise_iff Distinct.symm).1 inv.distinct
  have distinct := (List.pairwise_cons.1 pairs).1 o' member'
  have bound := (inv.objects o member).cls
  have bound' := (inv.objects o' inLive).cls
  have inUse' := inv.object_pageInUse inLive
  have real' := present _ bound' _ inUse'
  have held' := (inv.classes o'.cls bound').heldPage inUse' real'
  have apart := inv.disjoint member inLive distinct (present _ bound _ (inv.object_pageInUse member)) real'
  have bitmap := inv.page_bitmap_apart bound held'
  have within := inv.object_mem_page inLive
  have inside := frees.inside
  refine freed.mem a (by omega) (by omega) fun releases => ?_
  have released := clears.heldPage inv member releases
  have after := freed.heldPage_kept clears frees inv member bound'
    (.inr (freed.occupied_kept clears frees inv member inLive distinct)) held'
  have different := (freed.held_of_holder after.holder).2 releases
  rw [freed.object_page inv inLive] at different
  have := released.isPage.aligned
  have := held'.isPage.aligned
  omega

end Freed

end MiniOS
