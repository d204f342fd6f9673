import MiniOS.Slab.Invariant

namespace MiniOS

open Lib

/-- The page at the head of the free list is one that nobody holds. -/
structure Fresh (k : Kernel) : Prop where
  isPage : k.IsPage k.freelist
  unheld : k.holder k.freelist = none

/-- What `kalloc` answers if slot `z` opens a page: a page that nobody holds,
or nothing. A failure for the last page would spoil the next descriptor with
a zero. -/
def Supplied (k : Kernel) (c z : Nat) : Prop :=
  Opens k c z → Fresh k ∨ k.freelist = 0 ∧ z / perPage c < 99

theorem Fresh.ne_held {k : Kernel} {pg : Nat} {h : Holder} (fresh : Fresh k) (held : k.holder pg = some h) :
    pg ≠ k.freelist := by
  rintro rfl
  rw [fresh.unheld] at held
  cases held

namespace Inv

variable {k : Kernel} {live : List Obj} {c d z : Nat} (inv : Inv k live)

include inv

theorem target_bitmap_apart (bound : c < 9) (bound' : d < 9) (supplied : Supplied k c z) :
    targetPage k c z + 4096 ≤ k.ptr d .bitmap ∨ k.ptr d .bitmap + 4096 ≤ targetPage k c z := by
  have bitmap := (inv.classes d bound').bitmapPage
  have low := bitmap.low
  unfold targetPage
  split
  · rename_i opens
    rcases supplied opens with fresh | ⟨empty, _⟩
    · have different := fresh.ne_held (inv.classes d bound').bitmapHeld
      have := fresh.isPage.aligned
      have := bitmap.aligned
      omega
    · omega
  · rename_i kept
    rcases (inv.classes c bound).pages _ (not_not.1 kept) with held | null
    · exact inv.page_bitmap_apart bound' held
    · rw [null.null]
      omega

theorem target_room (bound : c < 9) (supplied : Supplied k c z) : targetPage k c z + 4096 ≤ 2 ^ 32 := by
  unfold targetPage
  split
  · rename_i opens
    rcases supplied opens with fresh | ⟨empty, _⟩
    · have := fresh.isPage.high
      omega
    · omega
  · rename_i kept
    rcases (inv.classes c bound).pages _ (not_not.1 kept) with held | null
    · have := held.isPage.high
      omega
    · rw [null.null]
      omega

theorem takes (bound : c < 9) (intact : Intact k c) (lowest : LowestFree (k.slots c) z)
    (inside : z < capacity c) (supplied : Supplied k c z) : Takes k c z := by
  have cls := inv.classes c bound
  have whole := capacity_le bound
  have last : z < 100 * perPage c := inside.trans_le capacity_le_pages
  have few : (k.slots c).card < capacity c := by
    have subset : insert z (k.slots c) ⊆ Finset.range (capacity c) := by
      intro y member
      rw [Finset.mem_range]
      rcases Finset.mem_insert.1 member with rfl | used
      · exact inside
      · exact cls.bounded y used
    have count := Finset.card_le_card subset
    rw [Finset.card_insert_of_notMem lowest.1, Finset.card_range] at count
    omega
  have used := cls.used
  have total := cls.total
  exact {
    bound := bound
    width := cls.width
    size := intact
    lowest := lowest
    inside := by
      have := perPage_pos bound
      omega
    within := last
    used := used
    free := by omega
    room := inv.target_room bound supplied
    separate := inv.target_bitmap_apart bound bound supplied }

end Inv

namespace Allocated

variable {k k' : Kernel} {c d z p q r : Nat} {size : Int} (alloc : Allocated k k' c z size p)
  {pg a : Nat} {h : Holder} {o : Obj} {live : List Obj}
  (inv : Inv k live) (takes : Takes k c z) (supplied : Supplied k c z)

include alloc

theorem isPage : k'.IsPage pg ↔ k.IsPage pg := Kernel.IsPage.congr alloc.kend

/-- `page[100]` of one class is the size of the next one. -/
theorem size_next (opens : Opens k c z) (last : z / perPage c = 99) :
    k'.ptr ((c + 1 : Nat) : Int) .size = k.freelist := by
  have page := (alloc.opened opens).1
  rw [last] at page
  rw [← page, pagePtr, Kernel.ptr, Kernel.ptr, Kernel.field, Kernel.field]
  have word : Field.size.word ((c + 1 : Nat) : Int) = (Field.page (((99 : Nat) : Int) + 1)).word c := by
    simp only [Field.word, slabWords, Field.offset]
    omega
  rw [word]

theorem holder_of_held (supplied : Supplied k c z) (held : k.holder pg = some h) :
    k'.holder pg = some h := by
  by_cases opens : Opens k c z
  · rw [(alloc.opened opens).2]
    split
    · exact held
    · rename_i some
      rcases supplied opens with fresh | ⟨empty, _⟩
      · rw [Function.update_of_ne (fresh.ne_held held), held]
      · exact absurd empty some
  · rw [alloc.kept opens, held]

/-- Whoever holds a page afterwards held it before, but for the class that
has just opened a page. -/
theorem held_of_holder (held : k'.holder pg = some h) :
    k.holder pg = some h ∨ Opens k c z ∧ k.freelist ≠ 0 ∧ pg = k.freelist ∧ h = .objectsOf c := by
  by_cases opens : Opens k c z
  · rw [(alloc.opened opens).2] at held
    split at held
    · exact .inl held
    · rename_i some
      by_cases same : pg = k.freelist
      · subst same
        rw [Function.update_self] at held
        exact .inr ⟨opens, some, rfl, (Option.some.inj held).symm⟩
      · rw [Function.update_of_ne same] at held
        exact .inl held
  · rw [alloc.kept opens] at held
    exact .inl held

theorem pageInUse_iff :
    PageInUse (perPage c) (k'.slots c) r ↔ r = z / perPage c ∨ PageInUse (perPage c) (k.slots c) r := by
  rw [alloc.slots, pageInUse_insert]

theorem pageInUse_before (other : ¬(r = z / perPage c ∧ Opens k c z)) (inUse : PageInUse (perPage c) (k'.slots c) r) :
    PageInUse (perPage c) (k.slots c) r := by
  rcases alloc.pageInUse_iff.1 inUse with rfl | old
  · exact not_not.1 fun opens => other ⟨rfl, opens⟩
  · exact old

include takes

/-- No counter of another class changes, and neither the bitmap nor the number
of objects in a page of any. -/
theorem static {f : Field} (low : 1 ≤ f.offset) (high : f.offset < 6)
    (other : d ≠ c ∨ 4 ≤ f.offset) : k'.field d f = k.field d f := by
  have index := takes.page_lt
  have frame := alloc.frame d f
  generalize z / perPage c = q at index frame
  refine frame ?_ ?_ ?_ fun _ => ?_
  all_goals
    simp only [Field.word, slabWords, Field.offset] at *
    omega

theorem bitmap : k'.ptr d .bitmap = k.ptr d .bitmap :=
  Kernel.ptr_eq_of_field (alloc.static takes (by decide) (by decide) (.inr (by decide)))

theorem pagePtr_other (bound : r < 100) (other : ¬(d = c ∧ r = z / perPage c ∧ Opens k c z)) :
    pagePtr k' d r = pagePtr k d r := by
  have index := takes.page_lt
  have frame := alloc.frame d (.page ((r : Int) + 1))
  generalize z / perPage c = q at index frame other
  refine Kernel.ptr_eq_of_field (frame ?_ ?_ ?_ fun opens => ?_)
  on_goal 4 => simp only [opens, and_true] at other
  all_goals
    simp only [Field.word, slabWords, Field.offset]
    omega

theorem size_other (other : ¬(d = c + 1 ∧ 99 ≤ z / perPage c ∧ Opens k c z)) :
    k'.field d .size = k.field d .size := by
  have index := takes.page_lt
  have frame := alloc.frame d .size
  generalize z / perPage c = q at index frame other
  refine frame ?_ ?_ ?_ fun opens => ?_
  on_goal 4 => simp only [opens, and_true] at other
  all_goals
    simp only [Field.word, slabWords, Field.offset]
    omega

/-- Memory outside the bitmap of the class and the new object stays. -/
theorem mem_of_outside (fits : size ≤ classSize c)
    (notBitmap : a < k.ptr c .bitmap ∨ k.ptr c .bitmap + 4096 ≤ a)
    (notObject : a < p ∨ p + classSize c ≤ a) : k'.mem a = k.mem a := by
  have inside := takes.inside.2
  exact alloc.mem a (by omega) (by omega)

theorem addr_target : p = targetPage k c z + z % perPage c * classSize c := by
  rw [alloc.addr, objAddr, targetPage]
  split
  · rename_i opens
    rw [(alloc.opened opens).1]
  · rename_i kept
    rw [alloc.pagePtr_other takes takes.page_lt fun opens => kept opens.2.2]

theorem addr_mem_target : targetPage k c z ≤ p ∧ p + classSize c ≤ targetPage k c z + 4096 := by
  have fits := slot_end_le takes.bound z
  rw [alloc.addr_target takes]
  omega

theorem liveInv_new (inside : z < capacity c) (asked : 0 < size ∧ size ≤ classSize c)
    (real : p ≠ 0) : LiveInv k' ⟨p, c, size, z⟩ where
  cls := takes.bound
  req := asked
  slot := inside
  addr := alloc.addr
  occupied := by
    rw [alloc.slots, occupiedPages_insert]
    exact Finset.mem_insert_self _ _
  held := fun _ => .inl (by rw [alloc.slots]; exact Finset.mem_insert_self _ _)
  null := by
    intro null start
    have addr := alloc.addr
    rw [objAddr, null, start] at addr
    omega

theorem allIntact (early : z / perPage c < 99) (before : AllIntact k) : AllIntact k' := by
  intro d bound
  rw [Intact, Kernel.int_eq_of_field (alloc.size_other takes fun last => by omega)]
  exact before d bound

section

include supplied

/-- The size of a class stays as it is, or a page is put into its place. -/
theorem size_cases :
    k'.IsPage (k'.ptr d .size) ∨ k'.field d .size = k.field d .size := by
  by_cases spoilt : d = c + 1 ∧ 99 ≤ z / perPage c ∧ Opens k c z
  · obtain ⟨rfl, last, opens⟩ := spoilt
    have index := takes.page_lt
    have value := alloc.size_next opens (by omega)
    rcases supplied opens with fresh | ⟨_, early⟩
    · left
      rw [value, alloc.isPage]
      exact fresh.isPage
    · omega
  · exact .inr (alloc.size_other takes spoilt)

theorem intact_or_page (before : Intact k d ∨ k.IsPage (k.ptr d .size)) : Intact k' d ∨ k'.IsPage (k'.ptr d .size) := by
  obtain page | same := alloc.size_cases (d := d) takes supplied
  · exact .inr page
  · rw [Intact, Kernel.int_eq_of_field same, Kernel.ptr_eq_of_field same, alloc.isPage]
    exact before

/-- A class whose size is spoilt stays so. -/
theorem not_intact_kept (before : ¬Intact k d) : ¬Intact k' d := by
  obtain page | same := alloc.size_cases (d := d) takes supplied
  · exact page.not_intact
  · rwa [Intact, Kernel.int_eq_of_field same]

/-- The page that `kalloc` has given for the slot, or the null pointer in its place. -/
theorem opened_page (opens : Opens k c z) : HeldPage k' c (z / perPage c) ∨ NullPage k' c (z / perPage c) := by
  have opened := (alloc.opened opens).1
  rcases supplied opens with fresh | ⟨empty, _⟩
  · left
    refine ⟨by rw [opened, alloc.isPage]; exact fresh.isPage, ?_⟩
    rw [opened, (alloc.opened opens).2, if_neg fresh.isPage.ne_zero, Function.update_self]
  · right
    have first := (takes.lowest.not_pageInUse_iff (perPage_pos takes.bound)).1 opens
    have whole : z / perPage c * perPage c = z := by
      have division := Nat.div_add_mod z (perPage c)
      rw [Nat.mul_comm] at division
      omega
    refine ⟨by rw [opened, empty], fun zero => opens (.inl zero), ?_⟩
    rw [alloc.slots, whole]
    exact Finset.mem_insert_self _ _

end

include inv

/-- The pointer to a page in use stays. -/
theorem pagePtr_kept (bound : d < 9)
    (inUse : PageInUse (perPage d) (k.slots d) r) : pagePtr k' d r = pagePtr k d r := by
  refine alloc.pagePtr_other takes ((inv.classes d bound).page_lt bound inUse) ?_
  rintro ⟨rfl, rfl, opens⟩
  exact opens inUse

/-- The page of a live object keeps its pointer. -/
theorem object_page (member : o ∈ live) :
    pagePtr k' o.cls (o.slot / perPage o.cls) = pagePtr k o.cls (o.slot / perPage o.cls) :=
  alloc.pagePtr_kept inv takes (inv.objects o member).cls (inv.object_pageInUse member)

theorem nullPage_kept (inUse : PageInUse (perPage c) (k.slots c) r) (null : NullPage k c r) : NullPage k' c r := by
  refine ⟨(alloc.pagePtr_kept inv takes takes.bound inUse).trans null.null, null.notFirst, ?_⟩
  rw [alloc.slots]
  exact Finset.mem_insert_of_mem null.start

theorem page_lt (inUse : PageInUse (perPage c) (k'.slots c) r) : r < 100 := by
  rcases alloc.pageInUse_iff.1 inUse with rfl | old
  · exact takes.page_lt
  · exact (inv.classes c takes.bound).page_lt takes.bound old

theorem distinct_old {o' : Obj} (member : o ∈ live)
    (distinct : Distinct k o o') : Distinct k' o o' := by
  intro cls slot
  rw [alloc.object_page inv takes member]
  exact distinct cls slot

theorem distinct_new (member : o ∈ live) :
    Distinct k' ⟨p, c, size, z⟩ o := by
  refine Distinct.symm fun cls slot => ?_
  rw [alloc.object_page inv takes member]
  by_contra real
  rcases (inv.objects o member).held real with used | ⟨spoilt, _⟩
  · rw [cls, slot] at used
    exact takes.lowest.1 used
  · rw [cls] at spoilt
    exact spoilt takes.size

include supplied

theorem otherSlots (fits : size ≤ classSize c) (bound : d < 9) (different : d ≠ c) : k'.slots d = k.slots d := by
  refine Kernel.slots_congr (alloc.bitmap takes) fun a low high => ?_
  have apart := inv.bitmaps_apart bound takes.bound different
  have target := inv.target_bitmap_apart takes.bound bound supplied
  have object := alloc.addr_mem_target takes
  exact alloc.mem_of_outside takes fits (by omega) (by omega)

theorem heldPage_kept (bound : d < 9)
    (inUse : PageInUse (perPage d) (k.slots d) r) (held : HeldPage k d r) : HeldPage k' d r := by
  have same := alloc.pagePtr_kept inv takes bound inUse
  exact ⟨by rw [same, alloc.isPage]; exact held.isPage, by rw [same]; exact alloc.holder_of_held supplied held.holder⟩

theorem pages (inUse : PageInUse (perPage c) (k'.slots c) r) : HeldPage k' c r ∨ NullPage k' c r := by
  by_cases here : r = z / perPage c ∧ Opens k c z
  · exact here.1 ▸ alloc.opened_page takes supplied here.2
  · have old := alloc.pageInUse_before here inUse
    exact ((inv.classes c takes.bound).pages r old).imp (alloc.heldPage_kept inv takes supplied takes.bound old)
      (alloc.nullPage_kept inv takes old)

theorem entries (inUse : PageInUse (perPage c) (k'.slots c) r) (below : q < r) :
    k'.IsPage (pagePtr k' c q) ∨ NullPage k' c q := by
  have positive := perPage_pos takes.bound
  have index := alloc.page_lt inv takes inUse
  by_cases opens : r = z / perPage c ∧ Opens k c z
  · have low := takes.lowest.below_pageInUse positive (opens.1 ▸ below)
    exact (alloc.pages inv takes supplied (alloc.pageInUse_iff.2 (.inr low))).imp_left HeldPage.isPage
  · by_cases here : q = z / perPage c ∧ Opens k c z
    · rw [here.1]
      exact (alloc.opened_page takes supplied here.2).imp_left HeldPage.isPage
    · rcases (inv.classes c takes.bound).entries r q (alloc.pageInUse_before opens inUse) below with page | null
      · left
        rw [alloc.pagePtr_other takes (by omega) fun own => here own.2, alloc.isPage]
        exact page
      · exact .inr (alloc.nullPage_kept inv takes (pageInUse_of_start null.start positive) null)

theorem order (inUse : PageInUse (perPage c) (k'.slots c) r) (held : HeldPage k' c r) (below : q < r) :
    pagePtr k' c q ≠ pagePtr k' c r := by
  have cls := inv.classes c takes.bound
  have index := alloc.page_lt inv takes inUse
  by_cases last : r = z / perPage c ∧ Opens k c z
  · obtain ⟨rfl, opens⟩ := last
    have low := takes.lowest.below_pageInUse (perPage_pos takes.bound) below
    have real := held.ne_zero
    rw [(alloc.opened opens).1] at real ⊢
    rw [alloc.pagePtr_kept inv takes takes.bound low]
    rcases cls.pages q low with heldLow | null
    · rcases supplied opens with fresh | ⟨empty, _⟩
      · exact fresh.ne_held heldLow.holder
      · exact absurd empty real
    · rw [null.null]
      exact real.symm
  · have old := alloc.pageInUse_before last inUse
    have same := alloc.pagePtr_kept inv takes takes.bound old
    have real := held.ne_zero
    rw [same] at real ⊢
    have heldBefore := cls.heldPage old real
    by_cases here : q = z / perPage c ∧ Opens k c z
    · rw [here.1, (alloc.opened here.2).1]
      rcases supplied here.2 with fresh | ⟨empty, _⟩
      · exact (fresh.ne_held heldBefore.holder).symm
      · rw [empty]
        exact real.symm
    · rw [alloc.pagePtr_other takes (by omega) fun own => here own.2]
      exact cls.order r q old heldBefore below

theorem classInv_other (fits : size ≤ classSize c) (bound : d < 9) (different : d ≠ c) : ClassInv k' d := by
  refine (inv.classes d bound).untouched bound ⟨fun f low high => alloc.static takes low high (.inl different),
    fun index => alloc.pagePtr_other takes index fun own => different own.1,
    alloc.otherSlots inv takes supplied fits bound different, alloc.isPage, alloc.holder_of_held supplied,
    fun held => ?_, alloc.holder_of_held supplied⟩ (alloc.intact_or_page takes supplied (inv.classes d bound).size)
  · refine (alloc.held_of_holder held).resolve_right ?_
    rintro ⟨-, -, -, wrong⟩
    simp only [Holder.objectsOf.injEq, Nat.cast_inj] at wrong
    exact different wrong

theorem classInv_own (inside : z < capacity c) : ClassInv k' c := by
  have bound := takes.bound
  have cls := inv.classes c bound
  exact {
    width := by rw [Kernel.int_eq_of_field (alloc.static takes (by decide) (by decide) (.inr (by decide))), cls.width]
    size := alloc.intact_or_page takes supplied cls.size
    bitmapPage := by rw [alloc.bitmap takes, alloc.isPage]; exact cls.bitmapPage
    bitmapHeld := by rw [alloc.bitmap takes]; exact alloc.holder_of_held supplied cls.bitmapHeld
    bounded := by
      intro y member
      rw [alloc.slots] at member
      rcases Finset.mem_insert.1 member with rfl | old
      · exact inside
      · exact cls.bounded y old
    used := by
      rw [alloc.numUsed, alloc.slots, Finset.card_insert_of_notMem takes.lowest.1, cls.used]
      push_cast
      rfl
    total := by
      have total := cls.total
      rw [alloc.numUsed, alloc.numFree]
      omega
    numPages := by rw [alloc.numPages, alloc.slots]
    pages := fun r => alloc.pages inv takes supplied
    entries := fun r q => alloc.entries inv takes supplied
    order := fun r q => alloc.order inv takes supplied
    owned := by
      intro pg held
      rcases alloc.held_of_holder held with old | ⟨opens, _, same, _⟩
      · obtain ⟨r, inUse, pointed⟩ := cls.owned pg old
        exact ⟨r, alloc.pageInUse_iff.2 (.inr inUse), (alloc.pagePtr_kept inv takes bound inUse).trans pointed⟩
      · exact ⟨_, alloc.pageInUse_iff.2 (.inl rfl), by rw [(alloc.opened opens).1, same]⟩ }

theorem slots_subset (fits : size ≤ classSize c) (bound : d < 9) : k.slots d ⊆ k'.slots d := by
  by_cases same : d = c
  · subst same
    rw [alloc.slots]
    exact Finset.subset_insert _ _
  · rw [alloc.otherSlots inv takes supplied fits bound same]

theorem liveInv_old (fits : size ≤ classSize c) (member : o ∈ live) : LiveInv k' o := by
  have object := inv.objects o member
  have page := alloc.object_page inv takes member
  have slots := alloc.slots_subset inv takes supplied fits object.cls
  exact {
    cls := object.cls
    req := object.req
    slot := object.slot
    addr := by rw [objAddr, page]; exact object.addr
    occupied := Finset.image_subset_image slots object.occupied
    held := by
      intro real
      rw [page] at real
      exact (object.held real).imp (fun used => slots used)
        fun spoilt => ⟨alloc.not_intact_kept takes supplied spoilt.1, spoilt.2⟩
    null := by rw [page]; exact object.null }

/-- The locked part of `kmalloc` keeps the invariant. Its answer is a live
object unless it is null. -/
theorem keeps (inside : z < capacity c)
    (asked : 0 < size ∧ size ≤ classSize c) : Inv k' (if p = 0 then live else ⟨p, c, size, z⟩ :: live) := by
  have classes : ∀ d < 9, ClassInv k' d := by
    intro d bound
    by_cases same : d = c
    · subst same
      exact alloc.classInv_own inv takes supplied inside
    · exact alloc.classInv_other inv takes supplied asked.2 bound same
  have old : ∀ o ∈ live, LiveInv k' o := fun o member => alloc.liveInv_old inv takes supplied asked.2 member
  have pairs : live.Pairwise (Distinct k') :=
    inv.distinct.imp_of_mem fun left _ distinct => alloc.distinct_old inv takes left distinct
  split
  · exact ⟨classes, old, pairs⟩
  · rename_i real
    refine ⟨classes, fun o member => ?_, List.pairwise_cons.2 ⟨fun o member => ?_, pairs⟩⟩
    · rcases List.mem_cons.1 member with rfl | member
      · exact alloc.liveInv_new takes inside asked real
      · exact old o member
    · exact alloc.distinct_new inv takes member

theorem noNull (fits : size ≤ classSize c)
    (given : Opens k c z → k.freelist ≠ 0) (before : NoNull k) : NoNull k' := by
  intro d bound r inUse
  by_cases new : d = c ∧ r = z / perPage c ∧ Opens k c z
  · obtain ⟨rfl, rfl, opens⟩ := new
    rw [(alloc.opened opens).1]
    exact given opens
  · have old : PageInUse (perPage d) (k.slots d) r := by
      by_cases same : d = c
      · subst same
        rw [alloc.slots, pageInUse_insert] at inUse
        rcases inUse with rfl | old
        · by_contra opens
          exact new ⟨rfl, rfl, opens⟩
        · exact old
      · rwa [alloc.otherSlots inv takes supplied fits bound same] at inUse
    rw [alloc.pagePtr_other takes ((inv.classes d bound).page_lt bound old) new]
    exact before d bound r old

/-- No byte of a live object changes. -/
theorem object_mem (inside : z < capacity c) (asked : 0 < size ∧ size ≤ classSize c) (present : NoNull k') (member : o ∈ live)
    (low : o.addr ≤ a) (high : a < o.addr + classSize o.cls) : k'.mem a = k.mem a := by
  have object := inv.objects o member
  have inUse' : PageInUse (perPage c) (k'.slots c) (z / perPage c) := by
    rw [alloc.slots]
    exact pageInUse_insert.2 (.inl rfl)
  have real' := present c takes.bound _ inUse'
  have nonzero : p ≠ 0 := by
    have addr := alloc.addr
    rw [objAddr] at addr
    omega
  have after := alloc.keeps inv takes supplied inside asked
  rw [if_neg nonzero] at after
  have memberNew : (⟨p, c, size, z⟩ : Obj) ∈ (⟨p, c, size, z⟩ :: live : List Obj) := .head _
  have memberOld : o ∈ (⟨p, c, size, z⟩ :: live : List Obj) := .tail _ member
  have realOld := present o.cls object.cls _ (after.object_pageInUse memberOld)
  have apart := after.disjoint memberNew memberOld (alloc.distinct_new inv takes member) real' realOld
  rw [alloc.object_page inv takes member] at realOld
  have held := (inv.classes o.cls object.cls).heldPage (inv.object_pageInUse member) realOld
  have bitmap := inv.page_bitmap_apart takes.bound held
  have within := inv.object_mem_page member
  exact alloc.mem_of_outside takes asked.2 (by omega) (by dsimp only at apart; omega)

end Allocated

end MiniOS
