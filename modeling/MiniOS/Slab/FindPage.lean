import MiniOS.Slab.MallocInv

namespace MiniOS

open Lib

variable {a pg c addr p m : Nat} {k : Kernel}

/-- For pointers into the address space, the test of `kmfree`'s loop says
whether the page contains the address. -/
theorem ptrdiff_mem (bound : a < 2 ^ 32) (bound' : pg + 4096 ≤ 2 ^ 32) :
    ptrdiff a pg ≥ 0 ∧ ptrdiff a pg < 4096 ↔ pg ≤ a ∧ a < pg + 4096 := by
  simp only [ptrdiff, Int.bmod]
  omega

theorem ptrdiff_eq (low : pg ≤ a) (high : a < pg + 4096) :
    ptrdiff a pg = ((a - pg : Nat) : Int) := by
  simp only [ptrdiff, Int.bmod]
  omega

/-- The loop stops at the first page that contains the address. -/
theorem findPage_eq (index : p < 100) (bound : addr < 2 ^ 32)
    (room : ∀ q ≤ p, pagePtr k c q + 4096 ≤ 2 ^ 32) (here : pagePtr k c p ≤ addr ∧ addr < pagePtr k c p + 4096)
    (before : ∀ q < p, ¬(pagePtr k c q ≤ addr ∧ addr < pagePtr k c q + 4096)) :
    findPage k c addr = (p : Int) + 1 := by
  have list : upTo 1 100 = (List.range 100).map fun i : Nat => 1 + (i : Int) := rfl
  have test : ∀ q ≤ p, (ptrdiff addr (k.ptr c (.page (1 + (q : Int)))) ≥ 0 ∧
      ptrdiff addr (k.ptr c (.page (1 + (q : Int)))) < (pgsize : Int)) ↔
        pagePtr k c q ≤ addr ∧ addr < pagePtr k c q + 4096 := by
    intro q below
    have same : k.ptr c (.page (1 + (q : Int))) = pagePtr k c q := by
      rw [pagePtr, add_comm]
    rw [same]
    exact ptrdiff_mem bound (room q below)
  have found : (List.range 100).find? ((fun i : Int => decide (ptrdiff addr (k.ptr c (.page i)) ≥ 0 ∧
      ptrdiff addr (k.ptr c (.page i)) < (pgsize : Int))) ∘ fun i : Nat => 1 + (i : Int)) = some p := by
    rw [List.find?_range_eq_some]
    refine ⟨?_, List.mem_range.2 index, fun q below => ?_⟩
    · exact decide_eq_true ((test p le_rfl).2 here)
    · have outside := before q below
      rw [← test q below.le] at outside
      simpa only [Function.comp_apply, Bool.not_eq_true', decide_eq_false_iff_not] using outside
  unfold findPage
  dsimp only
  rw [list, List.find?_map, found, Option.map_some, Option.getD_some, add_comm]

/-- The bit that freeing an object clears. It is the object's own bit, unless
the size of the class is spoilt, when it is the first bit of the page, or the
page does not exist, when it may be a bit of another such page. -/
inductive Clears (k : Kernel) (o : Obj) : Nat → Nat → Prop
  | own : pagePtr k o.cls (o.slot / perPage o.cls) ≠ 0 → Intact k o.cls →
      Clears k o (o.slot / perPage o.cls) o.slot
  | start : pagePtr k o.cls (o.slot / perPage o.cls) ≠ 0 → ¬Intact k o.cls →
      Clears k o (o.slot / perPage o.cls) (o.slot / perPage o.cls * perPage o.cls + 0)
  | null {p : Nat} : pagePtr k o.cls (o.slot / perPage o.cls) = 0 → NullPage k o.cls p →
      Clears k o p (p * perPage o.cls + o.slot % perPage o.cls)

theorem kmfreeOffset_eq (width : k.int c .numObjectsPerPage = perPage c)
    (found : findPage k c addr = (p : Int) + 1)
    (quotient : cdiv (ptrdiff addr (pagePtr k c p)) (k.int c .size) = .ok (m : Int)) :
    kmfreeOffset k c addr = .ok ((p * perPage c + m : Nat) : Int) := by
  have pointer : k.ptr c (.page ((p : Int) + 1)) = pagePtr k c p := rfl
  simp only [kmfreeOffset, found, pointer, quotient, ok_bind, pure_eq_ok, width, add_sub_cancel_right]
  push_cast
  rfl

theorem cdiv_intact (intact : Intact k c) (m : Nat) :
    cdiv ((m * classSize c : Nat) : Int) (k.int c .size) = .ok (m : Int) := by
  rw [show k.int c .size = _ from intact, cdiv_natCast (classSize_pos c), Nat.mul_div_cancel _ (classSize_pos c)]

/-- Dividing an offset inside a page by a pointer gives zero. -/
theorem cdiv_spoilt (page : k.IsPage (k.ptr c .size)) (small : m ≤ 4096) :
    cdiv (m : Int) (k.int c .size) = .ok ((0 : Nat) : Int) := by
  have := page.high
  rw [page.toInt_neg, cdiv, if_neg (by omega), ← Int.neg_neg ((k.ptr c .size : Int) - 2 ^ 32), Int.tdiv_neg,
    Int.tdiv_eq_zero_of_lt (by omega) (by omega)]
  rfl

theorem own_div {w : Nat} (less : m < w) : (p * w + m) / w = p := by
  rw [Nat.mul_comm, Nat.mul_add_div (by omega), Nat.div_eq_of_lt less, Nat.add_zero]

/-- What `kmfree` relies on, for any address that it finds in a page of the class. -/
theorem ClassInv.frees (cls : ClassInv k c) (bound : c < 9) (some : 0 < (k.slots c).card)
    (less : m < perPage c) (inside : p * perPage c + m < 32768) (found : findPage k c addr = (p : Int) + 1)
    (quotient : cdiv (ptrdiff addr (pagePtr k c p)) (k.int c .size) = .ok (m : Int))
    (separate : addr + classSize c ≤ k.ptr c .bitmap ∨ k.ptr c .bitmap + 4096 ≤ addr)
    (page : Releases k c p (p * perPage c + m) → k.IsPage (pagePtr k c p) ∧
      (pagePtr k c p + 4096 ≤ k.ptr c .bitmap ∨ k.ptr c .bitmap + 4096 ≤ pagePtr k c p)) :
    Frees k c p (p * perPage c + m) addr := by
  have used := cls.used
  have total := cls.total
  have numPages := cls.numPages
  have limit := cls.card_le
  have pages : pagesInUse (perPage c) (k.slots c) ≤ (k.slots c).card + 1 := pagesInUse_le
  have whole := capacity_le bound
  exact {
    bound := bound
    width := cls.width
    used := used
    some := by omega
    free := by omega
    pages := by omega
    found := found
    offset := kmfreeOffset_eq cls.width found quotient
    inside := inside
    inPage := own_div less
    page := fun releases => (page releases).1
    separate := separate
    apart := fun releases => (page releases).2 }

namespace Inv

variable {k : Kernel} {live : List Obj} {o : Obj} (inv : Inv k live) (member : o ∈ live)

include inv member

theorem entry_room {q : Nat} (below : q ≤ o.slot / perPage o.cls) : pagePtr k o.cls q + 4096 ≤ 2 ^ 32 := by
  have object := inv.objects o member
  have cls := inv.classes o.cls object.cls
  have inUse := inv.object_pageInUse member
  rcases Nat.lt_or_eq_of_le below with before | rfl
  · rcases cls.entries _ q inUse before with page | null
    · have := page.high
      omega
    · rw [null.null]
      omega
  · rcases cls.pages _ inUse with held | null
    · have := held.isPage.high
      omega
    · rw [null.null]
      omega

theorem addr_lt : o.addr < 2 ^ 32 := by
  have within := inv.object_mem_page member
  have room := inv.entry_room member le_rfl
  have := classSize_pos o.cls
  omega

theorem slot_lt : o.slot < 32768 :=
  (inv.objects o member).slot.trans_le (capacity_le (inv.objects o member).cls)

theorem addr_bitmap_apart {d : Nat} (bound : d < 9) :
    o.addr + classSize o.cls ≤ k.ptr d .bitmap ∨ k.ptr d .bitmap + 4096 ≤ o.addr := by
  have within := inv.object_mem_page member
  have object := inv.objects o member
  rcases (inv.classes o.cls object.cls).pages _ (inv.object_pageInUse member) with held | null
  · have apart := inv.page_bitmap_apart bound held
    omega
  · have := (inv.classes d bound).bitmapPage.low
    rw [null.null] at within
    omega

/-- For an object in a page that exists, the loop finds that page although
entries of released pages are never cleared: a page with a higher index was
opened while all lower ones were in use. -/
theorem findPage_real (real : pagePtr k o.cls (o.slot / perPage o.cls) ≠ 0) :
    findPage k o.cls o.addr = ((o.slot / perPage o.cls : Nat) : Int) + 1 := by
  have object := inv.objects o member
  have cls := inv.classes o.cls object.cls
  have inUse := inv.object_pageInUse member
  have held := cls.heldPage inUse real
  have within := inv.object_mem_page member
  have nonempty := classSize_pos o.cls
  refine findPage_eq (cls.page_lt object.cls inUse) (inv.addr_lt member) (fun q below => inv.entry_room member below)
    (by omega) fun q below => ?_
  rcases cls.entries _ q inUse below with page | null
  · have different := cls.order _ q inUse held below
    have := page.aligned
    have := held.isPage.aligned
    omega
  · have := held.isPage.low
    rw [null.null]
    omega

theorem findPage_null (null : pagePtr k o.cls (o.slot / perPage o.cls) = 0) :
    ∃ p ≤ o.slot / perPage o.cls, NullPage k o.cls p ∧ findPage k o.cls o.addr = (p : Int) + 1 := by
  have object := inv.objects o member
  have cls := inv.classes o.cls object.cls
  have inUse := inv.object_pageInUse member
  have within := inv.object_mem_page member
  have nonempty := classSize_pos o.cls
  rw [null] at within
  obtain ⟨p, below, empty, before⟩ := exists_first (p := fun q => pagePtr k o.cls q = 0)
    (Nat.lt_succ_self (o.slot / perPage o.cls)) null
  have nullPage : NullPage k o.cls p := by
    rcases Nat.lt_or_eq_of_le (Nat.lt_succ_iff.1 below) with lower | rfl
    · exact (cls.entries _ p inUse lower).resolve_left fun page => page.ne_zero empty
    · exact (cls.pages _ inUse).resolve_left fun held => held.ne_zero empty
  refine ⟨p, Nat.lt_succ_iff.1 below, nullPage, ?_⟩
  have index := cls.page_lt object.cls inUse
  refine findPage_eq (by omega) (inv.addr_lt member) (fun q lower => inv.entry_room member (by omega))
    (by omega) fun q lower => ?_
  have nonzero := before q lower
  rcases cls.entries _ q inUse (by omega) with page | nullEntry
  · have := page.low
    omega
  · exact absurd nullEntry.null nonzero

theorem pageOffset : ptrdiff o.addr (pagePtr k o.cls (o.slot / perPage o.cls)) =
    ((o.slot % perPage o.cls * classSize o.cls : Nat) : Int) := by
  have object := inv.objects o member
  have within := inv.object_mem_page member
  have nonempty := classSize_pos o.cls
  rw [ptrdiff_eq within.1 (by omega), object.addr, objAddr, Nat.add_sub_cancel_left]

theorem frees_of {p m : Nat} (less : m < perPage o.cls) (inside : p * perPage o.cls + m < 32768)
    (found : findPage k o.cls o.addr = (p : Int) + 1)
    (quotient : cdiv (ptrdiff o.addr (pagePtr k o.cls p)) (k.int o.cls .size) = .ok (m : Int))
    (held : Releases k o.cls p (p * perPage o.cls + m) → HeldPage k o.cls p) :
    Frees k o.cls p (p * perPage o.cls + m) o.addr := by
  have bound := (inv.objects o member).cls
  exact (inv.classes o.cls bound).frees bound (inv.object_used_pos member) less inside found quotient
    (inv.addr_bitmap_apart member bound) fun releases =>
    ⟨(held releases).isPage, inv.page_bitmap_apart bound (held releases)⟩

/-- `kmfree` of a live object finds what `Clears` says. -/
theorem frees (mode : AllIntact k ∨ NoNull k) : ∃ p y, Clears k o p y ∧ Frees k o.cls p y o.addr := by
  have bound := (inv.objects o member).cls
  have cls := inv.classes o.cls bound
  have positive := perPage_pos bound
  have inUse := inv.object_pageInUse member
  have slotBound := inv.slot_lt member
  have remainder := Nat.mod_lt o.slot positive
  have division : o.slot / perPage o.cls * perPage o.cls + o.slot % perPage o.cls = o.slot := by
    rw [Nat.mul_comm]
    exact Nat.div_add_mod o.slot (perPage o.cls)
  have offset := inv.pageOffset member
  by_cases real : pagePtr k o.cls (o.slot / perPage o.cls) = 0
  · have intact : Intact k o.cls := by
      rcases mode with intact | present
      · exact intact _ bound
      · exact absurd real (present _ bound _ inUse)
    obtain ⟨p, below, null, found⟩ := inv.findPage_null member real
    have start : p * perPage o.cls ≤ o.slot / perPage o.cls * perPage o.cls := Nat.mul_le_mul_right _ below
    refine ⟨p, _, .null real null, inv.frees_of member remainder (by omega) found ?_ fun releases => ?_⟩
    · rw [real] at offset
      rw [null.null, offset]
      exact cdiv_intact intact _
    · have different : p * perPage o.cls ≠ p * perPage o.cls + o.slot % perPage o.cls := by
        have := (inv.objects o member).null real
        omega
      exact absurd (pageInUse_of_start (Finset.mem_erase.2 ⟨different, null.start⟩) positive) releases
  · have held := cls.heldPage inUse real
    have found := inv.findPage_real member real
    by_cases intact : Intact k o.cls
    · have clears : Clears k o (o.slot / perPage o.cls) (o.slot / perPage o.cls * perPage o.cls +
          o.slot % perPage o.cls) := by
        rw [division]
        exact .own real intact
      refine ⟨_, _, clears, inv.frees_of member remainder (by omega) found ?_ fun _ => held⟩
      rw [offset]
      exact cdiv_intact intact _
    · refine ⟨_, _, .start real intact, inv.frees_of member positive (by omega) found ?_ fun _ => held⟩
      rw [offset]
      have fits := slot_end_le bound o.slot
      exact cdiv_spoilt (cls.size.resolve_left intact) (by have := classSize_pos o.cls; omega)

end Inv

end MiniOS
