import MiniOS.Slab.Pages

namespace MiniOS

open Lib

variable {k : Kernel} {c z : Nat}

theorem exists_lowest_clear {y : Nat} (clear : k.slotBit c y = false) :
    ∃ z ≤ y, LowestFree (k.slots c) z := by
  obtain ⟨z, inside, free, before⟩ := exists_first (p := fun y => y ∉ k.slots c) (Nat.lt_succ_self y) fun member => by
    rw [(Kernel.mem_slots.1 member).2] at clear
    cases clear
  exact ⟨z, Nat.lt_succ_iff.1 inside, free, fun x lower => not_not.1 (before x lower)⟩

/-- A bit that was clear is cleared again. -/
theorem Kernel.writeBit_restore {slabIdx : Int} (clear : k.slotBit slabIdx z = false) :
    (k.writeBit slabIdx z true).writeBit slabIdx z false = k := by
  suffices same : ((k.writeBit slabIdx z true).writeBit slabIdx z false).mem = k.mem by
    calc (k.writeBit slabIdx z true).writeBit slabIdx z false
        = k.withMem ((k.writeBit slabIdx z true).writeBit slabIdx z false).mem := rfl
      _ = k.withMem k.mem := by rw [same]
      _ = k := rfl
  funext a
  by_cases here : a = k.ptr slabIdx .bitmap + z / 8
  · subst here
    refine BitVec.eq_of_getLsbD_eq fun i column => ?_
    have row : (8 * (z / 8) + i) / 8 = z / 8 := by omega
    have position : (8 * (z / 8) + i) % 8 = i := by omega
    have bit : ((k.writeBit slabIdx z true).writeBit slabIdx z false).slotBit slabIdx (8 * (z / 8) + i) =
        k.slotBit slabIdx (8 * (z / 8) + i) := by
      rw [slotBit_writeBit, slotBit_writeBit]
      by_cases same : 8 * (z / 8) + i = z
      · rw [if_pos same, same, clear]
      · rw [if_neg same, if_neg same]
    simpa only [slotBit, ptr_writeBit, row, position] using bit
  · exact (writeBit_mem_of_ne (k := k.writeBit slabIdx z true) here).trans (writeBit_mem_of_ne here)

/-- The lowest clear bit opens its page exactly if this is not the first page and
all its bits are clear. -/
theorem LowestFree.opens_iff (lowest : LowestFree (k.slots c) z) (bound : c < 9) (inside : z < 32768) :
    ¬PageInUse (perPage c) (k.slots c) (z / perPage c) ↔
      z / perPage c ≠ 0 ∧ ∀ y, y / perPage c = z / perPage c → k.slotBit c y = false := by
  have positive := perPage_pos bound
  have division := Nat.div_add_mod z (perPage c)
  rw [lowest.not_pageInUse_iff positive, page_unused_iff bound inside]
  constructor
  · rintro ⟨nonzero, atStart, clear⟩
    refine ⟨fun first => nonzero ?_, clear⟩
    rw [first, atStart] at division
    omega
  · rintro ⟨later, clear⟩
    refine ⟨fun zero => later (by rw [zero, Nat.zero_div]), ?_, clear⟩
    by_contra behind
    -- the first bit of the page is below the lowest clear bit, so it is set
    have set := lowest.2 (perPage c * (z / perPage c)) (by omega)
    have unset := clear (perPage c * (z / perPage c)) (Nat.mul_div_cancel_left _ positive)
    rw [(Kernel.mem_slots.1 set).2] at unset
    cases unset

/-- `checkNewpage` and `setBitmap` find the same lowest clear bit, each by a loop
of its own. -/
theorem page_opening_agrees (k : Kernel) (c : Nat) (cls : c < 9) (width : k.int c .numObjectsPerPage = perPage c)
    {y : Nat} (inside : y < capacity c) (clear : k.slotBit c y = false) :
    ∃ z, z < capacity c ∧ k.slotBit c z = false ∧ (∀ x < z, k.slotBit c x = true) ∧
      setBitmap k c = (k.writeBit c z true, (z : Int)) ∧
      (∀ x, (k.writeBit c z true).slotBit c x = if x = z then true else k.slotBit c x) ∧
      ((z / perPage c ≠ 0 ∧ ∀ x, x / perPage c = z / perPage c → k.slotBit c x = false) →
        checkNewpage k c = .ok ((z / perPage c * perPage c : Nat) : Int)) ∧
      (¬(z / perPage c ≠ 0 ∧ ∀ x, x / perPage c = z / perPage c → k.slotBit c x = false) →
        checkNewpage k c = .ok 0) ∧
      (∀ p : Nat, checkEmpty k (p * perPage c : Nat) ((p * perPage c : Nat) + perPage c - 1 : Int) c = true ↔
        ∀ x, x / perPage c = p → k.slotBit c x = false) ∧
      clearBitmap (setBitmap k c).1 c z = (k, true) := by
  have whole := capacity_le cls
  obtain ⟨z, first, lowest⟩ := exists_lowest_clear clear
  have bound : z < 32768 := by omega
  have unset := Kernel.slotBit_of_notMem bound lowest.1
  have chosen := setBitmap_spec lowest bound
  have opens := LowestFree.opens_iff lowest cls bound
  have page := checkNewpage_spec cls width lowest bound
  refine ⟨z, by omega, unset, fun x lower => (Kernel.mem_slots.1 (lowest.2 x lower)).2, chosen,
    fun x => Kernel.slotBit_writeBit x, fun fresh => ?_, fun used => ?_, fun p => checkEmpty_spec k c p cls, ?_⟩
  · have start := ((lowest.not_pageInUse_iff (perPage_pos cls)).1 (opens.2 fresh)).2.1
    have division := Nat.div_add_mod z (perPage c)
    rw [page, if_neg (opens.2 fresh), show z / perPage c * perPage c = z by rw [Nat.mul_comm]; omega]
  · rw [page, if_pos (not_not.1 fun unused => used (opens.1 unused))]
  · have member : z ∈ (k.writeBit c z true).slots c := by
      rw [Kernel.slots_writeBit_true bound]
      exact Finset.mem_insert_self _ _
    rw [chosen, clearBitmap_spec _ _ bound, if_pos member, Kernel.writeBit_restore unset]

/-- The two objects of the first page of the class of 2048 bytes are in use. -/
def firstPageFull : Kernel :=
  ⟨fun w => if w = 852 then 2 else 0, fun a => if a = 0 then 3 else 0, 0, fun _ => none, 0⟩

/-- The third object of 2048 bytes opens the second page. -/
theorem page_opening_behind_full_page : firstPageFull.int 8 .numObjectsPerPage = perPage 8 ∧
    setBitmap firstPageFull 8 = (firstPageFull.writeBit 8 2 true, 2) ∧ checkNewpage firstPageFull 8 = .ok 2 ∧
    clearBitmap (setBitmap firstPageFull 8).1 8 2 = (firstPageFull, true) := by
  have width : firstPageFull.int (8 : Nat) .numObjectsPerPage = perPage 8 := by decide
  have full : ∀ x < 2, firstPageFull.slotBit (8 : Nat) x = true := by decide
  have clear : firstPageFull.slotBit (8 : Nat) 2 = false := by decide
  obtain ⟨z, _, unset, before, chosen, _, opens, _, _, cleared⟩ :=
    page_opening_agrees firstPageFull 8 (by decide) width (y := 2) (by decide) clear
  obtain rfl : z = 2 := by
    refine Nat.le_antisymm (Nat.not_lt.mp fun late => ?_) (Nat.not_lt.mp fun early => ?_)
    · exact absurd (before 2 late) (by rw [clear]; decide)
    · exact absurd (full z early) (by rw [unset]; decide)
  refine ⟨width, chosen, opens ⟨by decide, fun x page => ?_⟩, cleared⟩
  have each : perPage 8 = 2 := rfl
  rw [each] at page
  obtain rfl | rfl : x = 2 ∨ x = 3 := by omega
  · exact clear
  · decide

end MiniOS
