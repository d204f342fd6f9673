import Mathlib.Data.Finset.Filter
import MiniOS.Lib.SlotPool
import MiniOS.Slab.Fields

namespace MiniOS

open Lib

variable {c : Nat}

/-- `1 << (slabIdx+3)`, the size of the objects of a class. -/
def classSize (c : Nat) : Nat := 2 ^ (c + 3)

/-- `PGSIZE / size`, the number of objects of a class in one page. -/
def perPage (c : Nat) : Nat := 512 / 2 ^ c

/-- How many objects a class may have: 64 pages of them for the class of 8
bytes, 100 pages for the others. -/
def capacity (c : Nat) : Nat := perPage c * if c = 0 then 64 else 100

theorem perPage_pos (bound : c < 9) : 0 < perPage c := by
  interval_cases c <;> decide

theorem perPage_mul_classSize (bound : c < 9) : perPage c * classSize c = 4096 := by
  interval_cases c <;> decide

theorem capacity_le (bound : c < 9) : capacity c ≤ 32768 := by
  interval_cases c <;> decide

namespace Kernel

variable {b : Bool} {c' : Int} {f : Field}

/-- Bit `z` of the bitmap of a class. -/
def slotBit (k : Kernel) (c : Int) (z : Nat) : Bool := (k.mem (k.ptr c .bitmap + z / 8)).getLsbD (z % 8)

/-- The bits that are set in the bitmap of a class. -/
def slots (k : Kernel) (c : Int) : Finset Nat := (Finset.range 32768).filter fun z => k.slotBit c z = true

variable {k k' : Kernel} {c : Int} {z : Nat}

theorem mem_slots : z ∈ k.slots c ↔ z < 32768 ∧ k.slotBit c z = true := by
  simp only [slots, Finset.mem_filter, Finset.mem_range]

theorem slotBit_of_notMem (bound : z < 32768) (free : z ∉ k.slots c) : k.slotBit c z = false := by
  rw [mem_slots] at free
  simpa [bound] using free

theorem card_slots_le : (k.slots c).card ≤ 32768 :=
  (Finset.card_filter_le _ _).trans (by rw [Finset.card_range])

theorem bitmapAt_natCast (j : Nat) : k.bitmapAt c j = (k.mem (k.ptr c .bitmap + j)).signExtend 32 := rfl

theorem getBit_bitmapAt {j i : Nat} (bound : i < 8) :
    getBit (k.bitmapAt c j) i = k.slotBit c (8 * j + i) := by
  have row : (8 * j + i) / 8 = j := by omega
  have column : (8 * j + i) % 8 = i := by omega
  rw [bitmapAt_natCast, getBit_signExtend bound, slotBit, row, column]

/-- The bitmap of a class is a matter of one page of memory. -/
theorem slots_congr (pointer : k'.ptr c .bitmap = k.ptr c .bitmap)
    (same : ∀ a, k.ptr c .bitmap ≤ a → a < k.ptr c .bitmap + 4096 → k'.mem a = k.mem a) :
    k'.slots c = k.slots c := by
  ext z
  simp only [mem_slots, slotBit, pointer]
  refine and_congr_right fun bound => ?_
  rw [same _ (by omega) (by omega)]

/-- The state after bit `z` of a class was given the value `b`. -/
def writeBit (k : Kernel) (c : Int) (z : Nat) (b : Bool) : Kernel :=
  k.setBitmapAt c (z / 8 : Nat) (if b then setBit (k.bitmapAt c (z / 8 : Nat)) (z % 8)
    else clearBit (k.bitmapAt c (z / 8 : Nat)) (z % 8))

theorem writeBit_mem_of_ne {a : Nat} (different : a ≠ k.ptr c .bitmap + z / 8) :
    (k.writeBit c z b).mem a = k.mem a := by
  have address : (k.ptr c .bitmap + (z / 8 : Nat) : Int).toNat = k.ptr c .bitmap + z / 8 := by omega
  simp only [writeBit, setBitmapAt, mem_withMem, address]
  rw [Function.update_of_ne different]

@[simp] theorem field_writeBit :
    (k.writeBit c z b).field c' f = k.field c' f := rfl

@[simp] theorem int_writeBit :
    (k.writeBit c z b).int c' f = k.int c' f := rfl

@[simp] theorem ptr_writeBit :
    (k.writeBit c z b).ptr c' f = k.ptr c' f := rfl

@[simp] theorem holder_writeBit : (k.writeBit c z b).holder = k.holder := rfl

@[simp] theorem freelist_writeBit : (k.writeBit c z b).freelist = k.freelist := rfl

@[simp] theorem kend_writeBit : (k.writeBit c z b).kend = k.kend := rfl

theorem slotBit_writeBit (y : Nat) :
    (k.writeBit c z b).slotBit c y = if y = z then b else k.slotBit c y := by
  have address : (k.ptr c .bitmap + (z / 8 : Nat) : Int).toNat = k.ptr c .bitmap + z / 8 := by omega
  by_cases row : y / 8 = z / 8
  · have column : y % 8 = z % 8 ↔ y = z := by omega
    have here : (k.writeBit c z b).mem (k.ptr c .bitmap + z / 8) =
        (if b then setBit (k.bitmapAt c (z / 8 : Nat)) (z % 8)
          else clearBit (k.bitmapAt c (z / 8 : Nat)) (z % 8)).setWidth 8 := by
      simp only [writeBit, setBitmapAt, mem_withMem, address, Function.update_self]
    simp only [slotBit, ptr_writeBit, row, here, bitmapAt_natCast]
    cases b
    · simp only [Bool.false_eq_true, if_false, clearBit_byte _ (Nat.mod_lt z (by decide : 0 < 8))
        (Nat.mod_lt y (by decide : 0 < 8)), column]
      by_cases same : y = z <;> simp [same]
    · simp only [if_true, setBit_byte _ (Nat.mod_lt z (by decide : 0 < 8))
        (Nat.mod_lt y (by decide : 0 < 8)), column]
      by_cases same : y = z <;> simp [same]
  · have different : y ≠ z := fun same => row (by rw [same])
    simp only [slotBit, ptr_writeBit, if_neg different]
    rw [writeBit_mem_of_ne (by omega)]

theorem slots_writeBit_true (bound : z < 32768) : (k.writeBit c z true).slots c = insert z (k.slots c) := by
  ext y
  simp only [mem_slots, Finset.mem_insert, slotBit_writeBit]
  by_cases same : y = z <;> simp [same, bound]

theorem slots_writeBit_false : (k.writeBit c z false).slots c = (k.slots c).erase z := by
  ext y
  simp only [mem_slots, Finset.mem_erase, slotBit_writeBit]
  by_cases same : y = z <;> simp [same]

end Kernel

variable {k : Kernel} {slabIdx : Int} {z : Nat}

theorem LowestFree.first_free (lowest : LowestFree (k.slots slabIdx) z) (bound : z < 32768) :
    First (fun y => k.slotBit slabIdx y = false) 32768 z := by
  refine ⟨bound, Kernel.slotBit_of_notMem bound lowest.1, fun y before => ?_⟩
  simp [(Kernel.mem_slots.1 (lowest.2 y before)).2]

theorem cell_slotBit (y : Nat) : getBit (k.bitmapAt slabIdx (y / 8 : Nat)) (y % 8) = k.slotBit slabIdx y := by
  rw [Kernel.getBit_bitmapAt (Nat.mod_lt y (by decide)), Nat.div_add_mod]

/-- `setBitmap` takes the lowest free slot. -/
theorem setBitmap_spec (lowest : LowestFree (k.slots slabIdx) z) (bound : z < 32768) :
    setBitmap k slabIdx = (k.writeBit slabIdx z true, (z : Int)) := by
  have first := LowestFree.first_free lowest bound
  have found : (cells pgsize 8).find? (fun x =>
      k.bitmapAt slabIdx x.1 != 0xFF && !getBit (k.bitmapAt slabIdx x.1) x.2) = some (z / 8, z % 8) := by
    apply find_cells (by decide)
    obtain ⟨inside, free, before⟩ := first
    refine ⟨by simpa only [pgsize] using inside, ?_, fun y lower => ?_⟩
    · have signed : k.bitmapAt slabIdx (z / 8 : Nat) ≠ 0xFF := signExtend_ne_0xFF _
      simp only [cell_slotBit, free, Bool.not_false, Bool.and_true, bne_iff_ne]
      exact signed
    · have set := before y lower
      simp only [Bool.not_eq_false] at set
      simp only [cell_slotBit, set, Bool.not_true, Bool.and_false, Bool.false_eq_true, not_false_eq_true]
  unfold setBitmap
  rw [found]
  have offset : returnOffset (z / 8 : Nat) (z % 8 : Nat) = z := by
    simp only [returnOffset]
    omega
  simp only [Kernel.writeBit, if_true, offset]

theorem clearBitmap_spec (k : Kernel) (slabIdx : Int) (bound : z < 32768) :
    clearBitmap k slabIdx z =
      if z ∈ k.slots slabIdx then (k.writeBit slabIdx z false, true) else (k, false) := by
  have row : getRow z = (z / 8 : Nat) := by
    rw [getRow, Int.tdiv_eq_ediv_of_nonneg (by omega)]
    omega
  have column : (getColumn z).toNat = z % 8 := by
    rw [getColumn, Int.tmod_eq_emod_of_nonneg (by omega)]
    omega
  simp only [clearBitmap, row, column, cell_slotBit, Kernel.mem_slots, bound, true_and]
  split <;> rfl

theorem mem_upTo {lo hi i : Int} : i ∈ upTo lo hi ↔ lo ≤ i ∧ i ≤ hi := by
  simp only [upTo, List.mem_map, List.mem_range]
  constructor
  · rintro ⟨n, below, rfl⟩
    omega
  · intro inside
    exact ⟨(i - lo).toNat, by omega, by omega⟩

theorem checkEmpty_iff {startOffset endOffset : Int} : checkEmpty k startOffset endOffset slabIdx = true ↔
    ∀ i, getRow startOffset ≤ i → i ≤ getRow endOffset →
      ∀ j, getColumn startOffset ≤ j → j ≤ getColumn endOffset →
        getBit (k.bitmapAt slabIdx i) j.toNat = false := by
  simp only [checkEmpty, Bool.not_eq_true', List.any_eq_false, Bool.not_eq_true, mem_upTo, and_imp]

/-- On the bits of one page of a class `checkEmpty` says whether none is set.
Its loops keep the first and the last column fixed over all rows, which
is right here because a page is a part of one row or a number of whole rows. -/
theorem checkEmpty_spec (k : Kernel) (slabIdx : Int) (p : Nat) (bound : c < 9) :
    checkEmpty k (p * perPage c : Nat) ((p * perPage c : Nat) + perPage c - 1 : Int) slabIdx = true ↔
      ∀ z, z / perPage c = p → k.slotBit slabIdx z = false := by
  have positive := perPage_pos bound
  have width : perPage c = 2 ∨ perPage c = 4 ∨ ∃ m, 0 < m ∧ perPage c = 8 * m := by
    interval_cases c
    · exact .inr (.inr ⟨64, by decide⟩)
    · exact .inr (.inr ⟨32, by decide⟩)
    · exact .inr (.inr ⟨16, by decide⟩)
    · exact .inr (.inr ⟨8, by decide⟩)
    · exact .inr (.inr ⟨4, by decide⟩)
    · exact .inr (.inr ⟨2, by decide⟩)
    · exact .inr (.inr ⟨1, by decide⟩)
    · exact .inr (.inl (by decide))
    · exact .inl (by decide)
  rw [checkEmpty_iff, getRow, getRow, getColumn, getColumn, Int.tdiv_eq_ediv_of_nonneg (by omega),
    Int.tdiv_eq_ediv_of_nonneg (by omega), Int.tmod_eq_emod_of_nonneg (by omega),
    Int.tmod_eq_emod_of_nonneg (by omega)]
  generalize perPage c = w at positive width ⊢
  have shape : ∀ z : Nat, z / w = p ↔
      ((p * w : Nat) : Int) / 8 ≤ (z / 8 : Nat) ∧ ((z / 8 : Nat) : Int) ≤ ((p * w : Nat) + w - 1 : Int) / 8 ∧
        ((p * w : Nat) : Int) % 8 ≤ (z % 8 : Nat) ∧ ((z % 8 : Nat) : Int) ≤ ((p * w : Nat) + w - 1 : Int) % 8 := by
    intro z
    have inPage : z / w = p ↔ p * w ≤ z ∧ z < p * w + w := by
      rw [Nat.div_eq_iff positive]
      constructor <;> intro h <;> constructor <;> omega
    rw [inPage]
    rcases width with rfl | rfl | ⟨m, _, rfl⟩
    · omega
    · omega
    · have start : p * (8 * m) = 8 * (p * m) := by ring
      rw [start]
      omega
  constructor
  · intro clear z inside
    obtain ⟨rowLow, rowHigh, columnLow, columnHigh⟩ := (shape z).1 inside
    rw [← cell_slotBit]
    exact clear _ rowLow rowHigh (z % 8 : Nat) columnLow columnHigh
  · intro clear i rowLow rowHigh j columnLow columnHigh
    have row : (i.toNat : Int) = i := by omega
    have column : (j.toNat : Int) = j := by omega
    have position : (8 * i.toNat + j.toNat) / 8 = i.toNat := by omega
    have position' : (8 * i.toNat + j.toNat) % 8 = j.toNat := by omega
    rw [← row, Kernel.getBit_bitmapAt (by omega)]
    apply clear
    rw [shape, position, position', row, column]
    exact ⟨rowLow, rowHigh, columnLow, columnHigh⟩

end MiniOS
