import Mathlib.Tactic.IntervalCases
import MiniOS.Slab.Code

namespace MiniOS

variable {i j : Nat}

namespace Kernel

variable (k k' : Kernel) (mem : Nat → BitVec 8) (c c' : Int) (f f' : Field) (v : BitVec 32)

@[simp] theorem field_withMem : (k.withMem mem).field c f = k.field c f := rfl
@[simp] theorem int_withMem : (k.withMem mem).int c f = k.int c f := rfl
@[simp] theorem ptr_withMem : (k.withMem mem).ptr c f = k.ptr c f := rfl
@[simp] theorem mem_withMem : (k.withMem mem).mem = mem := rfl
@[simp] theorem holder_withMem : (k.withMem mem).holder = k.holder := rfl
@[simp] theorem freelist_withMem : (k.withMem mem).freelist = k.freelist := rfl
@[simp] theorem kend_withMem : (k.withMem mem).kend = k.kend := rfl
@[simp] theorem mem_setField : (k.setField c f v).mem = k.mem := rfl
@[simp] theorem holder_setField : (k.setField c f v).holder = k.holder := rfl
@[simp] theorem freelist_setField : (k.setField c f v).freelist = k.freelist := rfl
@[simp] theorem kend_setField : (k.setField c f v).kend = k.kend := rfl

theorem field_setField :
    (k.setField c f v).field c' f' = if f'.word c' = f.word c then v else k.field c' f' := by
  simp only [field, setField, Function.update_apply]

@[simp] theorem field_setField_same : (k.setField c f v).field c f = v := by
  rw [field_setField, if_pos rfl]

@[simp] theorem ptr_setPtr_same (v : Nat) : (k.setPtr c f v).ptr c f = v % 2 ^ 32 := by
  rw [ptr, setPtr, field_setField_same, BitVec.toNat_ofNat]

variable {k k' c c' f f' v}

theorem field_setField_ne (apart : f'.word c' ≠ f.word c) :
    (k.setField c f v).field c' f' = k.field c' f' := by
  rw [field_setField, if_neg apart]

theorem int_setInt_same {v : Int} (low : -2 ^ 31 ≤ v) (high : v < 2 ^ 31) : (k.setInt c f v).int c f = v := by
  rw [int, setInt, field_setField_same, BitVec.toInt_ofInt]
  exact Int.bmod_eq_of_le (by omega) (by omega)

theorem int_setInt_ne {v : Int} (apart : f'.word c' ≠ f.word c) : (k.setInt c f v).int c' f' = k.int c' f' := by
  rw [int, setInt, field_setField_ne apart, int]

theorem ptr_eq_of_field (same : k'.field c' f' = k.field c f) : k'.ptr c' f' = k.ptr c f := by
  rw [ptr, same, ptr]

theorem int_eq_of_field (same : k'.field c' f' = k.field c f) : k'.int c' f' = k.int c f := by
  rw [int, same, int]

end Kernel

/-- Words of different descriptors, or at different places of one descriptor,
are different, as long as an index into `page` stays within the array. -/
theorem Field.word_ne {c c' : Int} {f f' : Field} (different : c' ≠ c ∨ f'.offset ≠ f.offset)
    (inside : 0 ≤ f.offset ∧ f.offset < 106) (inside' : 0 ≤ f'.offset ∧ f'.offset < 106) :
    f'.word c' ≠ f.word c := by
  simp only [Field.word, slabWords]
  omega

theorem getBit_eq {num : BitVec 32} (bound : i < 32) : getBit num i = num.getLsbD i := by
  have power : (1#32 <<< i) = BitVec.twoPow 32 i := (BitVec.twoPow_eq 32 i).symm
  simp only [getBit, power, BitVec.and_twoPow]
  by_cases bit : num.getLsbD i
  · have nonzero : BitVec.twoPow 32 i ≠ 0#32 := by
      intro zero
      have := congrArg (·.getLsbD i) zero
      simp [bound] at this
    simp [bit, nonzero]
  · simp [bit]

theorem getBit_signExtend {b : BitVec 8} (bound : i < 8) :
    getBit (b.signExtend 32) i = b.getLsbD i := by
  rw [getBit_eq (by omega), BitVec.getLsbD_signExtend]
  simp [bound, show i < 32 by omega]

/-- The byte that `setBit` leaves behind when its result is stored in a `char`. -/
theorem setBit_byte (b : BitVec 8) (bound : i < 8) (bound' : j < 8) :
    ((setBit (b.signExtend 32) i).setWidth 8).getLsbD j = (b.getLsbD j || decide (j = i)) := by
  have power : (1#32 <<< i) = BitVec.twoPow 32 i := (BitVec.twoPow_eq 32 i).symm
  simp only [setBit, power, BitVec.getLsbD_setWidth, BitVec.getLsbD_or, BitVec.getLsbD_signExtend,
    BitVec.getLsbD_twoPow]
  simp [bound', show j < 32 by omega, show i < 32 by omega, eq_comm]

theorem clearBit_byte (b : BitVec 8) (bound : i < 8) (bound' : j < 8) :
    ((clearBit (b.signExtend 32) i).setWidth 8).getLsbD j = (b.getLsbD j && !decide (j = i)) := by
  have power : (1#32 <<< i) = BitVec.twoPow 32 i := (BitVec.twoPow_eq 32 i).symm
  simp only [clearBit, power, BitVec.getLsbD_setWidth, BitVec.getLsbD_and, BitVec.getLsbD_signExtend,
    BitVec.getLsbD_not, BitVec.getLsbD_twoPow]
  simp [bound', show j < 32 by omega, show i < 32 by omega, eq_comm]

/-- A signed `char` is never `0xFF`, so the test at the head of `setBitmap`'s
outer loop never skips a row. -/
theorem signExtend_ne_0xFF (b : BitVec 8) : b.signExtend 32 ≠ 0xFF := by
  revert b
  decide

end MiniOS
