import MiniOS.Slab.Pages

namespace MiniOS

open Lib

variable {k : Kernel} {c z a b : Nat} {d : Int} {f : Field}

/-- The page that holds slots `p * perPage c` and up. The code counts the
entries of `page` from 1. -/
def pagePtr (k : Kernel) (c p : Nat) : Nat := k.ptr c (.page (p + 1))

/-- Where the object with a given bit lies. -/
def objAddr (k : Kernel) (c z : Nat) : Nat := pagePtr k c (z / perPage c) + z % perPage c * classSize c

/-- The lowest free slot of class `c` lies in a page that has to be fetched. -/
def Opens (k : Kernel) (c z : Nat) : Prop := ¬PageInUse (perPage c) (k.slots c) (z / perPage c)

instance (k : Kernel) (c z : Nat) : Decidable (Opens k c z) := inferInstanceAs (Decidable (¬_))

/-- Everything the locked part of `kmalloc` does when it takes slot `z` of
class `c` and answers `p`. -/
structure Allocated (k k' : Kernel) (c z : Nat) (size : Int) (p : Nat) : Prop where
  slots : k'.slots c = insert z (k.slots c)
  frame : ∀ (d : Int) (f : Field), f.word d ≠ Field.numPages.word c → f.word d ≠ Field.numFreeObjects.word c →
    f.word d ≠ Field.numUsedObjects.word c →
    (Opens k c z → f.word d ≠ (Field.page ((z / perPage c : Nat) + 1)).word c) → k'.field d f = k.field d f
  numPages : k'.int c .numPages = pagesInUse (perPage c) (insert z (k.slots c))
  numFree : k'.int c .numFreeObjects = k.int c .numFreeObjects - 1
  numUsed : k'.int c .numUsedObjects = k.int c .numUsedObjects + 1
  opened : Opens k c z → pagePtr k' c (z / perPage c) = k.freelist ∧
    k'.holder = if k.freelist = 0 then k.holder else Function.update k.holder k.freelist (some (.objectsOf c))
  kept : ¬Opens k c z → k'.holder = k.holder
  freelist : k'.freelist = if Opens k c z then (kalloc (.objectsOf c) k).1.freelist else k.freelist
  kend : k'.kend = k.kend
  addr : p = objAddr k' c z
  mem : ∀ a, a ≠ k.ptr c .bitmap + z / 8 → (a < p ∨ p + size.toNat ≤ a) → k'.mem a = k.mem a

/-- The page that slot `z` will lie in. -/
def targetPage (k : Kernel) (c z : Nat) : Nat := if Opens k c z then k.freelist else pagePtr k c (z / perPage c)

/-- What `kmalloc` relies on when it marks slot `z` of class `c`. The slot may lie one page
behind the last one of the class. -/
structure Marks (k : Kernel) (c z : Nat) : Prop where
  bound : c < 9
  width : k.int c .numObjectsPerPage = perPage c
  size : k.int c .size = classSize c
  lowest : LowestFree (k.slots c) z
  inside : z < 101 * perPage c ∧ z < 32768
  used : k.int c .numUsedObjects = (k.slots c).card
  free : 0 ≤ k.int c .numFreeObjects ∧ k.int c .numFreeObjects ≤ 100000
  room : targetPage k c z + 4096 ≤ 2 ^ 32
  separate : targetPage k c z + 4096 ≤ k.ptr c .bitmap ∨ k.ptr c .bitmap + 4096 ≤ targetPage k c z

/-- What it relies on when the slot is one of the class. -/
structure Takes (k : Kernel) (c z : Nat) : Prop extends Marks k c z where
  within : z < 100 * perPage c

theorem Takes.page_lt (takes : Takes k c z) : z / perPage c < 100 := by
  rw [Nat.div_lt_iff_lt_mul (perPage_pos takes.bound)]
  exact takes.within

theorem kalloc_field (h : Holder) (k : Kernel) (d : Int) (f : Field) : (kalloc h k).1.field d f = k.field d f := by
  simp only [kalloc]
  split <;> rfl

theorem kalloc_mem (h : Holder) (k : Kernel) : (kalloc h k).1.mem = k.mem := by
  simp only [kalloc]
  split <;> rfl

theorem kalloc_kend (h : Holder) (k : Kernel) : (kalloc h k).1.kend = k.kend := by
  simp only [kalloc]
  split <;> rfl

theorem kalloc_holder (h : Holder) (k : Kernel) : (kalloc h k).1.holder =
    if k.freelist = 0 then k.holder else Function.update k.holder k.freelist (some h) := by
  simp only [kalloc]
  split <;> rfl

theorem kalloc_snd (h : Holder) (k : Kernel) : (kalloc h k).2 = k.freelist := by
  simp only [kalloc]
  split
  · rename_i empty
    exact empty.symm
  · rfl

/-- The state after `openPage`. -/
def opened (k : Kernel) (c z : Nat) : Kernel :=
  if Opens k c z then
    (kalloc (.objectsOf c) k).1.setPtr c (.page ((z / perPage c : Nat) + 1)) k.freelist
  else k

theorem opened_field (apart : Opens k c z → f.word d ≠ (Field.page ((z / perPage c : Nat) + 1)).word c) :
    (opened k c z).field d f = k.field d f := by
  unfold opened
  split
  · rename_i opens
    rw [Kernel.setPtr, Kernel.field_setField_ne (apart opens), kalloc_field]
  · rfl

theorem opened_mem (k : Kernel) (c z : Nat) : (opened k c z).mem = k.mem := by
  unfold opened
  split
  · exact kalloc_mem _ _
  · rfl

theorem opened_kend (k : Kernel) (c z : Nat) : (opened k c z).kend = k.kend := by
  unfold opened
  split
  · exact kalloc_kend _ _
  · rfl

theorem own_word_ne {c : Int} {f' : Field} (different : f.offset ≠ f'.offset) : f.word c ≠ f'.word c := by
  simp only [Field.word]
  omega

/-- A member of the class's own descriptor other than `page` survives the
store of the new page. -/
theorem opened_own (low : 0 ≤ f.offset) (high : f.offset < 6) :
    (opened k c z).field c f = k.field c f := by
  refine opened_field fun _ => own_word_ne ?_
  generalize z / perPage c = p
  change f.offset ≠ 6 + ((p : Int) + 1)
  omega

theorem cdiv_natCast (positive : 0 < b) : cdiv a b = .ok ((a / b : Nat) : Int) := by
  rw [cdiv, if_neg (by omega), Int.tdiv_eq_ediv_of_nonneg (by omega), Int.natCast_ediv]

theorem cmod_natCast (positive : 0 < b) : cmod a b = .ok ((a % b : Nat) : Int) := by
  rw [cmod, if_neg (by omega), Int.tmod_eq_emod_of_nonneg (by omega), Int.natCast_emod]

/-- `kmalloc` asks for a page exactly when the lowest free slot opens one,
which only happens in a class that already has objects. -/
theorem newPageIndex_eq (bound : c < 9) (width : k.int c .numObjectsPerPage = perPage c)
    (used : k.int c .numUsedObjects = (k.slots c).card) (lowest : LowestFree (k.slots c) z) (inside : z < 32768) :
    newPageIndex k c = .ok (if Opens k c z then some (((z / perPage c : Nat) : Int) + 1) else none) := by
  have positive := perPage_pos bound
  simp only [newPageIndex, checkNewpage_spec bound width lowest inside, width, ok_bind, pure_eq_ok]
  by_cases opens : Opens k c z
  · have nonzero := ((lowest.not_pageInUse_iff positive).1 opens).1
    have some := Finset.card_pos.2 ⟨0, lowest.2 0 (Nat.pos_of_ne_zero nonzero)⟩
    have unused : ¬PageInUse (perPage c) (k.slots c) (z / perPage c) := opens
    rw [if_pos opens, if_neg unused, if_pos ⟨by omega, by omega⟩, cdiv_natCast positive]
    rfl
  · have inUse : PageInUse (perPage c) (k.slots c) (z / perPage c) := not_not.1 opens
    rw [if_neg opens, if_pos inUse]
    simp

theorem openPage_eq (bound : c < 9) (width : k.int c .numObjectsPerPage = perPage c)
    (used : k.int c .numUsedObjects = (k.slots c).card) (lowest : LowestFree (k.slots c) z) (inside : z < 32768) :
    openPage k c = .ok (opened k c z) := by
  simp only [openPage, newPageIndex_eq bound width used lowest inside, ok_bind]
  by_cases opens : Opens k c z
  · simp only [opens, if_true, opened, pure_eq_ok]
    rw [← kalloc_snd (.objectsOf c) k]
  · simp only [opens, if_false, opened, pure_eq_ok]

namespace Marks

variable {k : Kernel} {c z : Nat} (marks : Marks k c z)

include marks

theorem page_lt : z / perPage c < 101 := by
  rw [Nat.div_lt_iff_lt_mul (perPage_pos marks.bound)]
  exact marks.inside.1

theorem openPage_eq : openPage k c = .ok (opened k c z) :=
  MiniOS.openPage_eq marks.bound marks.width marks.used marks.lowest marks.inside.2

theorem opened_bitmap (d : Int) : (opened k c z).field d .bitmap = k.field d .bitmap := by
  have index := marks.page_lt
  refine opened_field fun _ => ?_
  generalize z / perPage c = p at index ⊢
  simp only [Field.word, Field.offset, slabWords]
  omega

theorem opened_slots (d : Int) : (opened k c z).slots d = k.slots d :=
  Kernel.slots_congr (Kernel.ptr_eq_of_field (marks.opened_bitmap d)) fun a _ _ => by rw [opened_mem]

theorem opened_page : pagePtr (opened k c z) c (z / perPage c) = targetPage k c z := by
  have room := marks.room
  unfold opened targetPage at *
  split
  · rename_i opens
    rw [if_pos opens] at room
    rw [pagePtr, Kernel.ptr_setPtr_same]
    omega
  · rfl

end Marks

/-- The state after the slot was marked and counted. -/
def marked (k : Kernel) (c z : Nat) : Kernel :=
  countAlloc ((opened k c z).writeBit c z true) c (pagesInUse (perPage c) (insert z (k.slots c)))

theorem countAlloc_field {c : Int} {pages : Int}
    (h₁ : f.word d ≠ Field.numPages.word c) (h₂ : f.word d ≠ Field.numFreeObjects.word c)
    (h₃ : f.word d ≠ Field.numUsedObjects.word c) : (countAlloc k c pages).field d f = k.field d f := by
  simp only [countAlloc, Kernel.setInt]
  rw [Kernel.field_setField_ne h₃, Kernel.field_setField_ne h₂, Kernel.field_setField_ne h₁]

theorem marked_field (h₁ : f.word d ≠ Field.numPages.word c)
    (h₂ : f.word d ≠ Field.numFreeObjects.word c) (h₃ : f.word d ≠ Field.numUsedObjects.word c)
    (h₄ : Opens k c z → f.word d ≠ (Field.page ((z / perPage c : Nat) + 1)).word c) :
    (marked k c z).field d f = k.field d f := by
  rw [marked, countAlloc_field h₁ h₂ h₃, Kernel.field_writeBit, opened_field h₄]

theorem marked_page (k : Kernel) (c z : Nat) :
    pagePtr (marked k c z) c (z / perPage c) = pagePtr (opened k c z) c (z / perPage c) := by
  refine Kernel.ptr_eq_of_field ?_
  generalize z / perPage c = p
  rw [marked, countAlloc_field, Kernel.field_writeBit] <;>
    · refine own_word_ne ?_
      simp only [Field.offset]
      omega

namespace Marks

variable {k : Kernel} {c z : Nat} (marks : Marks k c z)

include marks

theorem marked_width : (marked k c z).int c .numObjectsPerPage = perPage c := by
  rw [← marks.width]
  refine Kernel.int_eq_of_field (marked_field ?_ ?_ ?_ fun _ => ?_) <;>
    · refine own_word_ne ?_
      generalize z / perPage c = p
      simp only [Field.offset]
      omega

theorem slots_bits : ((opened k c z).writeBit c z true).slots c = insert z (k.slots c) := by
  rw [Kernel.slots_writeBit_true marks.inside.2, marks.opened_slots]

theorem counted :
    (marked k c z).int c .numPages = pagesInUse (perPage c) (insert z (k.slots c)) ∧
    (marked k c z).int c .numFreeObjects = k.int c .numFreeObjects - 1 ∧
    (marked k c z).int c .numUsedObjects = k.int c .numUsedObjects + 1 := by
  have slots : (k.slots c).card ≤ 32768 := Kernel.card_slots_le
  have few : pagesInUse (perPage c) (insert z (k.slots c)) ≤ 32769 := by
    rw [marks.lowest.pagesInUse_insert]
    have image : (occupiedPages (perPage c) (insert z (k.slots c))).card ≤ (insert z (k.slots c)).card :=
      Finset.card_image_le
    have inserted := Finset.card_insert_le z (k.slots c)
    omega
  have used := marks.used
  have free := marks.free
  have own : ∀ f : Field, 0 ≤ f.offset → f.offset < 6 →
      ((opened k c z).writeBit c z true).int c f = k.int c f := by
    intro f low high
    exact Kernel.int_eq_of_field (opened_own low high)
  have ownFree := own .numFreeObjects (by simp [Field.offset]) (by simp [Field.offset])
  have ownUsed := own .numUsedObjects (by simp [Field.offset]) (by simp [Field.offset])
  have apart₁ : Field.numPages.word c ≠ Field.numFreeObjects.word c := own_word_ne (by simp [Field.offset])
  have apart₂ : Field.numPages.word c ≠ Field.numUsedObjects.word c := own_word_ne (by simp [Field.offset])
  have apart₃ : Field.numFreeObjects.word c ≠ Field.numUsedObjects.word c := own_word_ne (by simp [Field.offset])
  simp only [marked, countAlloc]
  refine ⟨?_, ?_, ?_⟩
  · rw [Kernel.int_setInt_ne apart₂, Kernel.int_setInt_ne apart₁, Kernel.int_setInt_same (by omega) (by omega)]
  · rw [Kernel.int_setInt_ne apart₃, Kernel.int_setInt_ne apart₁.symm, ownFree,
      Kernel.int_setInt_same (by omega) (by omega)]
  · rw [Kernel.int_setInt_ne apart₃.symm, Kernel.int_setInt_ne apart₂.symm, ownUsed,
      Kernel.int_setInt_same (by omega) (by omega)]

theorem slotAddr_eq : slotAddr (marked k c z) c z = .ok (objAddr (marked k c z) c z) := by
  have positive := perPage_pos marks.bound
  have room := marks.room
  have inPage : z % perPage c * classSize c + classSize c ≤ 4096 := by
    rw [← perPage_mul_classSize marks.bound, ← Nat.succ_mul]
    exact Nat.mul_le_mul_right _ (Nat.mod_lt z positive)
  have size : (1 <<< ((c : Int) + 3).toNat : Nat) = classSize c := by
    rw [Nat.one_shiftLeft, classSize]
    rfl
  have offset : (((z % perPage c : Nat) : Int) * (classSize c : Nat)).toNat = z % perPage c * classSize c := by
    rw [← Nat.cast_mul, Int.toNat_natCast]
  have whole : pagePtr (marked k c z) c (z / perPage c) + z % perPage c * classSize c < 2 ^ 32 := by
    have nonempty : 0 < classSize c := Nat.pow_pos (by decide)
    rw [marked_page, marks.opened_page]
    omega
  simp only [slotAddr, nowpage, marks.marked_width, cdiv_natCast positive, cmod_natCast positive, ok_bind,
    pure_eq_ok, size, offset]
  exact congrArg _ (Nat.mod_eq_of_lt whole)

theorem kmallocLocked_eq (size : Int) : kmallocLocked k c size =
    .ok ((marked k c z).withMem (memset (marked k c z).mem (objAddr (marked k c z) c z) 0 size.toNat),
      objAddr (marked k c z) c z) := by
  have lowest : LowestFree ((opened k c z).slots c) z := by
    rw [marks.opened_slots]
    exact marks.lowest
  have intact : ((opened k c z).writeBit c z true).int c .size = classSize c := by
    rw [← marks.size]
    exact Kernel.int_eq_of_field (opened_own (by simp [Field.offset]) (by simp [Field.offset]))
  simp only [kmallocLocked, marks.openPage_eq, ok_bind, setBitmap_spec lowest marks.inside.2,
    getpageNum_spec marks.bound intact, marks.slots_bits, ← marks.lowest.pagesInUse_insert, pure_eq_ok]
  change (slotAddr (marked k c z) c z >>= fun p => Except.ok ((marked k c z).withMem
    (memset (marked k c z).mem p 0 size.toNat), p)) = _
  rw [marks.slotAddr_eq, ok_bind]

theorem objAddr_eq : objAddr (marked k c z) c z = targetPage k c z + z % perPage c * classSize c := by
  rw [objAddr, marked_page, marks.opened_page]

/-- The locked part of `kmalloc` returns, and does exactly what `Allocated` says. -/
theorem kmallocLocked_spec {size : Int} (fits : size ≤ classSize c) :
    ∃ k' p, kmallocLocked k c size = .ok (k', p) ∧ Allocated k k' c z size p := by
  have position := marks.objAddr_eq
  have inPage : z % perPage c * classSize c + classSize c ≤ 4096 := by
    rw [← perPage_mul_classSize marks.bound, ← Nat.succ_mul]
    exact Nat.mul_le_mul_right _ (Nat.mod_lt z (perPage_pos marks.bound))
  have bitmap : (marked k c z).ptr c .bitmap = k.ptr c .bitmap := by
    refine Kernel.ptr_eq_of_field (marked_field ?_ ?_ ?_ fun _ => ?_) <;>
      · refine own_word_ne ?_
        generalize z / perPage c = p
        simp only [Field.offset]
        omega
  refine ⟨_, _, marks.kmallocLocked_eq size, ?_⟩
  exact {
    slots := by
      have written : (marked k c z).slots c = insert z (k.slots c) := by
        rw [← marks.slots_bits]
        exact Kernel.slots_congr (bitmap.trans (Kernel.ptr_eq_of_field (marks.opened_bitmap c)).symm)
          fun a _ _ => rfl
      rw [← written]
      refine Kernel.slots_congr rfl fun a low high => ?_
      rw [bitmap] at low high
      have separate := marks.separate
      rw [Kernel.mem_withMem, memset_of_not_mem (by omega)]
    frame := fun d f h₁ h₂ h₃ h₄ => marked_field h₁ h₂ h₃ h₄
    numPages := marks.counted.1
    numFree := marks.counted.2.1
    numUsed := marks.counted.2.2
    opened := by
      intro opens
      refine ⟨?_, ?_⟩
      · have page := (marked_page k c z).trans marks.opened_page
        rw [targetPage, if_pos opens] at page
        exact page
      · rw [← kalloc_holder, Kernel.holder_withMem]
        simp only [marked, countAlloc, Kernel.setInt, Kernel.holder_setField, Kernel.holder_writeBit, opened,
          if_pos opens, Kernel.setPtr]
    kept := by
      intro kept
      simp only [Kernel.holder_withMem, marked, countAlloc, Kernel.setInt, Kernel.holder_setField,
        Kernel.holder_writeBit, opened, if_neg kept]
    freelist := by
      change (opened k c z).freelist = _
      unfold opened
      split <;> rfl
    kend := opened_kend k c z
    addr := rfl
    mem := by
      intro a notByte outside
      rw [Kernel.mem_withMem, memset_of_not_mem outside]
      have address : k.ptr c .bitmap + z / 8 = (opened k c z).ptr c .bitmap + z / 8 :=
        congrArg (· + z / 8) (Kernel.ptr_eq_of_field (marks.opened_bitmap c)).symm
      rw [address] at notByte
      exact (Kernel.writeBit_mem_of_ne notByte).trans (congrFun (opened_mem k c z) a) }

end Marks

end MiniOS
