import MiniOS.Slab.Malloc

namespace MiniOS

open Lib

/-- Clearing bit `y` leaves page `p` of class `c` without an object, and it
is not the page that a class keeps. -/
def Releases (k : Kernel) (c p y : Nat) : Prop := ¬PageInUse (perPage c) ((k.slots c).erase y) p

instance (k : Kernel) (c p y : Nat) : Decidable (Releases k c p y) := inferInstanceAs (Decidable (¬_))

/-- Everything `kmfree` does when it finds `addr` in page `p` of class `c`
and computes bit `y`. -/
structure Freed (k k' : Kernel) (c p y addr : Nat) : Prop where
  slots : k'.slots c = (k.slots c).erase y
  frame : ∀ (d : Int) (f : Field), f.word d ≠ Field.numPages.word c → f.word d ≠ Field.numFreeObjects.word c →
    f.word d ≠ Field.numUsedObjects.word c → k'.field d f = k.field d f
  cleared : y ∈ k.slots c → k'.int c .numFreeObjects = k.int c .numFreeObjects + 1 ∧
    k'.int c .numUsedObjects = k.int c .numUsedObjects - 1
  repeated : y ∉ k.slots c → k'.int c .numFreeObjects = k.int c .numFreeObjects ∧
    k'.int c .numUsedObjects = k.int c .numUsedObjects
  released : Releases k c p y → k'.int c .numPages = k.int c .numPages - 1 ∧
    k'.holder = Function.update k.holder (pagePtr k c p) none
  kept : ¬Releases k c p y → k'.int c .numPages = k.int c .numPages ∧ k'.holder = k.holder
  kend : k'.kend = k.kend
  mem : ∀ a, a ≠ k.ptr c .bitmap + y / 8 → (a < addr ∨ addr + classSize c ≤ a) →
    (Releases k c p y → a < pagePtr k c p ∨ pagePtr k c p + 4096 ≤ a) → k'.mem a = k.mem a

/-- What `kmfree` relies on. -/
structure Frees (k : Kernel) (c p y addr : Nat) : Prop where
  bound : c < 9
  width : k.int c .numObjectsPerPage = perPage c
  used : k.int c .numUsedObjects = (k.slots c).card
  some : k.int c .numUsedObjects ≠ 0
  free : 0 ≤ k.int c .numFreeObjects ∧ k.int c .numFreeObjects ≤ 100000
  pages : 0 ≤ k.int c .numPages ∧ k.int c .numPages ≤ 100000
  found : findPage k c addr = (p : Int) + 1
  offset : kmfreeOffset k c addr = .ok (y : Int)
  inside : y < 32768
  inPage : y / perPage c = p
  page : Releases k c p y → k.IsPage (pagePtr k c p)
  separate : addr + classSize c ≤ k.ptr c .bitmap ∨ k.ptr c .bitmap + 4096 ≤ addr
  apart : Releases k c p y → pagePtr k c p + 4096 ≤ k.ptr c .bitmap ∨ k.ptr c .bitmap + 4096 ≤ pagePtr k c p

theorem kmfreeIdx_classSize {c : Nat} (bound : c < 9) : kmfreeIdx (classSize c) = c := by
  interval_cases c <;> decide

theorem classSize_mod {c : Nat} (bound : c < 9) : ((classSize c : Int) % 2 ^ 32).toNat = classSize c := by
  interval_cases c <;> decide

/-- The state after the object was overwritten. -/
def scribbled (k : Kernel) (c addr : Nat) : Kernel := k.withMem (memset k.mem addr 1 (classSize c))

theorem countFree_field {k : Kernel} {c d : Int} {f : Field} (h₂ : f.word d ≠ Field.numFreeObjects.word c)
    (h₃ : f.word d ≠ Field.numUsedObjects.word c) : (countFree k c).field d f = k.field d f := by
  simp only [countFree, Kernel.setInt]
  rw [Kernel.field_setField_ne h₃, Kernel.field_setField_ne h₂]

namespace Frees

variable {k : Kernel} {c p y addr : Nat} (frees : Frees k c p y addr)

include frees

theorem scribbled_slots : (scribbled k c addr).slots c = k.slots c := by
  have separate := frees.separate
  refine Kernel.slots_congr rfl fun a low high => ?_
  exact memset_of_not_mem (by omega)

theorem clearSlot_eq : clearSlot (scribbled k c addr) c y =
    if y ∈ k.slots c then countFree ((scribbled k c addr).writeBit c y false) c else scribbled k c addr := by
  simp only [clearSlot, clearBitmap_spec _ _ frees.inside, frees.scribbled_slots]
  split <;> rfl

theorem clearSlot_field {d : Int} {f : Field} (h₂ : f.word d ≠ Field.numFreeObjects.word c)
    (h₃ : f.word d ≠ Field.numUsedObjects.word c) :
    (clearSlot (scribbled k c addr) c y).field d f = k.field d f := by
  rw [frees.clearSlot_eq]
  split
  · rw [countFree_field h₂ h₃, Kernel.field_writeBit]
    rfl
  · rfl

theorem clearSlot_own {f : Field} (h₂ : f.offset ≠ 2) (h₃ : f.offset ≠ 3) :
    (clearSlot (scribbled k c addr) c y).field c f = k.field c f :=
  frees.clearSlot_field (own_word_ne h₂) (own_word_ne h₃)

theorem clearSlot_slots : (clearSlot (scribbled k c addr) c y).slots c = (k.slots c).erase y := by
  rw [frees.clearSlot_eq]
  split
  · rw [← frees.scribbled_slots, ← Kernel.slots_writeBit_false]
    refine Kernel.slots_congr (Kernel.ptr_eq_of_field (countFree_field ?_ ?_)) fun a _ _ => rfl
    · exact own_word_ne (by simp [Field.offset])
    · exact own_word_ne (by simp [Field.offset])
  · rename_i absent
    rw [frees.scribbled_slots, Finset.erase_eq_of_notMem absent]

theorem clearSlot_counts :
    (y ∈ k.slots c → (clearSlot (scribbled k c addr) c y).int c .numFreeObjects = k.int c .numFreeObjects + 1 ∧
      (clearSlot (scribbled k c addr) c y).int c .numUsedObjects = k.int c .numUsedObjects - 1) ∧
    (y ∉ k.slots c → (clearSlot (scribbled k c addr) c y).int c .numFreeObjects = k.int c .numFreeObjects ∧
      (clearSlot (scribbled k c addr) c y).int c .numUsedObjects = k.int c .numUsedObjects) := by
  have slots : (k.slots c).card ≤ 32768 := Kernel.card_slots_le
  have used := frees.used
  have free := frees.free
  have apart : Field.numFreeObjects.word c ≠ Field.numUsedObjects.word c := own_word_ne (by simp [Field.offset])
  rw [frees.clearSlot_eq]
  refine ⟨fun member => ?_, fun absent => ?_⟩
  · simp only [if_pos member, countFree]
    refine ⟨?_, ?_⟩
    · rw [Kernel.int_setInt_ne apart, Kernel.int_writeBit, scribbled, Kernel.int_withMem]
      exact Kernel.int_setInt_same (by omega) (by omega)
    · rw [Kernel.int_setInt_ne apart.symm]
      simp only [Kernel.int_writeBit, scribbled, Kernel.int_withMem]
      exact Kernel.int_setInt_same (by omega) (by omega)
  · rw [if_neg absent]
    exact ⟨rfl, rfl⟩

theorem clearSlot_mem {a : Nat} (notByte : a ≠ k.ptr c .bitmap + y / 8)
    (outside : a < addr ∨ addr + classSize c ≤ a) : (clearSlot (scribbled k c addr) c y).mem a = k.mem a := by
  have kept : (scribbled k c addr).mem a = k.mem a := memset_of_not_mem outside
  rw [frees.clearSlot_eq]
  split
  · exact (Kernel.writeBit_mem_of_ne (k := scribbled k c addr) notByte).trans kept
  · exact kept

theorem clearSlot_holder : (clearSlot (scribbled k c addr) c y).holder = k.holder := by
  rw [frees.clearSlot_eq]
  split <;> rfl

theorem clearSlot_kend : (clearSlot (scribbled k c addr) c y).kend = k.kend := by
  rw [frees.clearSlot_eq]
  split <;> rfl

theorem clearSlot_page : (clearSlot (scribbled k c addr) c y).ptr c (.page ((p : Int) + 1)) = pagePtr k c p :=
  Kernel.ptr_eq_of_field (frees.clearSlot_own (by simp only [Field.offset]; omega)
    (by simp only [Field.offset]; omega))

/-- The test of `kmfree` for an empty page, made after the bit was cleared. -/
theorem release_iff :
    ((p : Int) + 1 ≠ 1 ∧ checkEmpty (clearSlot (scribbled k c addr) c y) (p * perPage c : Nat)
      ((p * perPage c : Nat) + perPage c - 1 : Int) c = true) ↔ Releases k c p y := by
  rw [checkEmpty_spec _ _ _ frees.bound, Releases, PageInUse, not_or, mem_occupiedPages]
  refine and_congr (by omega) ?_
  constructor
  · rintro clear ⟨z, member, same⟩
    have set := clear z same
    rw [← frees.clearSlot_slots, Kernel.mem_slots] at member
    simp [set] at member
  · intro empty z same
    have within : z < 32768 := slot_lt_of_page frees.bound frees.inside (same.trans frees.inPage.symm)
    refine Kernel.slotBit_of_notMem within fun member => empty ⟨z, ?_, same⟩
    rwa [frees.clearSlot_slots] at member

theorem kmfree_eq : kmfree k addr (classSize c) =
    releasePage (clearSlot (scribbled k c addr) c y) c ((p : Int) + 1) := by
  have found : findPage (scribbled k c addr) c addr = (p : Int) + 1 := frees.found
  have offset : kmfreeOffset (scribbled k c addr) c addr = .ok (y : Int) := frees.offset
  simp only [kmfree, kmfreeIdx_classSize frees.bound, classSize_mod frees.bound, if_neg frees.some]
  change (kmfreeOffset (scribbled k c addr) c addr >>= fun offset =>
    releasePage (clearSlot (scribbled k c addr) c offset) c (findPage (scribbled k c addr) c addr)) = _
  rw [offset, ok_bind, found]

/-- The page goes back to `kalloc` when it has no object left. -/
theorem kmfree_release : kmfree k addr (classSize c) = if Releases k c p y then
    kfree (pagePtr k c p) (clearSlot (scribbled k c addr) c y) >>= fun k' =>
      .ok (k'.setInt c .numPages (k'.int c .numPages - 1))
    else .ok (clearSlot (scribbled k c addr) c y) := by
  have width : (clearSlot (scribbled k c addr) c y).int c .numObjectsPerPage = perPage c :=
    (Kernel.int_eq_of_field (frees.clearSlot_own (by simp [Field.offset]) (by simp [Field.offset]))).trans frees.width
  have start : ((p : Int) + 1 - 1) * (perPage c : Int) = ((p * perPage c : Nat) : Int) := by
    push_cast
    ring
  rw [frees.kmfree_eq]
  unfold releasePage
  dsimp only
  rw [width, start, frees.clearSlot_page]
  by_cases release : Releases k c p y
  · rw [if_pos (frees.release_iff.2 release), if_pos release]
    rfl
  · rw [if_neg (mt frees.release_iff.1 release), if_neg release]
    rfl

/-- `kmfree` of a class's own size returns, and does exactly what `Freed` says. -/
theorem kmfree_spec : ∃ k', kmfree k addr (classSize c) = .ok k' ∧ Freed k k' c p y addr := by
  have numPages : (clearSlot (scribbled k c addr) c y).int c .numPages = k.int c .numPages :=
    Kernel.int_eq_of_field (frees.clearSlot_own (by simp [Field.offset]) (by simp [Field.offset]))
  have pages := frees.pages
  rw [frees.kmfree_release]
  by_cases release : Releases k c p y
  · have page : (clearSlot (scribbled k c addr) c y).IsPage (pagePtr k c p) :=
      (Kernel.IsPage.congr frees.clearSlot_kend).2 (frees.page release)
    obtain ⟨mem, freed, kept, _⟩ := kfree_spec page
    have apart := frees.apart release
    have bitmap : (clearSlot (scribbled k c addr) c y).ptr c .bitmap = k.ptr c .bitmap :=
      Kernel.ptr_eq_of_field (frees.clearSlot_own (by simp [Field.offset]) (by simp [Field.offset]))
    rw [if_pos release, freed, ok_bind]
    refine ⟨_, rfl, ?_⟩
    exact {
      slots := by
        rw [← frees.clearSlot_slots]
        refine Kernel.slots_congr ?_ fun a low high => kept a (by omega)
        exact Kernel.ptr_eq_of_field (Kernel.field_setField_ne (own_word_ne (by simp [Field.offset])))
      frame := fun d f h₁ h₂ h₃ => (Kernel.field_setField_ne h₁).trans (frees.clearSlot_field h₂ h₃)
      cleared := fun member => by
        have counts := frees.clearSlot_counts.1 member
        refine ⟨?_, ?_⟩
        · exact (Kernel.int_setInt_ne (own_word_ne (by simp [Field.offset]))).trans counts.1
        · exact (Kernel.int_setInt_ne (own_word_ne (by simp [Field.offset]))).trans counts.2
      repeated := fun absent => by
        have counts := frees.clearSlot_counts.2 absent
        refine ⟨?_, ?_⟩
        · exact (Kernel.int_setInt_ne (own_word_ne (by simp [Field.offset]))).trans counts.1
        · exact (Kernel.int_setInt_ne (own_word_ne (by simp [Field.offset]))).trans counts.2
      released := fun _ => by
        refine ⟨?_, ?_⟩
        · change Kernel.int (Kernel.setInt _ _ _ ((clearSlot (scribbled k c addr) c y).int c .numPages - 1)) _ _ = _
          rw [numPages]
          exact Kernel.int_setInt_same (by omega) (by omega)
        · change Function.update (clearSlot (scribbled k c addr) c y).holder (pagePtr k c p) none = _
          rw [frees.clearSlot_holder]
      kept := fun kept => absurd release kept
      kend := frees.clearSlot_kend
      mem := fun a notByte outside outPage =>
        (kept a (outPage release)).trans (frees.clearSlot_mem notByte outside) }
  · rw [if_neg release]
    refine ⟨_, rfl, ?_⟩
    exact {
      slots := frees.clearSlot_slots
      frame := fun d f h₁ h₂ h₃ => frees.clearSlot_field h₂ h₃
      cleared := frees.clearSlot_counts.1
      repeated := frees.clearSlot_counts.2
      released := fun releases => absurd releases release
      kept := fun _ => ⟨numPages, frees.clearSlot_holder⟩
      kend := frees.clearSlot_kend
      mem := fun a notByte outside _ => frees.clearSlot_mem notByte outside }

end Frees

end MiniOS
