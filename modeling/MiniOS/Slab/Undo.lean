import MiniOS.Slab.Fill

namespace MiniOS

open Lib Relation

section Frame

variable {k k' : Kernel} {slabIdx d : Int} {f : Field}

theorem clearSlot_frame {offset : Int} (notFree : f.word d ≠ Field.numFreeObjects.word slabIdx)
    (notUsed : f.word d ≠ Field.numUsedObjects.word slabIdx) :
    (clearSlot k slabIdx offset).field d f = k.field d f := by
  unfold clearSlot clearBitmap
  by_cases set : getBit (k.bitmapAt slabIdx (getRow offset)) (getColumn offset).toNat = true
  · simp only [set, if_true]
    exact countFree_field notFree notUsed
  · simp only [set, Bool.false_eq_true, if_false]

theorem releasePage_frame {pageNum : Int} (ended : releasePage k slabIdx pageNum = .ok k')
    (notPages : f.word d ≠ Field.numPages.word slabIdx) : k'.field d f = k.field d f := by
  simp only [releasePage] at ended
  split at ended
  · obtain ⟨k₁, freed, ended⟩ := bind_eq_ok.1 ended
    cases ended
    unfold kfree at freed
    split at freed
    · cases freed
    · cases freed
      exact Kernel.field_setField_ne notPages
  · cases ended
    rfl

/-- `kmfree` changes three counters of the class it derives from the size, and no other
word of the tables. -/
theorem kmfree_frame {addr : Nat} {size : Int} (ended : kmfree k addr size = .ok k')
    (notPages : f.word d ≠ Field.numPages.word (kmfreeIdx size))
    (notFree : f.word d ≠ Field.numFreeObjects.word (kmfreeIdx size))
    (notUsed : f.word d ≠ Field.numUsedObjects.word (kmfreeIdx size)) : k'.field d f = k.field d f := by
  simp only [kmfree] at ended
  split at ended
  · cases ended
    rfl
  · obtain ⟨offset, _, ended⟩ := bind_eq_ok.1 ended
    exact (releasePage_frame ended notPages).trans (clearSlot_frame notFree notUsed)

end Frame

/-- The class that `kmfree` derives is that of `kmalloc` only for the size of the class. -/
theorem size_of_kmfreeIdx {size : Int} {c : Nat} (bound : c < 9) (positive : 0 < size) (fits : size ≤ classSize c)
    (same : kmfreeIdx size = c) : size = classSize c := by
  have least := classSize_le bound
  have number : (size % 2 ^ 32).toNat = size.toNat := by
    rw [Int.emod_eq_of_lt (by omega) (by omega)]
  rw [kmfreeIdx, number, getslabIdx, getnumofBits_eq (by omega) (by omega)] at same
  have exponent : size.toNat.log2 = c + 3 := by omega
  have lower := Nat.log2_self_le (n := size.toNat) (by omega)
  rw [exponent] at lower
  rw [classSize] at fits ⊢
  omega

/-- The books of all classes and the bytes of the live objects are what they were. -/
structure Restored (k k' : Kernel) (live : List Obj) : Prop where
  slots : ∀ c : Nat, c < 9 → k'.slots c = k.slots c
  used : ∀ c : Nat, c < 9 → k'.int c .numUsedObjects = k.int c .numUsedObjects
  free : ∀ c : Nat, c < 9 → k'.int c .numFreeObjects = k.int c .numFreeObjects
  pages : ∀ c : Nat, c < 9 → k'.int c .numPages = k.int c .numPages
  bytes : ∀ o ∈ live, Unchanged k k' o

/-- The counters are a matter of the bitmaps. -/
theorem Inv.restored {k k' : Kernel} {live live' : List Obj} (inv : Inv k live) (inv' : Inv k' live')
    (slots : ∀ c : Nat, c < 9 → k'.slots c = k.slots c) (bytes : ∀ o ∈ live, Unchanged k k' o) :
    Restored k k' live := by
  refine ⟨slots, fun c bound => ?_, fun c bound => ?_, fun c bound => ?_, bytes⟩
  · rw [(inv'.classes c bound).used, slots c bound, (inv.classes c bound).used]
  · have total := (inv.classes c bound).total
    have total' := (inv'.classes c bound).total
    have used := (inv.classes c bound).used
    have used' := (inv'.classes c bound).used
    rw [slots c bound] at used'
    omega
  · rw [(inv'.classes c bound).numPages, slots c bound, (inv.classes c bound).numPages]

namespace Present

variable {k k' : Kernel} {live : List Obj} {size : Int} {c z p : Nat}

/-- Freeing with the size of the class right after `kmalloc` takes everything back. -/
theorem restored (before : Present ⟨k, live⟩) (given : Given k size c z k' p) :
    ∃ k'', MiniOS.kmfree k' p (classSize c) = .ok k'' ∧ Restored k k'' live := by
  have after := before.kmalloc given.toTaken
  obtain ⟨⟨_, intact, supplied, takes, _, alloc, present, _⟩, served⟩ := given
  have member : (⟨p, c, size, z⟩ : Obj) ∈ ⟨p, c, size, z⟩ :: live := .head _
  have intact' : Intact k' c := by
    rw [Intact, Kernel.int_eq_of_field (alloc.size_other takes fun next => by omega)]
    exact intact
  obtain ⟨q, y, clears, frees⟩ := after.inv.frees member (.inr present)
  obtain ⟨k'', call, freed⟩ := frees.kmfree_spec
  have own : y = z := (after.clears_own member intact' clears).2
  have last := freed.inv_erase clears frees after.inv member
  refine ⟨k'', call, before.inv.restored last (fun d bound => ?_) fun o old a low high => ?_⟩
  · by_cases same : d = c
    · subst same
      rw [freed.slots, own, alloc.slots, Finset.erase_insert served.lowest.1]
    · exact (freed.otherSlots clears frees after.inv member bound same).trans
        (alloc.otherSlots before.inv takes supplied served.asked.2 bound same)
  · have other : o ∈ (⟨p, c, size, z⟩ :: live : List Obj).erase ⟨p, c, size, z⟩ := by
      rw [List.erase_cons_head]
      exact old
    exact (freed.object_mem clears frees after.inv member present other low high).trans
      (alloc.object_mem before.inv takes supplied served.inside served.asked present old low high)

end Present

/-- Right after `slabinit` there is an object of every size. -/
theorem exists_given {size : Int} {c : Nat} (positive : 0 < size) (small : size ≤ 2048) (idx : kmallocIdx size = c)
    (bound : c < 9) :
    ∃ k pages k' p, Bootable k pages ∧ (∀ d : Nat, d < 9 → (slabinit k).slots d = ∅) ∧
    Provided (slabinit k) (kmallocIdx size) ∧
      Given (slabinit k) size c 0 k' p := by
  obtain ⟨k, pages, boot, enough⟩ := exists_bootable
  obtain ⟨rest, length, filled⟩ := boot.filled c bound
  obtain ⟨pg, rest, rfl⟩ := List.exists_cons_of_length_pos (l := rest) (by omega)
  have room : 0 < capacity c := by interval_cases c <;> decide
  have provided : Provided (slabinit k) (kmallocIdx size) := fun _ _ => filled.fresh
  obtain ⟨k', p, given⟩ := filled.given positive small idx bound room
  refine ⟨k, pages, k', p, boot, fun d bound' => ?_, provided, given⟩
  by_cases same : d = c
  · rw [same]
    exact filled.slots
  · exact filled.others d bound' same

/-- `kmfree` with the size that was given to `kmalloc` undoes the call exactly when that
size is one of the nine sizes of the classes. -/
theorem kmfree_undoes_kmalloc {k k' : Kernel} {pages : List Nat} {w : World} {size : Int} {p : Nat}
    (boot : Bootable k pages) (run : ReflTransGen (Step Provided) ⟨slabinit k, []⟩ w)
    (positive : 0 < size) (small : size ≤ 2048) (provided : Provided w.kernel (kmallocIdx size))
    (call : kmalloc w.kernel size = .ok (k', p)) (real : p ≠ 0) :
    (∃ k'', kmfree k' p size = .ok k'' ∧ Restored w.kernel k'' w.live) ↔ ∃ c : Nat, c < 9 ∧ size = classSize c := by
  have before := boot.present_run run
  rcases before.kmalloc_cases positive small provided with ⟨_, refused⟩ | ⟨_, _, _, _,
    endless⟩ | ⟨c, z, k₁, p₁, given⟩
  · rw [refused] at call
    cases call
    exact absurd rfl real
  · rw [endless] at call
    cases call
  · rw [given.call] at call
    cases call
    have bound := given.served.bound
    have fits := given.served.asked.2
    constructor
    · rintro ⟨k'', freed, restored⟩
      by_cases same : kmfreeIdx size = c
      · exact ⟨c, bound, size_of_kmfreeIdx bound positive fits same⟩
      · have kept : k''.field c .numUsedObjects = k'.field c .numUsedObjects :=
          kmfree_frame freed (Field.word_ne (Or.inl (Ne.symm same)) (by decide) (by decide))
            (Field.word_ne (Or.inl (Ne.symm same)) (by decide) (by decide))
            (Field.word_ne (Or.inl (Ne.symm same)) (by decide) (by decide))
        have used := restored.used c bound
        rw [Kernel.int_eq_of_field kept, given.alloc.numUsed] at used
        omega
    · rintro ⟨d, bound', rfl⟩
      have same : d = c := by
        have idx := given.served.idx
        rw [kmallocIdx_classSize bound'] at idx
        omega
      subst same
      exact before.restored given

theorem kmfree_undoes_kmalloc_eight_bytes : ∃ k pages k' p k'', Bootable k pages ∧
    kmalloc (slabinit k) 8 = .ok (k', p) ∧
    kmfree k' p 8 = .ok k'' ∧ Restored (slabinit k) k'' [] := by
  obtain ⟨k, pages, k', p, boot, _, provided, given⟩ :=
    exists_given (c := 0) (show (0 : Int) < 8 by decide) (by decide) (by decide) (by decide)
  obtain ⟨k'', freed, restored⟩ :=
    (kmfree_undoes_kmalloc boot .refl (by decide) (by decide) provided given.call given.real).mpr
    ⟨0, by decide, rfl⟩
  exact ⟨k, pages, k', p, k'', boot, given.call, freed, restored⟩

/-- An object of nine bytes is taken from the class of 16 bytes, and `kmfree` looks for it
in the class of 8 bytes, which has none. -/
theorem kmfree_keeps_nine_bytes : ∃ k pages k' p, Bootable k pages ∧ Provided (slabinit k) (kmallocIdx 9) ∧
    kmalloc (slabinit k) 9 = .ok (k', p) ∧ p ≠ 0 ∧ kmfree k' p 9 = .ok k' ∧
    (slabinit k).int 1 .numUsedObjects = 0 ∧ k'.int 1 .numUsedObjects = 1 := by
  obtain ⟨k, pages, k', p, boot, empty, provided, given⟩ :=
    exists_given (c := 1) (show (0 : Int) < 9 by decide) (by decide) (by decide) (by decide)
  have before := boot.present_run .refl
  have after := before.kmalloc given.toTaken
  have none : (slabinit k).int (1 : Nat) .numUsedObjects = 0 := by
    rw [(before.inv.classes 1 (by decide)).used, empty 1 (by decide)]
    rfl
  have used : k'.int (0 : Nat) .numUsedObjects = 0 := by
    rw [(after.inv.classes 0 (by decide)).used,
      given.alloc.otherSlots before.inv given.takes given.supplied given.served.asked.2
      (by decide) (by decide), empty 0 (by decide)]
    rfl
  have one : k'.int (1 : Nat) .numUsedObjects = 1 := by rw [given.alloc.numUsed, none, zero_add]
  refine ⟨k, pages, k', p, boot, provided, given.call, given.real, ?_, none, one⟩
  have idx : kmfreeIdx 9 = (0 : Nat) := by decide
  simp only [kmfree, idx, used, if_true]
  rfl

end MiniOS
