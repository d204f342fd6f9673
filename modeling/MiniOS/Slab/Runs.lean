import MiniOS.Lib.Run
import MiniOS.Slab.FreeInv
import MiniOS.Slab.Init
import MiniOS.Slab.SizeClass

namespace MiniOS

open Lib

variable {k : Kernel} {live : List Obj} {c : Nat} {size : Int}

/-- The kernel and the objects that the callers of the slab allocator hold. -/
structure World where
  kernel : Kernel
  live : List Obj

/-- What the rest of the kernel does between two calls. It may take pages
from `kalloc` and give them back, but it leaves the tables of the slab
allocator and the pages that the slab allocator holds alone. -/
structure Elsewhere (k k' : Kernel) : Prop where
  words : k'.words = k.words
  kend : k'.kend = k.kend
  holder : ∀ pg h, h ≠ .other → (k'.holder pg = some h ↔ k.holder pg = some h)
  mem : ∀ pg h, h ≠ .other → k.holder pg = some h → ∀ a, pg ≤ a → a < pg + 4096 → k'.mem a = k.mem a

/-- The object that `kmalloc` returns at `p`, with the bit that `setBitmap` finds. -/
def newObj (k : Kernel) (size : Int) (p : Nat) : Obj :=
  ⟨p, (kmallocIdx size).toNat, size, (setBitmap k (kmallocIdx size)).2.toNat⟩

/-- The steps of a run: the two calls, a write of an owner into its object,
and other kernel code. `allowed` says in which states a class may be asked for
an object. -/
inductive Step (allowed : Kernel → Int → Prop) : World → World → Prop
  | kmalloc {k k' : Kernel} {live : List Obj} {size : Int} {p : Nat} : 0 < size → size ≤ 2048 →
      allowed k (kmallocIdx size) → kmalloc k size = .ok (k', p) →
      Step allowed ⟨k, live⟩ ⟨k', if p = 0 then live else newObj k size p :: live⟩
  | kmfree {k k' : Kernel} {live : List Obj} {o : Obj} : o ∈ live → kmfree k o.addr (classSize o.cls) = .ok k' →
      Step allowed ⟨k, live⟩ ⟨k', live.erase o⟩
  | write {k : Kernel} {live : List Obj} {o : Obj} {mem : Nat → BitVec 8} : o ∈ live →
      (∀ a, a < o.addr ∨ o.addr + classSize o.cls ≤ a → mem a = k.mem a) →
      Step allowed ⟨k, live⟩ ⟨k.withMem mem, live⟩
  | elsewhere {k k' : Kernel} {live : List Obj} : Elsewhere k k' → Step allowed ⟨k, live⟩ ⟨k', live⟩

section Congr

variable {k k' : Kernel} {c p : Nat} (words : k'.words = k.words) (kend : k'.kend = k.kend)
  (holder : ∀ pg h, h ≠ .other → (k'.holder pg = some h ↔ k.holder pg = some h))

include words

theorem int_congr (d : Int) (f : Field) : k'.int d f = k.int d f := Kernel.int_eq_of_field (congrFun words _)

theorem ptr_congr (d : Int) (f : Field) : k'.ptr d f = k.ptr d f := Kernel.ptr_eq_of_field (congrFun words _)

theorem pagePtr_congr : pagePtr k' c p = pagePtr k c p := ptr_congr words _ _

theorem intact_congr : Intact k' c ↔ Intact k c := by
  rw [Intact, Intact, int_congr words]

include kend holder

theorem ClassInv.congr (bound : c < 9) (slots : k'.slots c = k.slots c) (cls : ClassInv k c) : ClassInv k' c := by
  have isPage {pg : Nat} : k'.IsPage pg ↔ k.IsPage pg := Kernel.IsPage.congr kend
  refine cls.untouched bound ⟨fun _ _ _ => congrFun words _, fun _ => pagePtr_congr words, slots, isPage,
    (holder _ _ (by simp)).2, holder _ _ (by simp)⟩ ?_
  rw [intact_congr words, ptr_congr words, isPage]
  exact cls.size

theorem Inv.congr {live : List Obj} (slots : ∀ d : Nat, d < 9 → k'.slots d = k.slots d) (inv : Inv k live) :
    Inv k' live := by
  refine ⟨fun d bound => (inv.classes d bound).congr words kend holder bound (slots d bound), fun o member => ?_, ?_⟩
  · have object := inv.objects o member
    exact {
      cls := object.cls
      req := object.req
      slot := object.slot
      addr := by
        rw [objAddr, pagePtr_congr words]
        exact object.addr
      occupied := by
        rw [slots _ object.cls]
        exact object.occupied
      held := by
        rw [pagePtr_congr words, slots _ object.cls, intact_congr words]
        exact object.held
      null := by
        rw [pagePtr_congr words]
        exact object.null }
  · refine inv.distinct.imp fun distinct cls slot => ?_
    rw [pagePtr_congr words]
    exact distinct cls slot

end Congr

theorem Elsewhere.slots {k' : Kernel} (elsewhere : Elsewhere k k') (inv : Inv k live)
    (bound : c < 9) : k'.slots c = k.slots c := by
  refine Kernel.slots_congr (ptr_congr elsewhere.words _ _) fun a low high => ?_
  exact elsewhere.mem _ _ (by simp) (inv.classes c bound).bitmapHeld a low high

theorem Inv.write_slots {o : Obj} {mem : Nat → BitVec 8} (inv : Inv k live)
    (member : o ∈ live) (inside : ∀ a, a < o.addr ∨ o.addr + classSize o.cls ≤ a → mem a = k.mem a) (bound : c < 9) :
    (k.withMem mem).slots c = k.slots c := by
  have apart := inv.addr_bitmap_apart member bound
  exact Kernel.slots_congr rfl fun a low high => inside a (by omega)

/-- A call of `kmalloc` for `size` bytes is one for slot `z` of class `c`. -/
structure Chosen (k : Kernel) (size : Int) (c z : Nat) : Prop where
  bound : c < 9
  idx : kmallocIdx size = c
  asked : 0 < size ∧ size ≤ classSize c
  lowest : LowestFree (k.slots c) z
  inside : z < capacity c

/-- `kmalloc` gets past its tests and will take slot `z` of class `c`. -/
structure Served (k : Kernel) (size : Int) (c z : Nat) : Prop extends Chosen k size c z where
  admitted : kmallocRefuses k (kmallocIdx size) = false
  passes : kmalloc k size = kmallocLocked k c size

theorem Inv.refuses_iff (inv : Inv k live) (bound : c < 9) :
    kmallocRefuses k c = true ↔
      (k.slots c).card = capacity c ∨ (k.slots (0 : Nat)).card = capacity 0 := by
  have cls := inv.classes c bound
  have first := inv.classes 0 (by decide)
  have most := first.card_le
  have used := cls.used
  have width := cls.width
  have used' : k.int 0 .numUsedObjects = (k.slots (0 : Nat)).card := first.used
  have width' : k.int 0 .numObjectsPerPage = perPage 0 := first.width
  simp only [kmallocRefuses, Bool.or_eq_true, beq_iff_eq, maxPagesPerSlab, used, width, used', width']
  have total : capacity 0 = 32768 := rfl
  have each : perPage 0 = 512 := rfl
  by_cases zero : c = 0
  · subst zero
    omega
  · have own : capacity c = perPage c * 100 := by rw [capacity, if_neg zero]
    rw [own]
    omega

theorem Inv.not_full (inv : Inv k live) (bound : c < 9)
    (passes : kmallocRefuses k c = false) : (k.slots c).card < capacity c := by
  refine Nat.lt_of_le_of_ne (inv.classes c bound).card_le fun full => ?_
  rw [(inv.refuses_iff bound).2 (.inl full)] at passes
  cases passes

theorem Inv.served (inv : Inv k live) (positive : 0 < size)
    (small : size ≤ 2048) (passes : kmallocRefuses k (kmallocIdx size) = false) : ∃ c z, Served k size c z := by
  obtain ⟨c, bound, idx, fits⟩ := kmallocIdx_spec positive small
  obtain ⟨z, lowest, few⟩ := exists_lowestFree (k.slots c)
  have sizes : ¬(size > 2048 ∨ size ≤ 0) := by omega
  have admitted := passes
  rw [idx] at passes
  have room := inv.not_full bound passes
  refine ⟨c, z, ⟨bound, idx, ⟨positive, fits⟩, lowest, by omega⟩, admitted, ?_⟩
  simp only [kmalloc, if_neg sizes, idx, passes, Bool.false_eq_true, if_false]

/-- `kmalloc` either refuses, and then changes nothing, or finds a free slot. -/
theorem Inv.kmalloc_cases (inv : Inv k live) (positive : 0 < size)
    (small : size ≤ 2048) : kmalloc k size = .ok (k, 0) ∨ ∃ c z, Served k size c z := by
  by_cases passes : kmallocRefuses k (kmallocIdx size) = false
  · exact .inr (inv.served positive small passes)
  · have sizes : ¬(size > 2048 ∨ size ≤ 0) := by omega
    rw [Bool.not_eq_false] at passes
    simp only [kmalloc, if_neg sizes, passes, if_true, true_or]

namespace Chosen

variable {k : Kernel} {live : List Obj} {size : Int} {c z p : Nat} (chosen : Chosen k size c z)

include chosen

theorem newObj_eq : newObj k size p = ⟨p, c, size, z⟩ := by
  have inside := chosen.inside.trans_le (capacity_le chosen.bound)
  rw [newObj, chosen.idx, setBitmap_spec chosen.lowest inside]
  rfl

theorem newPageIndex (inv : Inv k live) : newPageIndex k (kmallocIdx size) =
    .ok (if Opens k c z then some (((z / perPage c : Nat) : Int) + 1) else none) := by
  have cls := inv.classes c chosen.bound
  rw [chosen.idx]
  exact newPageIndex_eq chosen.bound cls.width cls.used chosen.lowest
    (chosen.inside.trans_le (capacity_le chosen.bound))

theorem asks (inv : Inv k live) (opens : Opens k c z) :
    MiniOS.newPageIndex k (kmallocIdx size) = .ok (some (((z / perPage c : Nat) : Int) + 1)) := by
  rw [chosen.newPageIndex inv, if_pos opens]

end Chosen

end MiniOS
