import Mathlib.Data.Finset.Card
import Mathlib.Data.Finset.Image
import MiniOS.Lib.Scan

namespace MiniOS.Lib

/-- The pages of `width` slots each that contain a used slot. -/
def occupiedPages (width : Nat) (used : Finset Nat) : Finset Nat := used.image (· / width)

/-- A pool keeps its page zero always, and any other page only while one of
its slots is used. -/
def PageInUse (width : Nat) (used : Finset Nat) (page : Nat) : Prop :=
  page = 0 ∨ page ∈ occupiedPages width used

instance (width : Nat) (used : Finset Nat) (page : Nat) : Decidable (PageInUse width used page) :=
  inferInstanceAs (Decidable (_ ∨ _))

/-- The number of pages a pool keeps. -/
def pagesInUse (width : Nat) (used : Finset Nat) : Nat :=
  1 + ((occupiedPages width used).erase 0).card

/-- `slot` is the lowest slot that is not used. -/
def LowestFree (used : Finset Nat) (slot : Nat) : Prop := slot ∉ used ∧ ∀ y < slot, y ∈ used

variable {width page slot other : Nat} {used : Finset Nat}

theorem mem_occupiedPages : page ∈ occupiedPages width used ↔ ∃ z ∈ used, z / width = page := by
  simp only [occupiedPages, Finset.mem_image]

theorem pageInUse_of_mem (member : slot ∈ used) : PageInUse width used (slot / width) :=
  .inr (mem_occupiedPages.2 ⟨slot, member, rfl⟩)

theorem pageInUse_of_start (start : page * width ∈ used) (positive : 0 < width) : PageInUse width used page := by
  have inUse : PageInUse width used (page * width / width) := pageInUse_of_mem start
  rwa [Nat.mul_div_cancel page positive] at inUse

theorem occupiedPages_insert :
    occupiedPages width (insert slot used) = insert (slot / width) (occupiedPages width used) :=
  Finset.image_insert _ _ _

theorem pageInUse_insert :
    PageInUse width (insert slot used) page ↔ page = slot / width ∨ PageInUse width used page := by
  simp only [PageInUse, occupiedPages_insert, Finset.mem_insert]
  tauto

theorem pageInUse_erase_of_ne (different : page ≠ slot / width) :
    PageInUse width (used.erase slot) page ↔ PageInUse width used page := by
  simp only [PageInUse, mem_occupiedPages, Finset.mem_erase]
  refine or_congr_right ⟨fun ⟨z, ⟨_, member⟩, at_page⟩ => ⟨z, member, at_page⟩, fun ⟨z, member, at_page⟩ => ?_⟩
  refine ⟨z, ⟨?_, member⟩, at_page⟩
  rintro rfl
  exact different at_page.symm

theorem PageInUse.of_erase (inUse : PageInUse width (used.erase slot) page) : PageInUse width used page :=
  inUse.imp_right fun member => Finset.image_subset_image (Finset.erase_subset _ _) member

theorem pagesInUse_erase_same (kept : PageInUse width (used.erase slot) (slot / width)) :
    pagesInUse width (used.erase slot) = pagesInUse width used := by
  have same : (occupiedPages width (used.erase slot)).erase 0 = (occupiedPages width used).erase 0 := by
    ext page
    by_cases atSlot : page = slot / width
    · subst atSlot
      simp only [Finset.mem_erase]
      refine and_congr_right fun nonzero => ?_
      have before := kept.of_erase
      exact ⟨fun _ => before.resolve_left nonzero, fun _ => kept.resolve_left nonzero⟩
    · have iff : PageInUse width (used.erase slot) page ↔ PageInUse width used page := pageInUse_erase_of_ne atSlot
      simp only [PageInUse] at iff
      simp only [Finset.mem_erase]
      tauto
  simp only [pagesInUse, same]

theorem pagesInUse_eq_card : pagesInUse width used = (insert 0 (occupiedPages width used)).card := by
  have split : insert 0 (occupiedPages width used) = insert 0 ((occupiedPages width used).erase 0) := by
    ext page
    by_cases zero : page = 0 <;> simp [zero]
  rw [split, Finset.card_insert_of_notMem (Finset.notMem_erase _ _), pagesInUse, Nat.add_comm]

theorem pagesInUse_le : pagesInUse width used ≤ used.card + 1 := by
  have image : (occupiedPages width used).card ≤ used.card := Finset.card_image_le
  have erased := Finset.card_erase_le (s := occupiedPages width used) (a := 0)
  simp only [pagesInUse]
  omega

/-- Releasing the last used slot of a page other than page zero gives up
exactly that page. -/
theorem pagesInUse_erase_last (member : slot ∈ used)
    (last : ¬PageInUse width (used.erase slot) (slot / width)) :
    pagesInUse width used = pagesInUse width (used.erase slot) + 1 := by
  have nonzero : slot / width ≠ 0 := fun zero => last (.inl zero)
  have absent : slot / width ∉ occupiedPages width (used.erase slot) := fun inside => last (.inr inside)
  have whole : occupiedPages width used = insert (slot / width) (occupiedPages width (used.erase slot)) := by
    rw [← occupiedPages_insert, Finset.insert_erase member]
  have erased : (insert (slot / width) (occupiedPages width (used.erase slot))).erase 0 =
      insert (slot / width) ((occupiedPages width (used.erase slot)).erase 0) :=
    Finset.erase_insert_of_ne nonzero
  simp only [pagesInUse, whole, erased]
  rw [Finset.card_insert_of_notMem (fun inside => absent (Finset.mem_of_mem_erase inside))]
  omega

theorem exists_lowestFree (used : Finset Nat) : ∃ slot, LowestFree used slot ∧ slot ≤ used.card := by
  obtain ⟨free, below, unused⟩ : ∃ free ∈ Finset.range (used.card + 1), free ∉ used :=
    Finset.exists_mem_notMem_of_card_lt_card (by rw [Finset.card_range]; omega)
  obtain ⟨slot, bound, first, before⟩ := exists_first (p := fun slot => slot ∉ used) (Finset.mem_range.1 below) unused
  exact ⟨slot, ⟨first, fun y less => not_not.1 (before y less)⟩, by omega⟩

namespace LowestFree

section

variable (lowest : LowestFree used slot)
include lowest

theorem unique (lowest' : LowestFree used other) : slot = other := by
  rcases Nat.lt_trichotomy slot other with less | same | greater
  · exact absurd (lowest'.2 slot less) lowest.1
  · exact same
  · exact absurd (lowest.2 other greater) lowest'.1

theorem below_pageInUse (positive : 0 < width)
    (before : page < slot / width) : PageInUse width used page := by
  have start : page * width < slot :=
    (Nat.mul_lt_mul_of_pos_right before positive).trans_le (Nat.div_mul_le_self slot width)
  exact pageInUse_of_start (lowest.2 (page * width) start) positive

/-- The lowest free slot lies in a page that is not in use exactly when it
is the first slot of an empty page. -/
theorem not_pageInUse_iff (positive : 0 < width) :
    ¬PageInUse width used (slot / width) ↔
      slot ≠ 0 ∧ slot % width = 0 ∧ ∀ z ∈ used, z / width ≠ slot / width := by
  constructor
  · intro unused
    have empty : ∀ z ∈ used, z / width ≠ slot / width := fun z member same =>
      unused (.inr (mem_occupiedPages.2 ⟨z, member, same⟩))
    refine ⟨fun zero => unused (.inl (by simp [zero])), ?_, empty⟩
    by_contra inside
    have start : slot / width * width < slot := by
      have division := Nat.div_add_mod slot width
      rw [Nat.mul_comm] at division
      omega
    exact empty _ (lowest.2 _ start) (Nat.mul_div_cancel _ positive)
  · rintro ⟨nonzero, atStart, empty⟩ (zero | member)
    · have division := Nat.div_add_mod slot width
      rw [zero, atStart] at division
      omega
    · obtain ⟨z, inUsed, same⟩ := mem_occupiedPages.1 member
      exact empty z inUsed same

theorem zero_mem_occupied :
    0 ∈ occupiedPages width (insert slot used) := by
  rw [mem_occupiedPages]
  refine ⟨0, ?_, Nat.zero_div _⟩
  rcases Nat.eq_zero_or_pos slot with zero | positive
  · simp [zero]
  · exact Finset.mem_insert_of_mem (lowest.2 0 positive)

/-- Once the lowest free slot is taken, counting the pages with a used slot
counts every page of the pool. -/
theorem pagesInUse_insert :
    pagesInUse width (insert slot used) = (occupiedPages width (insert slot used)).card := by
  have inside : 0 ∈ occupiedPages width (insert slot used) := lowest.zero_mem_occupied
  have positive := Finset.card_pos.2 ⟨0, inside⟩
  rw [pagesInUse, Finset.card_erase_of_mem inside]
  omega

theorem page_lt_pagesInUse (positive : 0 < width) :
    slot / width < pagesInUse width (insert slot used) := by
  have covered : Finset.range (slot / width + 1) ⊆ occupiedPages width (insert slot used) := by
    intro page member
    rw [occupiedPages_insert, Finset.mem_insert]
    rcases Nat.lt_or_eq_of_le (Nat.lt_succ_iff.1 (Finset.mem_range.1 member)) with before | same
    · rcases lowest.below_pageInUse positive before with zero | inside
      · have some : 0 ∈ occupiedPages width (insert slot used) := lowest.zero_mem_occupied
        rw [occupiedPages_insert, Finset.mem_insert] at some
        exact zero ▸ some
      · exact .inr inside
    · exact .inl same
  have bound := Finset.card_le_card covered
  rw [Finset.card_range] at bound
  rw [lowest.pagesInUse_insert]
  omega

end

end LowestFree

end MiniOS.Lib
