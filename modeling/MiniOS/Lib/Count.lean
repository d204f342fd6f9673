import Mathlib.Data.Fintype.Card

namespace MiniOS.Lib

open Function

variable {ι α : Type} [Fintype ι] [DecidableEq α] {place : ι → Option α} {a : α} {i : ι}

/-- How many places refer to `a`. -/
def countAt (place : ι → Option α) (a : α) : Nat := (Finset.univ.filter fun i => place i = some a).card

theorem countAt_pos (refers : place i = some a) : 0 < countAt place a :=
  Finset.card_pos.2 ⟨i, Finset.mem_filter.2 ⟨Finset.mem_univ i, refers⟩⟩

theorem countAt_eq_zero : countAt place a = 0 ↔ ∀ i, place i ≠ some a := by
  simp only [countAt, Finset.card_eq_zero, Finset.filter_eq_empty_iff, Finset.mem_univ, forall_true_left, ne_eq]

theorem countAt_eq_one (refers : place i = some a) (only : ∀ j, place j = some a → j = i) :
    countAt place a = 1 := by
  refine Finset.card_eq_one.2 ⟨i, Finset.ext fun j => ?_⟩
  simp only [Finset.mem_filter, Finset.mem_univ, true_and, Finset.mem_singleton]
  exact ⟨only j, fun same => same ▸ refers⟩

/-- A place that is changed gives up what it referred to and refers to its new value. -/
theorem countAt_update [DecidableEq ι] (place : ι → Option α) (i : ι) (new : Option α) (a : α) :
    countAt (update place i new) a + (if place i = some a then 1 else 0) =
      countAt place a + (if new = some a then 1 else 0) := by
  have split : ∀ g : ι → Option α, countAt g a =
      ((Finset.univ.erase i).filter fun j => g j = some a).card + (if g i = some a then 1 else 0) := by
    intro g
    rw [countAt, ← Finset.insert_erase (Finset.mem_univ i), Finset.filter_insert]
    split
    · rw [Finset.card_insert_of_notMem (by simp), Finset.erase_insert (by simp)]
    · rw [Finset.erase_insert (by simp), Nat.add_zero]
  have rest : ((Finset.univ.erase i).filter fun j => update place i new j = some a) =
      (Finset.univ.erase i).filter fun j => place j = some a :=
    Finset.filter_congr fun j other => by rw [update_of_ne (Finset.ne_of_mem_erase other)]
  rw [split (update place i new), split place, rest, update_self]
  omega

end MiniOS.Lib
