import Mathlib.Logic.Function.Basic
import Mathlib.Data.List.Nodup

namespace MiniOS.Lib

open Function

variable {α : Type*} {next prev next' prev' : α → α} {a b x y : α} {l l' : List α}

/-- From `a` the pointers lead through the elements of the list to `b`, and back. -/
def Segment (next prev : α → α) : α → List α → α → Prop
  | a, [], b => next a = b ∧ prev b = a
  | a, x :: l, b => next a = x ∧ prev x = a ∧ Segment next prev x l b

/-- The elements of the list make a ring with `head`. -/
def LinkedRing (next prev : α → α) (head : α) (l : List α) : Prop := Segment next prev head l head

namespace Segment

theorem append_iff : Segment next prev a (l ++ x :: l') b ↔ Segment next prev a l x ∧ Segment next prev x l' b := by
  induction l generalizing a with
  | nil => exact and_assoc.symm
  | cons y l ih =>
    simp only [List.cons_append, Segment, ih, and_assoc]

/-- The pointers of the elements of a segment are all that matters. -/
theorem congr (segment : Segment next prev a l b) (nexts : ∀ y ∈ a :: l, next' y = next y)
    (prevs : ∀ y ∈ l ++ [b], prev' y = prev y) : Segment next' prev' a l b := by
  induction l generalizing a with
  | nil => exact ⟨(nexts a (.head _)).trans segment.1, (prevs b (.head _)).trans segment.2⟩
  | cons x l ih =>
    obtain ⟨first, back, rest⟩ := segment
    refine ⟨(nexts a (.head _)).trans first, (prevs x (.head _)).trans back, ih rest ?_ ?_⟩
    · exact fun y member => nexts y (.tail _ member)
    · exact fun y member => prevs y (.tail _ member)

theorem prev_mem (segment : Segment next prev a l x) : prev x ∈ a :: l := by
  induction l generalizing a with
  | nil => exact segment.2 ▸ List.mem_cons_self
  | cons y l ih => exact .tail _ (ih segment.2.2)

theorem next_mem (segment : Segment next prev x l b) : next x ∈ l ++ [b] := by
  cases l with
  | nil | cons => exact segment.1 ▸ List.mem_cons_self

/-- Read backwards, a segment is one for the other pointers. -/
theorem reverse (segment : Segment next prev a l b) : Segment prev next b l.reverse a := by
  induction l generalizing a with
  | nil => exact ⟨segment.2, segment.1⟩
  | cons x l ih =>
    obtain ⟨first, back, rest⟩ := segment
    rw [List.reverse_cons]
    exact append_iff.2 ⟨ih rest, back, first⟩

variable [DecidableEq α]

/-- The pointers around an element are made to go past it. -/
theorem unlink (segment : Segment next prev a (l ++ x :: l') b) (nodup : (l ++ x :: l').Nodup)
    (start : a ∉ l ++ x :: l') (stop : b ∉ l ++ x :: l') :
    Segment (update next (prev x) (next x)) (update prev (next x) (prev x)) a (l ++ l') b := by
  induction l generalizing a with
  | nil =>
    obtain ⟨_, back, rest⟩ := segment
    rw [List.nil_append] at nodup start stop ⊢
    cases l' with
    | nil =>
      obtain ⟨forth, _⟩ := rest
      rw [back, forth]
      exact ⟨update_self .., update_self ..⟩
    | cons y l' =>
      obtain ⟨forth, _, rest⟩ := rest
      rw [back, forth]
      refine ⟨update_self .., update_self .., rest.congr (fun z member => ?_) fun z member => ?_⟩
      · refine update_of_ne (fun same => ?_) ..
        subst same
        exact start (.tail _ member)
      · refine update_of_ne (fun same => ?_) ..
        subst same
        rcases List.mem_append.1 member with inside | last
        · exact (List.nodup_cons.1 (List.nodup_cons.1 nodup).2).1 inside
        · exact stop (List.mem_singleton.1 last ▸ List.mem_cons_of_mem _ List.mem_cons_self)
  | cons y l ih =>
    rw [List.cons_append] at segment nodup start stop
    obtain ⟨first, back, rest⟩ := segment
    obtain ⟨new, nodup⟩ := List.nodup_cons.1 nodup
    have cut := append_iff.1 rest
    refine ⟨?_, ?_, ih rest nodup new fun member => stop (.tail _ member)⟩
    · rw [update_of_ne, first]
      rintro rfl
      exact start (List.mem_append.2 (.inl cut.1.prev_mem) : prev x ∈ (y :: l) ++ x :: l')
    · rw [update_of_ne, back]
      rintro rfl
      rcases List.mem_append.1 cut.2.next_mem with inside | last
      · exact new (List.mem_append.2 (.inr (.tail _ inside)))
      · exact stop (List.mem_singleton.1 last ▸ List.mem_cons_self)

end Segment

namespace LinkedRing

variable [DecidableEq α] {head : α}

theorem unlink (ring : LinkedRing next prev head (l ++ x :: l')) (nodup : (head :: (l ++ x :: l')).Nodup) :
    LinkedRing (update next (prev x) (next x)) (update prev (next x) (prev x)) head (l ++ l') := by
  obtain ⟨outside, nodup⟩ := List.nodup_cons.1 nodup
  exact Segment.unlink ring nodup outside outside

/-- An element is put between `head` and the first element. -/
theorem push (ring : LinkedRing next prev head l) (new : x ∉ head :: l) (outside : head ∉ l) (nodup : l.Nodup) :
    LinkedRing (update (update next x (next head)) head x)
      (update (update prev x head) (next head) x) head (x :: l) := by
  have apart : x ≠ head := fun same => new (same ▸ List.mem_cons_self)
  have other : next head ≠ x := by
    rintro rfl
    rcases List.mem_append.1 (Segment.next_mem ring) with inside | last
    · exact new (.tail _ inside)
    · exact apart (List.mem_singleton.1 last)
  refine ⟨update_self .., ?_, ?_⟩
  · rw [update_of_ne other.symm, update_self]
  · cases l with
    | nil =>
      obtain ⟨forth, _⟩ := ring
      refine ⟨?_, ?_⟩
      · rw [update_of_ne apart, update_self, forth]
      · rw [forth, update_self]
    | cons y l =>
      obtain ⟨forth, _, rest⟩ := ring
      refine ⟨?_, ?_, Segment.congr rest (fun z member => ?_) fun z member => ?_⟩
      · rw [update_of_ne apart, update_self, forth]
      · rw [forth, update_self]
      · rw [update_of_ne, update_of_ne]
        · exact fun same => new (same ▸ List.mem_cons_of_mem _ member)
        · exact fun same => outside (same ▸ member)
      · rw [update_of_ne, update_of_ne]
        · rintro rfl
          rcases List.mem_append.1 member with inside | last
          · exact new (.tail _ (.tail _ inside))
          · exact apart (List.mem_singleton.1 last)
        · rw [forth]
          rintro rfl
          rcases List.mem_append.1 member with inside | last
          · exact (List.nodup_cons.1 nodup).1 inside
          · exact outside (List.mem_singleton.1 last ▸ List.mem_cons_self)

end LinkedRing

end MiniOS.Lib
