import Mathlib.Data.List.Basic
import Mathlib.Data.Nat.Find
import Mathlib.Tactic.Ring

namespace MiniOS.Lib

variable {rows cols n y z : Nat} {p : Nat × Nat → Bool}

/-- The cells of a table in the order in which two nested loops visit them. -/
def cells (rows cols : Nat) : List (Nat × Nat) :=
  (List.range rows).flatMap fun i => (List.range cols).map fun j => (i, j)

/-- Nested loops visit the cells in the order of their flat index. -/
theorem cells_eq (positive : 0 < cols) :
    cells rows cols = (List.range (rows * cols)).map fun z => (z / cols, z % cols) := by
  induction rows with
  | zero => simp [cells]
  | succ rows ih =>
    have split : cells (rows + 1) cols =
        cells rows cols ++ (List.range cols).map fun j => (rows, j) := by
      simp [cells, List.range_succ, List.flatMap_append]
    rw [split, ih, Nat.succ_mul, List.range_add, List.map_append, List.map_map]
    congr 1
    apply List.map_congr_left
    intro j member
    have below := List.mem_range.1 member
    have quotient : (rows * cols + j) / cols = rows := by
      rw [Nat.mul_comm, Nat.mul_add_div positive, Nat.div_eq_of_lt below, Nat.add_zero]
    have remainder : (rows * cols + j) % cols = j := by
      rw [Nat.mul_comm, Nat.mul_add_mod, Nat.mod_eq_of_lt below]
    simp only [Function.comp_apply, quotient, remainder]

/-- `z` is the first index below `n` at which `p` holds. -/
def First (p : Nat → Prop) (n z : Nat) : Prop := z < n ∧ p z ∧ ∀ y < z, ¬p y

theorem First.unique {p : Nat → Prop} {m : Nat} (left : First p n y) (right : First p m z) : y = z := by
  rcases Nat.lt_trichotomy y z with below | same | above
  · exact absurd left.2.1 (right.2.2 y below)
  · exact same
  · exact absurd right.2.1 (left.2.2 z above)

theorem exists_first {p : Nat → Prop} (below : y < n) (holds : p y) : ∃ z, First p n z := by
  classical
  have some : ∃ x, p x := ⟨y, holds⟩
  refine ⟨Nat.find some, (Nat.find_min' some holds).trans_lt below, Nat.find_spec some, ?_⟩
  intro x before
  exact Nat.find_min some before

theorem find_cells (positive : 0 < cols)
    (first : First (fun y => p (y / cols, y % cols) = true) (rows * cols) z) :
    (cells rows cols).find? p = some (z / cols, z % cols) := by
  obtain ⟨bound, holds, before⟩ := first
  rw [cells_eq positive, List.find?_map]
  have found : (List.range (rows * cols)).find? (p ∘ fun y => (y / cols, y % cols)) = some z := by
    rw [List.find?_range_eq_some]
    refine ⟨holds, List.mem_range.2 bound, fun y lower => ?_⟩
    simpa using before y lower
  rw [found]
  rfl

theorem takeWhile_range_length {p : Nat → Bool}
    (first : First (fun y => p y = false) n z) : ((List.range n).takeWhile p).length = z := by
  obtain ⟨bound, fails, before⟩ := first
  have split : List.range n = List.range z ++ z :: (List.range (n - z - 1)).map (z + 1 + ·) := by
    have whole : n = z + (1 + (n - z - 1)) := by omega
    conv_lhs => rw [whole, List.range_add, List.range_add]
    simp only [List.range_one, List.map_append, List.map_cons, List.map_nil, List.map_map]
    simp [Function.comp_def, Nat.add_assoc]
  have holds : ∀ y ∈ List.range z, p y = true := by
    intro y member
    simpa using before y (List.mem_range.1 member)
  rw [split, List.takeWhile_append_of_pos holds, List.takeWhile_cons_of_neg (by simp [fails])]
  simp

theorem takeWhile_cells_length (positive : 0 < cols)
    (first : First (fun y => p (y / cols, y % cols) = false) (rows * cols) z) :
    ((cells rows cols).takeWhile p).length = z := by
  rw [cells_eq positive, List.takeWhile_map, List.length_map]
  exact takeWhile_range_length first

end MiniOS.Lib
