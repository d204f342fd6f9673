import Mathlib.Data.List.Range
import Mathlib.Logic.Function.Basic

namespace MiniOS.Lib

open Function

variable {α : Type*} {data : Nat → α} {cap first n : Nat}

/-- The `n` cells of a ring of `cap` cells from `first` on. -/
def held (data : Nat → α) (cap first n : Nat) : List α := (List.range n).map fun j => data ((first + j) % cap)

theorem held_length : (held data cap first n).length = n := by
  rw [held, List.length_map, List.length_range]

theorem held_take {m : Nat} (fewer : m ≤ n) : (held data cap first n).take m = held data cap first m := by
  rw [held, held, ← List.map_take, List.take_range, Nat.min_eq_left fewer]

/-- The first cell is given up. -/
theorem held_pop : held data cap first (n + 1) = data (first % cap) :: held data cap (first + 1) n := by
  rw [held, held, List.range_succ_eq_map, List.map_cons, List.map_map, Nat.add_zero]
  congr 1
  refine List.map_congr_left fun j _ => ?_
  rw [comp_apply, Nat.add_right_comm, Nat.add_assoc]

/-- A cell behind the last one is filled. -/
theorem held_push (room : n < cap) (x : α) :
    held (update data ((first + n) % cap) x) cap first (n + 1) = held data cap first n ++ [x] := by
  rw [held, held, List.range_succ, List.map_append, List.map_singleton, update_self]
  congr 1
  refine List.map_congr_left fun j below => ?_
  have less : j < n := List.mem_range.1 below
  refine update_of_ne (fun same => ?_) ..
  -- Two cells with one place are a multiple of `cap` apart.
  have apart := Nat.sub_mod_eq_zero_of_mod_eq same.symm
  rw [Nat.add_sub_add_left, Nat.mod_eq_of_lt (by omega)] at apart
  omega

/-- A counter may wrap around at a multiple of the size of the ring. -/
theorem held_mod {m : Nat} (whole : cap ∣ m) : held data cap (first % m) n = held data cap first n := by
  rw [held, held]
  refine List.map_congr_left fun j _ => ?_
  rw [Nat.add_mod, Nat.mod_mod_of_dvd first whole, ← Nat.add_mod]

end MiniOS.Lib
