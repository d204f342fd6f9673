import Mathlib.Data.Nat.Count
import MiniOS.Lib.Outcome
import MiniOS.Slab.Bitmap

namespace MiniOS

open Lib Function

variable {k : Kernel} {c z : Nat}

/-- A page of slots lies within the bitmap or entirely behind it. -/
theorem slot_lt_of_page {y : Nat} (bound : c < 9) (inside : z < 32768)
    (same : y / perPage c = z / perPage c) : y < 32768 := by
  have positive := perPage_pos bound
  have divides : perPage c ∣ 32768 := by
    interval_cases c <;> decide
  obtain ⟨n, whole⟩ := divides
  rw [whole, Nat.mul_comm] at inside ⊢
  rw [← Nat.div_lt_iff_lt_mul positive] at inside ⊢
  rwa [same]

/-- A page has no used slot exactly if its bits are clear. -/
theorem page_unused_iff (bound : c < 9) (inside : z < 32768) : (∀ y ∈ k.slots c, y / perPage c ≠ z / perPage c) ↔
    ∀ y, y / perPage c = z / perPage c → k.slotBit c y = false := by
  constructor
  · intro unused y same
    refine Kernel.slotBit_of_notMem (slot_lt_of_page bound inside same) fun member => ?_
    exact unused y member same
  · intro unset y member same
    have := (Kernel.mem_slots.1 member).2
    simp [unset y same] at this

/-- `checkNewpage` answers the lowest free slot if that slot opens a page,
and 0 otherwise. -/
theorem checkNewpage_spec (bound : c < 9) (width : k.int c .numObjectsPerPage = perPage c)
    (lowest : LowestFree (k.slots c) z) (inside : z < 32768) :
    checkNewpage k c = .ok (if PageInUse (perPage c) (k.slots c) (z / perPage c) then 0 else (z : Int)) := by
  have positive := perPage_pos bound
  have count : ((cells pgsize 8).takeWhile fun x => getBit (k.bitmapAt c x.1) x.2).length = z := by
    apply takeWhile_cells_length (by decide)
    obtain ⟨within, free, before⟩ := LowestFree.first_free lowest inside
    refine ⟨by simpa only [pgsize] using within, ?_, fun y lower => ?_⟩
    · simpa only [cell_slotBit] using free
    · simpa only [cell_slotBit] using before y lower
  have remainder : cmod z (perPage c) = .ok ((z % perPage c : Nat) : Int) := by
    rw [cmod, if_neg (by omega), Int.tmod_eq_emod_of_nonneg (by omega), Int.natCast_emod]
  have quotient : cdiv z (perPage c) = .ok ((z / perPage c : Nat) : Int) := by
    rw [cdiv, if_neg (by omega), Int.tdiv_eq_ediv_of_nonneg (by omega), Int.natCast_ediv]
  have start : ((z / perPage c : Nat) : Int) * (perPage c : Int) = ((z / perPage c * perPage c : Nat) : Int) := by
    push_cast
    rfl
  have empty := checkEmpty_spec k c (z / perPage c) bound
  have opens := lowest.not_pageInUse_iff positive
  have clear := page_unused_iff (k := k) bound inside
  have division := Nat.div_add_mod z (perPage c)
  rw [Nat.mul_comm] at division
  unfold checkNewpage
  simp only [count, width, remainder, quotient, start, ok_bind, pure_eq_ok]
  by_cases atStart : z % perPage c = 0
  · have same : z / perPage c * perPage c = z := by omega
    simp only [atStart, Nat.cast_zero, if_true]
    by_cases fresh : PageInUse (perPage c) (k.slots c) (z / perPage c)
    · rw [if_pos fresh]
      by_cases zero : z = 0
      · subst zero
        simp
      · have occupied : ¬checkEmpty k ↑(z / perPage c * perPage c)
            (↑(z / perPage c * perPage c) + ↑(perPage c) - 1) ↑c = true := by
          rw [empty, ← clear]
          intro unused
          exact opens.2 ⟨zero, atStart, unused⟩ fresh
        rw [if_neg occupied]
    · have unused := (opens.1 fresh).2.2
      rw [if_neg fresh, if_pos (empty.2 (clear.1 unused)), same]
  · have used : PageInUse (perPage c) (k.slots c) (z / perPage c) := by
      by_contra fresh
      exact atStart (opens.1 fresh).2.1
    rw [if_pos used, if_neg (by omega)]

theorem countP_range_eq_card {n : Nat} {p : Nat → Bool} {pages : Finset Nat}
    (same : ∀ q, q ∈ pages ↔ q < n ∧ p q = true) : (List.range n).countP p = pages.card := by
  have counted : Nat.count (fun q => p q = true) n = (List.range n).countP p := by
    simp only [Nat.count, Bool.decide_eq_true]
  rw [← counted, Nat.count_eq_card_filter_range]
  congr 1
  ext q
  simp only [Finset.mem_filter, Finset.mem_range, same]

theorem bitmapAt_ne_zero {j : Nat} :
    (k.bitmapAt c j != 0) = true ↔ ∃ i < 8, k.slotBit c (8 * j + i) = true := by
  have byte : ∀ b : BitVec 8, b.signExtend 32 ≠ 0 ↔ ∃ i < 8, b.getLsbD i = true := by decide
  rw [bne_iff_ne, Kernel.bitmapAt_natCast, byte]
  refine exists_congr fun i => and_congr_right fun inside => ?_
  rw [Kernel.slotBit, show (8 * j + i) / 8 = j by omega, show (8 * j + i) % 8 = i by omega]

/-- The loops of `getpageNum` count the pages with a set bit, provided the
descriptor still has the size of its class. -/
theorem getpageNum_spec (bound : c < 9) (size : k.int c .size = classSize c) :
    getpageNum k c = .ok ((occupiedPages (perPage c) (k.slots c)).card : Int) := by
  by_cases large : 7 ≤ c
  · have width : cdiv pgsize (k.int c .size) = .ok (perPage c : Int) := by
      rw [size]
      interval_cases c <;> rfl
    have columns : strided 8 (perPage c) = .ok ((List.range (8 / perPage c)).map fun i => i * perPage c) := by
      interval_cases c <;> rfl
    have factor : perPage c = 2 ∨ perPage c = 4 := by
      interval_cases c
      · exact .inr rfl
      · exact .inl rfl
    have order : ((List.range pgsize).flatMap fun i => ((List.range (8 / perPage c)).map fun i => i * perPage c).map
        fun j => (i, j)) = (List.range (pgsize * (8 / perPage c))).map
          fun q => (q / (8 / perPage c), q % (8 / perPage c) * perPage c) := by
      have positive : 0 < 8 / perPage c := by
        rcases factor with h | h <;> simp [h]
      have flat := congrArg (List.map fun (x : Nat × Nat) => (x.1, x.2 * perPage c))
        (cells_eq positive : cells pgsize (8 / perPage c) = _)
      simpa only [cells, List.map_flatMap, List.map_map, comp_def] using flat
    unfold getpageNum
    rw [if_pos (by omega), width]
    simp only [ok_bind, pure_eq_ok, columns, order, List.countP_map]
    refine congrArg (fun n : Nat => (Except.ok (n : Int) : Except Stop Int)) (countP_range_eq_card fun q => ?_)
    simp only [mem_occupiedPages, comp_apply, List.any_eq_true, List.mem_range'_1, Int.toNat_natCast,
      Kernel.mem_slots]
    generalize perPage c = w at factor ⊢
    constructor
    · rintro ⟨z, ⟨inside, set⟩, rfl⟩
      refine ⟨by rcases factor with rfl | rfl <;> simp only [pgsize] <;> omega, z % 8, ?_, ?_⟩
      · rcases factor with rfl | rfl <;> omega
      · have row : z / w / (8 / w) = z / 8 := by
          rcases factor with rfl | rfl <;> omega
        rw [row, cell_slotBit]
        exact set
    · rintro ⟨within, b, ⟨low, high⟩, set⟩
      have column : b < 8 := by
        rcases factor with rfl | rfl <;> omega
      rw [Kernel.getBit_bitmapAt column] at set
      refine ⟨8 * (q / (8 / w)) + b, ⟨?_, set⟩, ?_⟩
      · rcases factor with rfl | rfl <;> simp only [pgsize] at within <;> omega
      · rcases factor with rfl | rfl <;> omega
  · have small : c < 7 := by omega
    have width : cdiv 512 (k.int c .size) = .ok ((perPage c / 8 : Nat) : Int) := by
      rw [size]
      interval_cases c <;> rfl
    have rows : strided pgsize ((perPage c / 8 : Nat) : Int) =
        .ok ((List.range (4096 / (perPage c / 8))).map fun i => i * (perPage c / 8)) := by
      interval_cases c <;> rfl
    have shape : 0 < perPage c / 8 ∧ perPage c = 8 * (perPage c / 8) ∧
        4096 / (perPage c / 8) * (perPage c / 8) = 4096 := by
      interval_cases c <;> decide
    unfold getpageNum
    rw [if_neg (by omega), width]
    simp only [ok_bind, pure_eq_ok, rows, List.countP_map]
    refine congrArg (fun n : Nat => (Except.ok (n : Int) : Except Stop Int)) (countP_range_eq_card fun q => ?_)
    obtain ⟨positive, multiple, whole⟩ := shape
    simp only [mem_occupiedPages, comp_apply, List.any_eq_true, List.mem_range'_1, Int.toNat_natCast,
      Kernel.mem_slots, bitmapAt_ne_zero]
    rw [multiple]
    simp only [Nat.mul_div_cancel_left _ (by decide : 0 < 8)]
    generalize perPage c / 8 = m at positive whole ⊢
    have inPage : ∀ z, z / (8 * m) = q ↔ q * m ≤ z / 8 ∧ z / 8 < q * m + m := by
      intro z
      rw [← Nat.div_div_eq_div_mul, Nat.div_eq_iff positive]
      constructor <;> intro h <;> constructor <;> omega
    constructor
    · rintro ⟨z, ⟨inside, set⟩, same⟩
      have row := (inPage z).1 same
      refine ⟨?_, z / 8, row, z % 8, Nat.mod_lt z (by decide), by rwa [Nat.div_add_mod]⟩
      have below : q * m < 4096 / m * m := by omega
      exact Nat.lt_of_mul_lt_mul_right below
    · rintro ⟨within, j, rowRange, i, column, set⟩
      have row : (8 * j + i) / 8 = j := by omega
      refine ⟨8 * j + i, ⟨?_, set⟩, (inPage _).2 (by rwa [row])⟩
      have last : (q + 1) * m ≤ 4096 / m * m := Nat.mul_le_mul_right m within
      rw [whole, Nat.succ_mul] at last
      omega

end MiniOS
