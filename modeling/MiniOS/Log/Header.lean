import MiniOS.Kalloc

namespace MiniOS

variable {b : Block} {i : Nat} {lh : List (BitVec 32)}

/-- The bytes of a disk block. Only the first `BSIZE` of them are ever used. -/
abbrev Block := Nat → BitVec 8

/-- `LOGSIZE`, the number of entries of the array `block` of a log header. -/
def logsize : Nat := 30

/-- `lh->n`, the first word of a header block. -/
def headerCount (b : Block) : Int := (load32 b 0).toInt

/-- The list that `read_head` takes from a header block. -/
def headerBlocks (b : Block) : List (BitVec 32) :=
  (List.range (headerCount b).toNat).map fun i => load32 b (4 + 4 * i)

/-- The loop of `write_head` from entry `i` on. -/
def putBlocks (b : Block) : Nat → List (BitVec 32) → Block
  | _, [] => b
  | i, blockno :: rest => putBlocks (store32 b (4 + 4 * i) blockno) (i + 1) rest

/-- What `write_head` makes of a header block. -/
def putHeader (b : Block) (lh : List (BitVec 32)) : Block :=
  putBlocks (store32 b 0 (BitVec.ofNat 32 lh.length)) 0 lh

theorem load32_putBlocks_before {x : Nat} (before : x + 4 ≤ 4 + 4 * i) :
    load32 (putBlocks b i lh) x = load32 b x := by
  induction lh generalizing b i with
  | nil => rfl
  | cons blockno rest ih => exact (ih (by omega)).trans (load32_store32_ne (by omega))

theorem load32_putBlocks {j : Nat} (inside : j < lh.length) :
    load32 (putBlocks b i lh) (4 + 4 * (i + j)) = lh[j] := by
  induction lh generalizing b i j with
  | nil => exact absurd inside (Nat.not_lt_zero j)
  | cons blockno rest ih =>
    cases j with
    | zero =>
      rw [putBlocks, load32_putBlocks_before (by omega)]
      exact load32_store32 b (4 + 4 * i) blockno
    | succ j =>
      have next := ih (b := store32 b (4 + 4 * i) blockno) (i := i + 1) (Nat.lt_of_succ_lt_succ inside)
      rw [Nat.add_right_comm] at next
      exact next

theorem headerCount_putHeader (few : lh.length ≤ logsize) :
    headerCount (putHeader b lh) = lh.length := by
  have small : lh.length ≤ 30 := few
  rw [headerCount, putHeader, load32_putBlocks_before (by omega), load32_store32, BitVec.toInt_ofNat']
  exact Int.bmod_eq_of_le (by omega) (by omega)

/-- A header that was written is read back. -/
theorem headerBlocks_putHeader (few : lh.length ≤ logsize) :
    headerBlocks (putHeader b lh) = lh := by
  rw [headerBlocks, headerCount_putHeader few, Int.toNat_natCast]
  refine List.ext_getElem (by simp) fun j left right => ?_
  have entry := load32_putBlocks (b := store32 b 0 (BitVec.ofNat 32 lh.length)) (i := 0) right
  rw [Nat.zero_add] at entry
  rw [List.getElem_map, List.getElem_range]
  exact entry

theorem headerBlocks_of_zero (zero : headerCount b = 0) : headerBlocks b = [] := by
  rw [headerBlocks, zero]
  rfl

end MiniOS
