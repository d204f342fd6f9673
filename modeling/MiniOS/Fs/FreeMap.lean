import MiniOS.Fs.Discipline
import MiniOS.Lib.Ownership

namespace MiniOS

open Lib Function

section Bits

variable {x : BitVec 8} {i j : Nat}

theorem getLsbD_bitMask (bound : j < 8) : (bitMask i).getLsbD j = decide (j = i % 8) := by
  have low : i % 8 < 8 := Nat.mod_lt _ (by decide)
  rw [bitMask, BitVec.getLsbD_shiftLeft, BitVec.getLsbD_one]
  by_cases same : j = i % 8
  · simp [← same, bound]
  · simp only [same, decide_false, Bool.and_eq_false_iff, bound, decide_true]
    by_cases below : j < i % 8
    · simp [below]
    · exact .inr (by simp; omega)

theorem and_bitMask_eq_zero : x &&& bitMask i = 0 ↔ x.getLsbD (i % 8) = false := by
  have low : i % 8 < 8 := Nat.mod_lt _ (by decide)
  constructor
  · intro zero
    have bit := congrArg (·.getLsbD (i % 8)) zero
    simpa [BitVec.getLsbD_and, getLsbD_bitMask low] using bit
  · intro clear
    refine BitVec.eq_of_getLsbD_eq fun j bound => ?_
    rw [BitVec.getLsbD_and, getLsbD_bitMask bound]
    by_cases same : j = i % 8
    · simp [same, clear]
    · simp [same]

theorem getLsbD_or_bitMask (bound : j < 8) : (x ||| bitMask i).getLsbD j = (x.getLsbD j || decide (j = i % 8)) := by
  rw [BitVec.getLsbD_or, getLsbD_bitMask bound]

theorem getLsbD_and_not_bitMask (bound : j < 8) :
    (x &&& ~~~bitMask i).getLsbD j = (x.getLsbD j && !decide (j = i % 8)) := by
  rw [BitVec.getLsbD_and, BitVec.getLsbD_not, getLsbD_bitMask bound]
  simp [bound]

end Bits

section Marks

variable {sb : Superblock} {block block' : Nat → Block} {b c : Nat}

theorem Superblock.Laid.bblock (laid : sb.Laid) (inside : b < sb.size) : sb.bblock b = sb.bmapstart := by
  have := laid.disk
  simp only [fssize] at this
  rw [Superblock.bblock, Nat.div_eq_of_lt (by omega), Nat.zero_add]

theorem Superblock.bmapstart_lt (sb : Superblock) : sb.bmapstart < sb.dataStart := by
  rw [Superblock.dataStart]
  omega

theorem Superblock.Laid.size_pos (laid : sb.Laid) : 0 < sb.size :=
  Nat.lt_of_lt_of_le (Nat.lt_of_le_of_lt (Nat.zero_le _) sb.bmapstart_lt) laid.data

theorem inUse_eq (laid : sb.Laid) (inside : b < sb.size) :
    inUse sb block b = (block sb.bmapstart (b / 8)).getLsbD (b % 8) := by
  have := laid.disk
  simp only [fssize] at this
  rw [inUse, laid.bblock inside, Nat.mod_eq_of_lt (by omega : b < 4096)]

theorem inUse_congr (laid : sb.Laid) (same : block' sb.bmapstart = block sb.bmapstart) (inside : b < sb.size) :
    inUse sb block' b = inUse sb block b := by
  rw [inUse_eq laid inside, inUse_eq laid inside, same]

/-- A byte of the free map gets a value that differs in the bit of block `b` only. -/
theorem inUse_setByte (laid : sb.Laid) (block : Nat → Block) (new : BitVec 8) (bound : b < sb.size)
    (bits : ∀ j < 8, j ≠ b % 8 → new.getLsbD j = (block sb.bmapstart (b / 8)).getLsbD j) (c : Nat)
    (inside : c < sb.size) :
    inUse sb (update block sb.bmapstart (update (block sb.bmapstart) (b / 8) new)) c =
      if c = b then new.getLsbD (b % 8) else inUse sb block c := by
  rw [inUse_eq laid inside, inUse_eq laid inside, update_self]
  by_cases row : c / 8 = b / 8
  · rw [row, update_self]
    by_cases same : c = b
    · rw [if_pos same, same]
    · rw [if_neg same, bits (c % 8) (Nat.mod_lt _ (by decide)) (by omega)]
  · rw [update_of_ne row, if_neg (by rintro rfl; exact row rfl)]

/-- A block that `balloc` takes is marked and cleared. -/
structure Claims (sb : Superblock) (block block' : Nat → Block) (b : Nat) : Prop where
  inside : b < sb.size
  free : inUse sb block b = false
  marked : inUse sb block' b = true
  others : ∀ c < sb.size, c ≠ b → inUse sb block' c = inUse sb block c
  zero : ∀ x < 512, block' b x = 0
  same : ∀ c, c ≠ b → c ≠ sb.bmapstart → block' c = block c

/-- A block that `bfree` gives back is no longer marked. -/
structure BlockFreed (sb : Superblock) (block block' : Nat → Block) (b : Nat) : Prop where
  cleared : inUse sb block' b = false
  others : ∀ c < sb.size, c ≠ b → inUse sb block' c = inUse sb block c
  same : ∀ c, c ≠ sb.bmapstart → block' c = block c

end Marks

section Code

variable {s : Fs} {err : Stop → Prop} {dev b : Nat}

theorem wp_bread {α : Type} {f : Block → FsM α} {post : α → Fs → Prop} (inside : b < fssize)
    (rest : wp (f (s.block b)) s post err) : wp (bread dev b >>= f) s post err := by
  rw [wp_bind, bread, wp_bind]
  exact wp_ite (fun large => absurd large (Nat.not_le.2 inside)) fun _ => rest

theorem bzero_spec (inside : b < fssize) :
    wp (bzero dev b) s (fun _ t => t = { s with block := update s.block b (memset (s.block b) 0 0 512) }) err :=
  wp_bread inside rfl

/-- `balloc` takes the first block that is not in use. -/
theorem balloc_spec (dev : Nat) (laid : s.sb.Laid) (covered : ∀ b < s.sb.dataStart, inUse s.sb s.block b = true) :
    wp (balloc dev) s (fun addr t => ∃ b block, addr = BitVec.ofNat 32 b ∧ Claims s.sb s.block block b ∧
        (∀ c < b, inUse s.sb s.block c = true) ∧ t = { s with block := block })
      fun e => e = .panic "balloc: out of blocks" ∧ ∀ b < s.sb.size, inUse s.sb s.block b = true := by
  have small := laid.disk
  have map := s.sb.bmapstart_lt
  have data := laid.data
  simp only [fssize] at small
  have chunks : (List.range ((s.sb.size + 4095) / 4096)).map (4096 * ·) = [0] := by
    rw [show (s.sb.size + 4095) / 4096 = 1 by have := laid.size_pos; omega]
    rfl
  have first : s.sb.bblock 0 = s.sb.bmapstart := laid.bblock laid.size_pos
  have bit : ∀ c < s.sb.size, (s.block s.sb.bmapstart (c / 8) &&& bitMask c = 0 ↔ inUse s.sb s.block c = false) := by
    intro c inside
    rw [and_bitMask_eq_zero, inUse_eq laid inside]
  refine wp_get_seq ?_
  rw [chunks, ballocFrom]
  refine wp_get_seq ?_
  rw [first, Nat.sub_zero, Nat.min_eq_right (by omega)]
  refine wp_bread (by simp only [fssize]; omega) ?_
  cases found : (List.range s.sb.size).find? fun bi => s.block s.sb.bmapstart (bi / 8) &&& bitMask bi = 0 with
  | none =>
    refine ⟨rfl, fun b inside => ?_⟩
    have used := List.find?_eq_none.1 found b (List.mem_range.2 inside)
    rw [decide_eq_true_eq, bit b inside] at used
    simpa using used
  | some b =>
    rw [List.find?_range_eq_some] at found
    obtain ⟨free, inside, before⟩ := found
    have inside := List.mem_range.1 inside
    rw [decide_eq_true_eq, bit b inside] at free
    have start : s.sb.dataStart ≤ b := by
      by_contra below
      rw [covered b (by omega)] at free
      cases free
    have other : b ≠ s.sb.bmapstart := by omega
    have mapped := inUse_setByte laid s.block (s.block s.sb.bmapstart (b / 8) ||| bitMask b) inside
        fun j bound other => by
      simp [getLsbD_or_bitMask bound, other]
    refine wp_modify_seq (wp_seq (bzero_spec (by simp only [fssize]; omega)) fun _ t same => ?_)
    subst same
    refine ⟨b, _, by rw [Nat.zero_add], ⟨inside, free, ?_, fun c bound distinct => ?_, fun x small => ?_,
      fun c distinct away => ?_⟩,
      fun c below => ?_, rfl⟩
    · rw [inUse_congr laid (update_of_ne (by omega) ..) inside, mapped b inside, if_pos rfl,
        getLsbD_or_bitMask (Nat.mod_lt _ (by decide))]
      simp
    · rw [inUse_congr laid (update_of_ne (by omega) ..) bound, mapped c bound, if_neg distinct]
    · rw [Nat.zero_add, update_self]
      exact memset_of_mem ⟨Nat.zero_le _, by omega⟩
    · rw [Nat.zero_add, update_of_ne distinct]
      exact update_of_ne away ..
    · have used := before c below
      rw [Bool.not_eq_true', decide_eq_false_iff_not, bit c (by omega)] at used
      simpa using used

/-- `bfree` gives back a block that is in use. -/
theorem bfree_spec (laid : s.sb.Laid) (inside : b < s.sb.size) (used : inUse s.sb s.block b = true) :
    wp (bfree dev b) s (fun _ t => ∃ block, BlockFreed s.sb s.block block b ∧ t = { s with block := block }) err := by
  have small := laid.disk
  have map := s.sb.bmapstart_lt
  have data := laid.data
  simp only [fssize] at small
  refine wp_get_seq ?_
  rw [laid.bblock inside, Nat.mod_eq_of_lt (by omega : b < 4096)]
  have marked : ¬s.block s.sb.bmapstart (b / 8) &&& bitMask b = 0 := by
    rw [and_bitMask_eq_zero, ← inUse_eq laid inside, used]
    decide
  refine wp_bread (by simp only [fssize]; omega) (wp_guard (fun free => absurd free marked) fun _ => ?_)
  have mapped := inUse_setByte laid s.block (s.block s.sb.bmapstart (b / 8) &&& ~~~bitMask b) inside
      fun j bound other => by
    simp [getLsbD_and_not_bitMask bound, other]
  refine ⟨_, ⟨?_, fun c bound distinct => ?_, fun c away => update_of_ne away ..⟩, rfl⟩
  · rw [mapped b inside, if_pos rfl, getLsbD_and_not_bitMask (Nat.mod_lt _ (by decide))]
    simp
  · rw [mapped c bound, if_neg distinct]

end Code

end MiniOS
