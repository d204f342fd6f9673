import MiniOS.Fs.ImageCheck
import MiniOS.Fs.Runs
import MiniOS.Lib.Scan

namespace MiniOS

open Lib Function

section Marks

variable {sb : Superblock} {block : Nat → Block} {b c : Nat} {new : BitVec 8}

/-- The number of blocks of the free map. -/
def Superblock.mapBlocks (sb : Superblock) : Nat := (sb.size + 4095) / 4096

/-- The blocks of the free map have numbers that the disk driver accepts. -/
def Superblock.MapOnDisk (sb : Superblock) : Prop := sb.bmapstart + sb.mapBlocks ≤ fssize

/-- The blocks of the free map are marked in use themselves. -/
def Superblock.MapMarked (sb : Superblock) (block : Nat → Block) : Prop :=
  ∀ b < sb.size, sb.bmapstart ≤ b → b < sb.bmapstart + sb.mapBlocks → inUse sb block b = true

theorem Superblock.size_le (sb : Superblock) : sb.size ≤ 4096 * sb.mapBlocks := by
  rw [Superblock.mapBlocks]
  omega

theorem Superblock.bblock_lt (sb : Superblock) (inside : b < 4096 * sb.mapBlocks) :
    sb.bblock b < sb.bmapstart + sb.mapBlocks := by
  rw [Superblock.bblock]
  omega

theorem Superblock.MapOnDisk.bblock_lt (onDisk : sb.MapOnDisk) (inside : b < sb.size) : sb.bblock b < fssize :=
  Nat.lt_of_lt_of_le (sb.bblock_lt (Nat.lt_of_lt_of_le inside sb.size_le)) onDisk

/-- A block that is not in use is no block of the free map. -/
theorem Superblock.MapMarked.ne_bblock (marked : sb.MapMarked block) (inside : b < sb.size)
    (free : inUse sb block b = false) (bound : c < 4096 * sb.mapBlocks) : b ≠ sb.bblock c := by
  intro same
  have below := sb.bblock_lt bound
  rw [marked b inside (by rw [same, Superblock.bblock]; omega) (by omega)] at free
  cases free

/-- The disk with another value in the byte of the free map that has the bit of block `b`. -/
def setMark (sb : Superblock) (block : Nat → Block) (b : Nat) (new : BitVec 8) : Nat → Block :=
  update block (sb.bblock b) (update (block (sb.bblock b)) (b % 4096 / 8) new)

/-- The byte of the free map that has the bit of block `b`. -/
def markByte (sb : Superblock) (block : Nat → Block) (b : Nat) : BitVec 8 := block (sb.bblock b) (b % 4096 / 8)

theorem inUse_setMark (bits : ∀ j < 8, j ≠ b % 8 → new.getLsbD j = (markByte sb block b).getLsbD j) (c : Nat) :
    inUse sb (setMark sb block b new) c = if c = b then new.getLsbD (b % 8) else inUse sb block c := by
  simp only [inUse, setMark]
  by_cases chunk : c / 4096 = b / 4096
  · have same : sb.bblock c = sb.bblock b := by
      simp only [Superblock.bblock, chunk]
    rw [same, update_self]
    by_cases row : c % 4096 / 8 = b % 4096 / 8
    · rw [row, update_self]
      by_cases here : c = b
      · rw [if_pos here, here]
      · rw [if_neg here, bits (c % 8) (Nat.mod_lt _ (by decide)) (by omega), markByte]
    · rw [update_of_ne row, if_neg (by rintro rfl; exact row rfl)]
  · have other : sb.bblock c ≠ sb.bblock b := by
      simp only [Superblock.bblock]
      omega
    rw [update_of_ne other, if_neg (by rintro rfl; exact chunk rfl)]

/-- Setting the bit of block `b`, and clearing it. -/
def putMark (sb : Superblock) (block : Nat → Block) (b : Nat) : Nat → Block :=
  setMark sb block b (markByte sb block b ||| bitMask b)

def clearMark (sb : Superblock) (block : Nat → Block) (b : Nat) : Nat → Block :=
  setMark sb block b (markByte sb block b &&& ~~~bitMask b)

theorem inUse_putMark (c : Nat) : inUse sb (putMark sb block b) c = if c = b then true else inUse sb block c := by
  rw [putMark, inUse_setMark fun j bound other => by simp [getLsbD_or_bitMask bound, other],
    getLsbD_or_bitMask (Nat.mod_lt _ (by decide))]
  simp

theorem inUse_clearMark (c : Nat) :
    inUse sb (clearMark sb block b) c = if c = b then false else inUse sb block c := by
  rw [clearMark, inUse_setMark fun j bound other => by simp [getLsbD_and_not_bitMask bound, other],
    getLsbD_and_not_bitMask (Nat.mod_lt _ (by decide))]
  simp

theorem markByte_free : markByte sb block b &&& bitMask b = 0 ↔ inUse sb block b = false := by
  rw [and_bitMask_eq_zero, markByte, inUse]

/-- Clearing the bit that was set for a free block gives back the free map. -/
theorem clearMark_putMark (free : inUse sb block b = false) {disk : Nat → Block}
    (same : disk (sb.bblock b) = putMark sb block b (sb.bblock b)) :
    clearMark sb disk b (sb.bblock b) = block (sb.bblock b) := by
  have byte : markByte sb disk b = markByte sb block b ||| bitMask b := by
    rw [markByte, same, putMark, setMark, update_self, update_self]
  have back : (markByte sb block b ||| bitMask b) &&& ~~~bitMask b = markByte sb block b := by
    refine BitVec.eq_of_getLsbD_eq fun j bound => ?_
    rw [getLsbD_and_not_bitMask bound, getLsbD_or_bitMask bound]
    by_cases here : j = b % 8
    · simp only [here, decide_true, Bool.not_true, Bool.and_false]
      exact free.symm
    · simp [here]
  rw [clearMark, setMark, update_self, byte, back, same, putMark, setMark, update_self, update_idem,
    markByte, update_eq_self]

end Marks

section Code

variable {s : Fs} {dev b : Nat} {c : Nat}

/-- The first block whose bit is clear. -/
def Fs.FirstFree (s : Fs) (b : Nat) : Prop := First (fun c => inUse s.sb s.block c = false) s.sb.size b

/-- The state in which `balloc` returns block `b`. -/
def Fs.taken (s : Fs) (b : Nat) : Fs :=
  { s with block := update (putMark s.sb s.block b) b (memset (putMark s.sb s.block b b) 0 0 512) }

/-- `balloc` from the chunk `k` of the free map on. -/
theorem ballocFrom_spec (dev : Nat) (onDisk : s.sb.MapOnDisk) {k n : Nat} (count : k + n = s.sb.mapBlocks)
    (before : ∀ c < s.sb.size, c < 4096 * k → inUse s.sb s.block c = true) :
    wp (ballocFrom dev ((List.range' k n).map (4096 * ·))) s
      (fun addr t => ∃ b, addr = BitVec.ofNat 32 b ∧ s.FirstFree b ∧ b < fssize ∧ t = s.taken b)
      fun e => (e = .panic "balloc: out of blocks" ∧ ∀ c < s.sb.size, inUse s.sb s.block c = true) ∨
        (e = .panic "incorrect blockno" ∧ ∃ b, s.FirstFree b ∧ fssize ≤ b) := by
  induction n generalizing k with
  | zero =>
    refine .inl ⟨rfl, fun c inside => before c inside ?_⟩
    simp only [Superblock.mapBlocks] at count
    omega
  | succ n ih =>
    have chunk : s.sb.bblock (4096 * k) = k + s.sb.bmapstart := by
      rw [Superblock.bblock, Nat.mul_div_cancel_left _ (by decide)]
    have short : 4096 * k < s.sb.size := by
      simp only [Superblock.mapBlocks] at count
      omega
    have bit : ∀ bi < 4096, (s.block (k + s.sb.bmapstart) (bi / 8) &&& bitMask bi = 0 ↔
        inUse s.sb s.block (4096 * k + bi) = false) := by
      intro bi bound
      have row : (4096 * k + bi) / 4096 = k := by omega
      have column : (4096 * k + bi) % 4096 = bi := by omega
      have mask : (4096 * k + bi) % 8 = bi % 8 := by omega
      rw [and_bitMask_eq_zero, inUse, Superblock.bblock, row, column, mask]
    rw [List.range'_succ, List.map_cons, ballocFrom]
    refine wp_get_seq ?_
    rw [chunk]
    refine wp_bread (by rw [← chunk]; exact onDisk.bblock_lt short) ?_
    cases found : (List.range (min 4096 (s.sb.size - 4096 * k))).find? fun bi =>
        s.block (k + s.sb.bmapstart) (bi / 8) &&& bitMask bi = 0 with
    | none =>
      refine ih (by omega) fun c inside below => ?_
      by_cases earlier : c < 4096 * k
      · exact before c inside earlier
      · have used := List.find?_eq_none.1 found (c - 4096 * k) (List.mem_range.2 (by omega))
        rw [decide_eq_true_eq, bit _ (by omega), Nat.add_sub_cancel' (by omega)] at used
        simpa using used
    | some bi =>
      rw [List.find?_range_eq_some] at found
      obtain ⟨clear, member, earlier⟩ := found
      have inside := List.mem_range.1 member
      rw [decide_eq_true_eq, bit bi (by omega)] at clear
      have first : s.FirstFree (4096 * k + bi) := by
        refine ⟨by omega, clear, fun c below (free : inUse s.sb s.block c = false) => ?_⟩
        by_cases lower : c < 4096 * k
        · rw [before c (by omega) lower] at free
          cases free
        · have used := earlier (c - 4096 * k) (by omega)
          rw [Bool.not_eq_true', decide_eq_false_iff_not, bit _ (by omega), Nat.add_sub_cancel' (by omega)] at used
          exact used free
      refine wp_modify_seq ?_
      have marking : update s.block (k + s.sb.bmapstart) (update (s.block (k + s.sb.bmapstart)) (bi / 8)
          (s.block (k + s.sb.bmapstart) (bi / 8) ||| bitMask bi)) = putMark s.sb s.block (4096 * k + bi) := by
        have row : s.sb.bblock (4096 * k + bi) = k + s.sb.bmapstart := by
          rw [Superblock.bblock]
          omega
        have column : (4096 * k + bi) % 4096 = bi := by omega
        have mask : bitMask (4096 * k + bi) = bitMask bi := by
          rw [bitMask, bitMask, show (4096 * k + bi) % 8 = bi % 8 by omega]
        rw [putMark, setMark, markByte, row, column, mask]
      rw [marking]
      by_cases disk : 4096 * k + bi < fssize
      · refine wp_seq (bzero_spec disk) fun _ t same => ?_
        exact ⟨_, rfl, first, disk, same⟩
      · rw [wp_bind, bzero, wp_bind, bread]
        exact wp_guard (fun _ => .inr ⟨rfl, _, first, by omega⟩) fun fits => absurd (by omega) fits

theorem balloc_general (dev : Nat) (onDisk : s.sb.MapOnDisk) : wp (balloc dev) s
    (fun addr t => ∃ b, addr = BitVec.ofNat 32 b ∧ s.FirstFree b ∧ b < fssize ∧ t = s.taken b)
    fun e => (e = .panic "balloc: out of blocks" ∧ ∀ c < s.sb.size, inUse s.sb s.block c = true) ∨
      (e = .panic "incorrect blockno" ∧ ∃ b, s.FirstFree b ∧ fssize ≤ b) := by
  refine wp_get_seq ?_
  rw [List.range_eq_range']
  exact ballocFrom_spec dev onDisk (Nat.zero_add _) fun c _ below => absurd below (by omega)

theorem bfree_eq (dev : Nat) (onDisk : s.sb.MapOnDisk) (inside : b < s.sb.size) : bfree dev b s =
    if inUse s.sb s.block b = false then .error (.panic "freeing free block")
    else .ok ((), { s with block := clearMark s.sb s.block b }) := by
  have mask : bitMask (b % 4096) = bitMask b := by
    rw [bitMask, bitMask, show b % 4096 % 8 = b % 8 by omega]
  refine wp_eq (wp_get_seq (wp_bread (onDisk.bblock_lt inside) ?_))
  rw [mask]
  refine wp_guard (fun clear => ?_) fun set => ?_
  · rw [if_pos (markByte_free.1 clear)]
  · rw [if_neg fun free => set (markByte_free.2 free)]
    rfl

theorem taken_putMark (other : c ≠ b) : (s.taken b).block c = putMark s.sb s.block b c :=
  update_of_ne other ..

theorem taken_zero {x : Nat} (bound : x < 512) : (s.taken b).block b x = 0 := by
  have here : (s.taken b).block b = memset (putMark s.sb s.block b b) 0 0 512 := update_self ..
  rw [here]
  exact memset_of_mem ⟨Nat.zero_le _, by omega⟩

/-- On a map whose blocks are marked, `balloc` changes the bit of the block it takes and
no other. -/
theorem inUse_taken (marked : s.sb.MapMarked s.block) (first : s.FirstFree b) (inside : c < 4096 * s.sb.mapBlocks) :
    inUse s.sb (s.taken b).block c = if c = b then true else inUse s.sb s.block c := by
  rw [← inUse_putMark, inUse, taken_putMark (marked.ne_bblock first.1 first.2.1 inside).symm]
  rfl

theorem taken_block_of_ne (other : c ≠ b) (away : c ≠ s.sb.bblock b) : (s.taken b).block c = s.block c :=
  (taken_putMark other).trans (update_of_ne away ..)

/-- `bfree` undoes `balloc`, but for the contents of the block. -/
theorem bfree_taken (dev : Nat) (onDisk : s.sb.MapOnDisk) (marked : s.sb.MapMarked s.block) (first : s.FirstFree b) :
    ∃ u, bfree dev b (s.taken b) = .ok ((), u) ∧ ∀ c, c ≠ b → u.block c = s.block c := by
  have inMap := Nat.lt_of_lt_of_le first.1 s.sb.size_le
  have used : inUse s.sb (s.taken b).block b ≠ false := by
    rw [inUse_taken marked first inMap, if_pos rfl]
    decide
  have other := marked.ne_bblock first.1 first.2.1 inMap
  refine ⟨_, (bfree_eq (s := s.taken b) dev onDisk first.1).trans (if_neg used), fun c distinct => ?_⟩
  by_cases here : c = s.sb.bblock b
  · rw [here]
    exact clearMark_putMark first.2.1 (taken_putMark other.symm)
  · exact (update_of_ne here ..).trans (taken_block_of_ne distinct here)

theorem Fs.FirstFree.not_full (first : s.FirstFree b) (full : ∀ c < s.sb.size, inUse s.sb s.block c = true) :
    False := by
  have free : inUse s.sb s.block b = false := first.2.1
  rw [full b first.1] at free
  cases free

theorem balloc_ok (dev : Nat) (onDisk : s.sb.MapOnDisk) (first : s.FirstFree b) (small : b < fssize) :
    balloc dev s = .ok (BitVec.ofNat 32 b, s.taken b) := by
  refine wp_eq_ok (wp_mono (balloc_general dev onDisk) ?_ ?_)
  · rintro addr t ⟨c, rfl, first', _, rfl⟩
    rw [first.unique first']
    exact ⟨rfl, rfl⟩
  · rintro e (⟨_, full⟩ | ⟨_, c, first', large⟩)
    · exact first.not_full full
    · rw [first.unique first'] at small
      omega

/-- The disk driver does not accept the block. -/
theorem balloc_off_disk (dev : Nat) (onDisk : s.sb.MapOnDisk) (first : s.FirstFree b) (large : fssize ≤ b) :
    balloc dev s = .error (.panic "incorrect blockno") := by
  have stopped : wp (balloc dev) s (fun _ _ => False) (· = .panic "incorrect blockno") := by
    refine wp_mono (balloc_general dev onDisk) ?_ ?_
    · rintro addr t ⟨c, _, first', small, _⟩
      rw [first.unique first'] at large
      omega
    · rintro e (⟨_, full⟩ | ⟨panicked, _⟩)
      · exact (first.not_full full).elim
      · exact panicked
  obtain ⟨_, error, rfl⟩ := wp_stops stopped
  exact error

theorem balloc_full_iff (dev : Nat) (onDisk : s.sb.MapOnDisk) :
    balloc dev s = .error (.panic "balloc: out of blocks") ↔ ∀ b < s.sb.size, inUse s.sb s.block b = true := by
  have general := balloc_general dev onDisk (s := s)
  constructor
  · intro panicked
    rcases wp_error general panicked with ⟨_, full⟩ | ⟨other, _⟩
    · exact full
    · exact absurd other (by decide)
  · intro full
    have stopped : wp (balloc dev) s (fun _ _ => False) (· = .panic "balloc: out of blocks") := by
      refine wp_mono general ?_ ?_
      · rintro addr t ⟨c, _, first, _⟩
        exact first.not_full full
      · rintro e (⟨panicked, _⟩ | ⟨_, c, first, _⟩)
        · exact panicked
        · exact (first.not_full full).elim
    obtain ⟨_, error, rfl⟩ := wp_stops stopped
    exact error

/-- Allocation and release of blocks on a free map of any number of blocks, which
the disk driver accepts and which are marked in use as `mkfs` marks them. -/
theorem block_map_allocation (s : Fs) (dev : Nat) (onDisk : s.sb.MapOnDisk) (marked : s.sb.MapMarked s.block) :
    (∀ b, s.FirstFree b → b < fssize → ∃ t, balloc dev s = .ok (BitVec.ofNat 32 b, t) ∧
      (∀ c < 4096 * s.sb.mapBlocks, inUse s.sb t.block c = if c = b then true else inUse s.sb s.block c) ∧
      (∀ x < 512, t.block b x = 0) ∧ (∀ c, c ≠ b → c ≠ s.sb.bblock b → t.block c = s.block c) ∧
      t = { s with block := t.block } ∧
      ∃ u, bfree dev b t = .ok ((), u) ∧ ∀ c, c ≠ b → u.block c = s.block c) ∧
    (∀ b, s.FirstFree b → fssize ≤ b → balloc dev s = .error (.panic "incorrect blockno")) ∧
    (balloc dev s = .error (.panic "balloc: out of blocks") ↔ ∀ b < s.sb.size, inUse s.sb s.block b = true) ∧
    ∀ b < s.sb.size, (bfree dev b s = .error (.panic "freeing free block") ↔ inUse s.sb s.block b = false) ∧
      (inUse s.sb s.block b = true → ∃ t, bfree dev b s = .ok ((), t) ∧
        (∀ c, inUse s.sb t.block c = if c = b then false else inUse s.sb s.block c) ∧
        (∀ c, c ≠ s.sb.bblock b → t.block c = s.block c) ∧ t = { s with block := t.block }) := by
  refine ⟨fun b first small => ?_, fun b first large => balloc_off_disk dev onDisk first large,
    balloc_full_iff dev onDisk,
    fun b inside => ?_⟩
  · exact ⟨s.taken b, balloc_ok dev onDisk first small, fun c inMap => inUse_taken marked first inMap,
      fun x bound => taken_zero bound, fun c other away => taken_block_of_ne other away, rfl,
      bfree_taken dev onDisk marked first⟩
  · rw [bfree_eq dev onDisk inside]
    by_cases free : inUse s.sb s.block b = false
    · rw [if_pos free]
      exact ⟨⟨fun _ => free, fun _ => rfl⟩, fun used => by rw [used] at free; cases free⟩
    · rw [if_neg free]
      refine ⟨⟨fun error => (by cases error), fun clear => absurd clear free⟩, fun _ => ⟨_, rfl, ?_, ?_, rfl⟩⟩
      · exact fun c => inUse_clearMark c
      · exact fun c away => Function.update_of_ne away ..

/-- On the disk that `mkfs` makes, the first free block is behind the root directory. -/
theorem block_map_of_empty_root : (Fs.zeroed mkfsSuper emptyRoot fun _ => none).FirstFree 59 ∧
    ∃ t, balloc rootdev (Fs.zeroed mkfsSuper emptyRoot fun _ => none) = .ok (59, t) := by
  have first : (Fs.zeroed mkfsSuper emptyRoot fun _ => none).FirstFree 59 :=
    ⟨by decide, by decide +kernel, by decide +kernel⟩
  have marked : mkfsSuper.MapMarked emptyRoot := by
    intro b _ low high
    have map : b = 58 := Nat.le_antisymm (Nat.lt_succ_iff.1 high) low
    subst map
    decide +kernel
  have onDisk : mkfsSuper.MapOnDisk := by
    unfold Superblock.MapOnDisk
    decide
  have allocation := block_map_allocation (Fs.zeroed mkfsSuper emptyRoot fun _ => none) rootdev onDisk marked
  obtain ⟨t, ended, _⟩ := allocation.1 59 first (by decide)
  exact ⟨first, t, ended⟩

/-- A free map in which the block of the map itself is not marked. -/
def looseMap : Fs :=
  Fs.zeroed mkfsSuper (fun b x => if b = 58 then if x < 7 then 0xFF else if x = 7 then 3 else 0 else 0) fun _ => none

/-- `balloc` takes the block of the map and clears it. -/
theorem balloc_clears_loose_map : ∃ t, balloc rootdev looseMap = .ok (58, t) ∧
    inUse looseMap.sb t.block 58 = false := by
  have steps : decide (wp (balloc rootdev) looseMap (fun addr t => addr = 58 ∧ inUse looseMap.sb t.block 58 = false)
      fun _ => False) = true := by decide +kernel
  obtain ⟨_, t, ended, rfl, clear⟩ := ends_of_decide steps
  exact ⟨t, ended, clear⟩

end Code

end MiniOS
