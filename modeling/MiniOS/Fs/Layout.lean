import Mathlib.Algebra.GroupWithZero.Nat
import MiniOS.Log.Header

namespace MiniOS

abbrev Bytes := List (BitVec 8)

/-- `struct superblock`. -/
structure Superblock where
  size : Nat
  nblocks : Nat
  ninodes : Nat
  nlog : Nat
  logstart : Nat
  inodestart : Nat
  bmapstart : Nat

instance addrs_neZero : NeZero 13 := ⟨by decide⟩

/-- `struct dinode`. -/
structure Dinode where
  type : BitVec 16
  major : BitVec 16
  minor : BitVec 16
  nlink : BitVec 16
  size : BitVec 32
  addrs : Fin 13 → BitVec 32

/-- `T_DIR`, `T_FILE` and `T_DEV`. -/
def tDir : BitVec 16 := 1
def tFile : BitVec 16 := 2
def tDev : BitVec 16 := 3

/-- `IBLOCK`, the block with inode `inum`. -/
def Superblock.iblock (sb : Superblock) (inum : Nat) : Nat := inum / 8 + sb.inodestart

/-- `BBLOCK`, the block of the free map with the bit of block `b`. -/
def Superblock.bblock (sb : Superblock) (b : Nat) : Nat := b / 4096 + sb.bmapstart

/-- The first block behind the free map, which `mkfs` calls `nmeta`. -/
def Superblock.dataStart (sb : Superblock) : Nat := sb.bmapstart + (sb.size / 4096 + 1)

/-- `FSSIZE`, the number of blocks of the disk. -/
def fssize : Nat := 1000

/-- The order of the parts of the disk that `mkfs` sets up. -/
structure Superblock.Laid (sb : Superblock) : Prop where
  inodes : sb.inodestart + (sb.ninodes / 8 + 1) ≤ sb.bmapstart
  data : sb.dataStart ≤ sb.size
  disk : sb.size ≤ fssize
  root : 1 < sb.ninodes

def load16 (mem : Block) (a : Nat) : BitVec 16 := mem (a + 1) ++ mem a

def store16 (mem : Block) (a : Nat) (v : BitVec 16) : Block :=
  fun x => if x = a then v.extractLsb' 0 8 else if x = a + 1 then v.extractLsb' 8 8 else mem x

/-- The copy of an array of words to offset `a`. -/
def storeWords {n : Nat} (mem : Block) (a : Nat) (words : Fin n → BitVec 32) : Block :=
  fun x => if h : a ≤ x ∧ x < a + 4 * n then
    (words ⟨(x - a) / 4, by omega⟩).extractLsb' (8 * ((x - a) % 4)) 8 else mem x

/-- The copy of `src` to offset `a`. -/
def memmove (mem : Block) (a : Nat) (src : Bytes) : Block :=
  fun x => if a ≤ x ∧ x < a + src.length then src.getD (x - a) 0 else mem x

/-- The `n` bytes from offset `a` on. -/
def bytesAt (mem : Block) (a n : Nat) : Bytes := (List.range n).map fun i => mem (a + i)

/-- The inode at offset `a` of an inode block. -/
def getDinode (mem : Block) (a : Nat) : Dinode where
  type := load16 mem a
  major := load16 mem (a + 2)
  minor := load16 mem (a + 4)
  nlink := load16 mem (a + 6)
  size := load32 mem (a + 8)
  addrs k := load32 mem (a + 12 + 4 * k)

/-- The assignments of `iupdate` to the inode at offset `a`. -/
def putDinode (mem : Block) (a : Nat) (d : Dinode) : Block :=
  let mem := store16 mem a d.type
  let mem := store16 mem (a + 2) d.major
  let mem := store16 mem (a + 4) d.minor
  let mem := store16 mem (a + 6) d.nlink
  let mem := store32 mem (a + 8) d.size
  storeWords mem (a + 12) d.addrs

/-- The inode that `memset` and the assignment of the type leave in `ialloc`. -/
def freshDinode (type : BitVec 16) : Dinode where
  type := type
  major := 0
  minor := 0
  nlink := 0
  size := 0
  addrs _ := 0

/-- Inode `inum` as it stands in the blocks of the disk. -/
def dinodeOf (sb : Superblock) (block : Nat → Block) (inum : Nat) : Dinode :=
  getDinode (block (sb.iblock inum)) (64 * (inum % 8))

/-- The bit of block `b` in the free map. -/
def inUse (sb : Superblock) (block : Nat → Block) (b : Nat) : Bool :=
  (block (sb.bblock b) (b % 4096 / 8)).getLsbD (b % 8)

section Words

variable {mem : Block} {a x : Nat} {v : BitVec 16} {n : Nat}

theorem store16_of_not_mem (outside : x < a ∨ a + 2 ≤ x) : store16 mem a v x = mem x := by
  simp only [store16]
  rw [if_neg (by omega), if_neg (by omega)]

theorem load16_store16 (mem : Block) (a : Nat) (v : BitVec 16) : load16 (store16 mem a v) a = v := by
  have bytes : load16 (store16 mem a v) a = v.extractLsb' 8 8 ++ v.extractLsb' 0 8 := by
    simp [load16, store16]
  rw [bytes]
  refine BitVec.eq_of_getLsbD_eq fun i bound => ?_
  simp only [BitVec.getLsbD_append, BitVec.getLsbD_extractLsb']
  by_cases first : i < 8
  · simp [first]
  · simp [first, show i - 8 < 8 by omega, show 8 + (i - 8) = i by omega]

theorem load16_congr {mem' : Block} (same : ∀ x, a ≤ x → x < a + 2 → mem' x = mem x) :
    load16 mem' a = load16 mem a := by
  simp only [load16]
  rw [same (a + 1) (by omega) (by omega), same a (by omega) (by omega)]

theorem storeWords_of_not_mem {words : Fin n → BitVec 32} (outside : x < a ∨ a + 4 * n ≤ x) :
    storeWords mem a words x = mem x := dif_neg (by omega)

theorem load16_store16_ne (apart : x + 2 ≤ a ∨ a + 2 ≤ x) : load16 (store16 mem a v) x = load16 mem x :=
  load16_congr fun _ _ _ => store16_of_not_mem (by omega)

theorem load16_store32_ne {v : BitVec 32} (apart : x + 2 ≤ a ∨ a + 4 ≤ x) :
    load16 (store32 mem a v) x = load16 mem x :=
  load16_congr fun _ _ _ => store32_of_not_mem (by omega)

theorem load16_storeWords_ne {words : Fin n → BitVec 32} (apart : x + 2 ≤ a ∨ a + 4 * n ≤ x) :
    load16 (storeWords mem a words) x = load16 mem x :=
  load16_congr fun _ _ _ => storeWords_of_not_mem (by omega)

theorem load32_storeWords_ne {words : Fin n → BitVec 32} (apart : x + 4 ≤ a ∨ a + 4 * n ≤ x) :
    load32 (storeWords mem a words) x = load32 mem x :=
  load32_congr fun _ _ _ => storeWords_of_not_mem (by omega)

theorem storeWords_byte {words : Fin n → BitVec 32} (k : Fin n) {j : Nat} (byte : j < 4) :
    storeWords mem a words (a + 4 * k + j) = store32 mem (a + 4 * k) (words k) (a + 4 * k + j) := by
  have index : (a + 4 * k + j - a) / 4 = k := by omega
  have place : (a + 4 * k + j - a) % 4 = j := by omega
  have last := k.isLt
  simp only [storeWords]
  rw [dif_pos (by omega)]
  simp only [index, place, store32, Fin.eta]
  rcases (by omega : j = 0 ∨ j = 1 ∨ j = 2 ∨ j = 3) with rfl | rfl | rfl | rfl <;> simp

theorem load32_storeWords (words : Fin n → BitVec 32) (k : Fin n) :
    load32 (storeWords mem a words) (a + 4 * k) = words k := by
  refine Eq.trans (load32_congr fun x low high => ?_) (load32_store32 mem (a + 4 * k) (words k))
  obtain ⟨j, rfl⟩ := Nat.exists_eq_add_of_le low
  exact storeWords_byte k (by omega)

end Words

section Dinodes

variable {mem : Block} {a x : Nat} {d : Dinode}

theorem putDinode_of_not_mem (outside : x < a ∨ a + 64 ≤ x) : putDinode mem a d x = mem x := by
  simp only [putDinode]
  rw [storeWords_of_not_mem (by omega), store32_of_not_mem (by omega), store16_of_not_mem (by omega),
    store16_of_not_mem (by omega), store16_of_not_mem (by omega), store16_of_not_mem (by omega)]

theorem getDinode_congr {mem' : Block} (same : ∀ x, a ≤ x → x < a + 64 → mem' x = mem x) :
    getDinode mem' a = getDinode mem a := by
  simp only [getDinode, Dinode.mk.injEq]
  refine ⟨load16_congr ?_, load16_congr ?_, load16_congr ?_, load16_congr ?_, load32_congr ?_,
    funext fun k => load32_congr ?_⟩
  all_goals
    intro x low high
    exact same x (by omega) (by omega)

/-- An inode that was written is read back. -/
theorem getDinode_putDinode (mem : Block) (a : Nat) (d : Dinode) : getDinode (putDinode mem a d) a = d := by
  have type : load16 (putDinode mem a d) a = d.type := by
    simp only [putDinode]
    rw [load16_storeWords_ne (by omega), load16_store32_ne (by omega), load16_store16_ne (by omega),
      load16_store16_ne (by omega), load16_store16_ne (by omega), load16_store16]
  have major : load16 (putDinode mem a d) (a + 2) = d.major := by
    simp only [putDinode]
    rw [load16_storeWords_ne (by omega), load16_store32_ne (by omega), load16_store16_ne (by omega),
      load16_store16_ne (by omega), load16_store16]
  have minor : load16 (putDinode mem a d) (a + 4) = d.minor := by
    simp only [putDinode]
    rw [load16_storeWords_ne (by omega), load16_store32_ne (by omega), load16_store16_ne (by omega), load16_store16]
  have nlink : load16 (putDinode mem a d) (a + 6) = d.nlink := by
    simp only [putDinode]
    rw [load16_storeWords_ne (by omega), load16_store32_ne (by omega), load16_store16]
  have size : load32 (putDinode mem a d) (a + 8) = d.size := by
    simp only [putDinode]
    rw [load32_storeWords_ne (by omega), load32_store32]
  have addrs : (fun k : Fin 13 => load32 (putDinode mem a d) (a + 12 + 4 * k)) = d.addrs :=
    funext fun k => load32_storeWords d.addrs k
  simp only [getDinode, type, major, minor, nlink, size, addrs]

end Dinodes

end MiniOS
