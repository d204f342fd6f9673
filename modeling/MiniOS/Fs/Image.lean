import MiniOS.Fs.FreeMap

namespace MiniOS

open Lib Function

/-- A place where an inode refers to a block: an element of `addrs` or an entry of
the indirect block. -/
inductive Slot
  | addr (k : Fin 13)
  | entry (j : Fin 128)
  deriving DecidableEq

theorem direct_lt {bn : Nat} (direct : bn < 12) : bn < 13 := by omega

/-- The slot for block `bn` of a file. -/
def slotOf (bn : Nat) : Option Slot :=
  if direct : bn < 12 then some (.addr ⟨bn, direct_lt direct⟩)
  else if indirect : bn - 12 < 128 then some (.entry ⟨bn - 12, indirect⟩)
  else none

/-- The number of the block in the file. The indirect block is counted as the first of its entries. -/
def Slot.index : Slot → Nat
  | .addr k => k
  | .entry j => 12 + j

section Slots

variable (block : Nat → Block) (d : Dinode)

/-- The number in a slot, where the entries of an indirect block that is missing
count as zero. -/
def slotWord : Slot → BitVec 32
  | .addr k => d.addrs k
  | .entry j => if d.addrs 12 = 0 then 0 else load32 (block (d.addrs 12).toNat) (4 * j)

/-- The block in a slot. -/
def slotBlock (x : Slot) : Option Nat := if slotWord block d x = 0 then none else some (slotWord block d x).toNat

/-- Block `bn` of the file. -/
def fileBlock (bn : Nat) : Option Nat := (slotOf bn).bind (slotBlock block d)

/-- Byte `n` of the file, zero where no block is allocated. -/
def byteAt (n : Nat) : BitVec 8 :=
  match fileBlock block d (n / 512) with
  | none => 0
  | some b => block b (n % 512)

end Slots

/-- The blocks in the slots of the inodes that are allocated. -/
def owner (sb : Superblock) (block : Nat → Block) (inodes : Nat → Dinode) (x : Nat × Slot) : Option Nat :=
  if x.1 < sb.ninodes ∧ (inodes x.1).type ≠ 0 then slotBlock block (inodes x.1) x.2 else none

/-- No block has two owners, the free map marks the metadata and the blocks with
an owner, and the blocks that the size of a file covers are there. -/
structure Image (sb : Superblock) (block : Nat → Block) (inodes : Nat → Dinode) : Prop where
  laid : sb.Laid
  owns : Owns (owner sb block inodes) (inUse sb block) sb.dataStart sb.size
  mapped : ∀ i < sb.ninodes, (inodes i).type ≠ 0 → ∀ bn, 512 * bn < (inodes i).size.toNat →
    (fileBlock block (inodes i) bn).isSome

section Slots

variable {block block' : Nat → Block} {d d' : Dinode} {x y : Slot} {a b bn : Nat}

theorem slotOf_index (here : slotOf bn = some x) : x.index = bn := by
  simp only [slotOf] at here
  split at here
  · cases here
    rfl
  · split at here
    · cases here
      simp only [Slot.index]
      omega
    · cases here

theorem slotOf_inj (left : slotOf a = some x) (right : slotOf b = some x) : a = b :=
  (slotOf_index left).symm.trans (slotOf_index right)

theorem slotOf_ne_indirect : slotOf bn ≠ some (.addr 12) := by
  intro here
  have index := slotOf_index here
  rw [← index] at here
  exact absurd here (by decide)

theorem slotOf_isSome : (slotOf bn).isSome ↔ bn < 140 := by
  simp only [slotOf]
  split
  · exact ⟨fun _ => by omega, fun _ => rfl⟩
  · split
    · exact ⟨fun _ => by omega, fun _ => rfl⟩
    · exact ⟨nofun, fun small => by omega⟩

theorem slotBlock_eq_some : slotBlock block d x = some b ↔ slotWord block d x ≠ 0 ∧
    (slotWord block d x).toNat = b := by
  by_cases zero : slotWord block d x = 0
  · rw [slotBlock, if_pos zero]
    exact ⟨nofun, fun here => absurd zero here.1⟩
  · rw [slotBlock, if_neg zero, Option.some.injEq]
    exact ⟨fun same => ⟨zero, same⟩, fun here => here.2⟩

theorem slotBlock_eq_none : slotBlock block d x = none ↔ slotWord block d x = 0 := by
  simp [slotBlock]

theorem slotBlock_congr (same : slotWord block' d' x = slotWord block d x) :
    slotBlock block' d' x = slotBlock block d x := by
  rw [slotBlock, slotBlock, same]

/-- The slots of an inode depend on its addresses and its indirect block. -/
theorem slotWord_congr (addrs : d'.addrs = d.addrs)
    (indirect : d.addrs 12 ≠ 0 → ∀ z < 512, block' (d.addrs 12).toNat z = block (d.addrs 12).toNat z) :
    slotWord block' d' x = slotWord block d x := by
  cases x with
  | addr k => exact congrFun addrs k
  | entry j =>
    simp only [slotWord, addrs]
    by_cases zero : d.addrs 12 = 0
    · rw [if_pos zero, if_pos zero]
    · rw [if_neg zero, if_neg zero]
      exact load32_congr fun z _ above => indirect zero z (by omega)

theorem fileBlock_eq_some : fileBlock block d bn = some b ↔ ∃ x, slotOf bn = some x ∧ slotBlock block d x = some b :=
  Option.bind_eq_some_iff

/-- A block behind the direct ones needs the indirect block. -/
theorem indirect_of_fileBlock (behind : 12 ≤ bn) (here : (fileBlock block d bn).isSome) : d.addrs 12 ≠ 0 := by
  intro zero
  obtain ⟨b, here⟩ := Option.isSome_iff_exists.1 here
  obtain ⟨x, slot, held⟩ := fileBlock_eq_some.1 here
  have index := slotOf_index slot
  cases x with
  | addr k =>
    have last : k = 12 := Fin.ext (by simp only [Slot.index] at index; omega)
    exact slotOf_ne_indirect (last ▸ slot)
  | entry j => exact (slotBlock_eq_some.1 held).1 (if_pos zero)

theorem fileBlock_congr (same : ∀ x, slotBlock block' d' x = slotBlock block d x) (bn : Nat) :
    fileBlock block' d' bn = fileBlock block d bn := by
  rw [fileBlock, fileBlock, funext same]

theorem byteAt_of_some (here : fileBlock block d (a / 512) = some b) : byteAt block d a = block b (a % 512) := by
  rw [byteAt, here]

theorem byteAt_of_none (here : fileBlock block d (a / 512) = none) : byteAt block d a = 0 := by
  rw [byteAt, here]

theorem byteAt_congr (same : fileBlock block' d' (a / 512) = fileBlock block d (a / 512))
    (data : ∀ b, fileBlock block d (a / 512) = some b → ∀ z < 512, block' b z = block b z) :
    byteAt block' d' a = byteAt block d a := by
  cases here : fileBlock block d (a / 512) with
  | none => rw [byteAt_of_none here, byteAt_of_none (same.trans here)]
  | some b =>
    rw [byteAt_of_some here, byteAt_of_some (same.trans here)]
    exact data b here _ (Nat.mod_lt _ (by decide))

end Slots

section Owners

variable {sb : Superblock} {block block' : Nat → Block} {inodes inodes' : Nat → Dinode} {i j b : Nat}
  {x : Slot} {d : Dinode}

theorem owner_of_allocated (inside : i < sb.ninodes) (used : (inodes i).type ≠ 0) (x : Slot) :
    owner sb block inodes (i, x) = slotBlock block (inodes i) x := if_pos ⟨inside, used⟩

theorem owner_eq_some : owner sb block inodes (i, x) = some b ↔
    (i < sb.ninodes ∧ (inodes i).type ≠ 0) ∧ slotBlock block (inodes i) x = some b := by
  by_cases here : i < sb.ninodes ∧ (inodes i).type ≠ 0
  · rw [owner, if_pos here]
    exact ⟨fun same => ⟨here, same⟩, fun same => same.2⟩
  · rw [owner, if_neg here]
    exact ⟨nofun, fun same => absurd same.1 here⟩

theorem Image.range (image : Image sb block inodes) (inside : i < sb.ninodes) (used : (inodes i).type ≠ 0)
    (here : slotBlock block (inodes i) x = some b) : sb.dataStart ≤ b ∧ b < sb.size :=
  image.owns.range (owner_eq_some.2 ⟨⟨inside, used⟩, here⟩)

theorem Image.apart (image : Image sb block inodes) (inside : i < sb.ninodes) (used : (inodes i).type ≠ 0)
    (here : slotBlock block (inodes i) x = some b) {y : Slot} (inside' : j < sb.ninodes) (used' : (inodes j).type ≠ 0)
    (there : slotBlock block (inodes j) y = some b) : i = j ∧ x = y := by
  have one := image.owns.apart (owner_eq_some.2 ⟨⟨inside, used⟩, here⟩) (owner_eq_some.2 ⟨⟨inside', used'⟩, there⟩)
  cases one
  exact ⟨rfl, rfl⟩

theorem Image.covered (image : Image sb block inodes) (b : Nat) (low : b < sb.dataStart) : inUse sb block b = true :=
  (image.owns.exact (Nat.lt_of_lt_of_le low image.laid.data)).2 (.inl low)

/-- The slots of an allocated inode are the same in a disk that keeps the data blocks in use. -/
theorem slotBlock_congr_of_allocated (inside : i < sb.ninodes) (used : (inodes i).type ≠ 0)
    (same : ∀ b, (∃ j, owner sb block inodes (j, .addr 12) = some b) → ∀ z < 512, block' b z = block b z) (x : Slot) :
    slotBlock block' (inodes i) x = slotBlock block (inodes i) x := by
  refine slotBlock_congr (slotWord_congr rfl fun there => same _ ⟨i, ?_⟩)
  exact owner_eq_some.2 ⟨⟨inside, used⟩, slotBlock_eq_some.2 ⟨there, rfl⟩⟩

/-- The image of a disk that has the same indirect blocks and the same free map. -/
theorem Image.congr (image : Image sb block inodes)
    (same : ∀ b, (∃ j, owner sb block inodes (j, .addr 12) = some b) → ∀ z < 512, block' b z = block b z)
    (map : ∀ b < sb.size, inUse sb block' b = inUse sb block b) (nodes : ∀ i < sb.ninodes, inodes' i = inodes i) :
    Image sb block' inodes' where
  laid := image.laid
  owns := by
    refine image.owns.congr (fun ⟨i, x⟩ => ?_) map
    by_cases here : i < sb.ninodes ∧ (inodes i).type ≠ 0
    · rw [owner_of_allocated here.1 here.2, ← slotBlock_congr_of_allocated here.1 here.2 same x,
        owner_of_allocated here.1 (nodes i here.1 ▸ here.2), nodes i here.1]
    · rw [owner, owner, if_neg here]
      by_cases inside : i < sb.ninodes
      · rw [nodes i inside, if_neg here]
      · exact if_neg fun there => inside there.1
  mapped i inside used bn covered := by
    rw [nodes i inside] at used covered ⊢
    rw [fileBlock_congr (slotBlock_congr_of_allocated inside used same)]
    exact image.mapped i inside used bn covered

end Owners

section Inodes

variable {sb : Superblock} {block block' : Nat → Block} {i j : Nat}

theorem Superblock.Laid.iblock_lt (laid : sb.Laid) (inside : i < sb.ninodes) : sb.iblock i < sb.bmapstart := by
  have := laid.inodes
  rw [Superblock.iblock]
  omega

theorem dinodeOf_congr (laid : sb.Laid) (inside : i < sb.ninodes) (same : ∀ c < sb.bmapstart, block' c = block c) :
    dinodeOf sb block' i = dinodeOf sb block i := by
  rw [dinodeOf, dinodeOf, same _ (laid.iblock_lt inside)]

/-- The blocks with another inode `i`. -/
def putInode (sb : Superblock) (block : Nat → Block) (i : Nat) (d : Dinode) : Nat → Block :=
  update block (sb.iblock i) (putDinode (block (sb.iblock i)) (64 * (i % 8)) d)

theorem dinodeOf_putInode (block : Nat → Block) (i : Nat) (d : Dinode) (j : Nat) :
    dinodeOf sb (putInode sb block i d) j = update (dinodeOf sb block) i d j := by
  by_cases same : j = i
  · rw [same, update_self, dinodeOf, putInode, update_self]
    exact getDinode_putDinode ..
  · rw [update_of_ne same, dinodeOf, putInode]
    by_cases near : sb.iblock j = sb.iblock i
    · rw [near, update_self, dinodeOf, near]
      refine getDinode_congr fun x low high => putDinode_of_not_mem ?_
      simp only [Superblock.iblock] at near
      omega
    · rw [update_of_ne near, dinodeOf]

theorem putInode_of_ne {d : Dinode} {c : Nat} (other : c ≠ sb.iblock i) : putInode sb block i d c = block c :=
  update_of_ne other ..

end Inodes

end MiniOS
