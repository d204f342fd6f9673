import Mathlib.Algebra.BigOperators.Group.Finset.Basic
import Mathlib.Algebra.Order.BigOperators.Group.Finset
import MiniOS.Fs.Truncate

namespace MiniOS

open Lib Function

variable {data src : Bytes} {off : Nat}

/-- The bytes `data` with `src` written over them at `off`. -/
def overwrite (data : Bytes) (off : Nat) (src : Bytes) : Bytes := data.take off ++ src ++ data.drop (off + src.length)

theorem overwrite_length (inside : off ≤ data.length) :
    (overwrite data off src).length = max data.length (off + src.length) := by
  simp only [overwrite, List.length_append, List.length_take, List.length_drop]
  omega

theorem getElem?_overwrite (inside : off ≤ data.length) (n : Nat) :
    (overwrite data off src)[n]? = if off ≤ n ∧ n < off + src.length then src[n - off]? else data[n]? := by
  have taken : (data.take off).length = off := by
    rw [List.length_take]
    omega
  rw [overwrite, List.append_assoc]
  by_cases before : n < off
  · rw [List.getElem?_append_left (by omega), List.getElem?_take_of_lt before, if_neg (by omega)]
  · rw [List.getElem?_append_right (by omega), taken]
    by_cases written : n < off + src.length
    · rw [List.getElem?_append_left (by omega), if_pos (by omega)]
    · rw [List.getElem?_append_right (by omega), List.getElem?_drop, if_neg (by omega)]
      congr 1
      omega

/-- The bytes of a file after a write that starts inside of it. -/
theorem map_overlay {f : Nat → BitVec 8} {size : Nat} (inside : off ≤ size) :
    (List.range (max size (off + src.length))).map (overlay f off src) = overwrite
    ((List.range size).map f) off src := by
  refine List.ext_getElem? fun n => ?_
  rw [getElem?_overwrite (by simpa using inside), List.getElem?_map, List.getElem?_map]
  by_cases written : off ≤ n ∧ n < off + src.length
  · rw [if_pos written, List.getElem?_range (by omega), Option.map_some, overlay, if_pos written,
      List.getD_eq_getElem?_getD,
      List.getElem?_eq_getElem (by omega), Option.getD_some]
  · rw [if_neg written]
    by_cases old : n < size
    · rw [List.getElem?_range (by omega), List.getElem?_range old, Option.map_some, Option.map_some,
        overlay, if_neg written]
    · rw [List.getElem?_eq_none (by rw [List.length_range]; omega),
        List.getElem?_eq_none (by rw [List.length_range]; omega)]
      rfl

/-- What an inode is for its users: its type and numbers, and the bytes of the file. -/
structure Node where
  type : BitVec 16
  major : BitVec 16
  minor : BitVec 16
  nlink : BitVec 16
  data : Bytes
  deriving DecidableEq

/-- The bytes of the file. -/
def contents (block : Nat → Block) (d : Dinode) : Bytes := (List.range d.size.toNat).map (byteAt block d)

def nodeOf (block : Nat → Block) (d : Dinode) : Node := ⟨d.type, d.major, d.minor, d.nlink, contents block d⟩

/-- Inode `i` of the disk, if it is allocated. -/
def nodeAt (sb : Superblock) (block : Nat → Block) (i : Nat) : Option Node :=
  if i < sb.ninodes ∧ (dinodeOf sb block i).type ≠ 0 then some (nodeOf block (dinodeOf sb block i)) else none

/-- The number of blocks that the contents of a file need. -/
def Node.blocks (n : Node) : Nat := blocksFor ((n.data.length + 511) / 512)

/-- The number of blocks that all files need. -/
def totalBlocks (ninodes : Nat) (node : Nat → Option Node) : Nat :=
  ∑ i ∈ Finset.range ninodes, ((node i).map Node.blocks).getD 0

/-- The disk holds the given inodes. The blocks that are free and those that the
files need are at least `room`. -/
structure Disk (sb : Superblock) (block : Nat → Block) (node : Nat → Option Node) (room : Nat) : Prop where
  image : Image sb block (dinodeOf sb block)
  nodes : node = nodeAt sb block
  room : room ≤ spare (inUse sb block) sb.size + totalBlocks sb.ninodes node

section Nodes

variable {sb : Superblock} {block block' : Nat → Block} {node : Nat → Option Node} {i room : Nat}
  {n : Node} {d : Dinode} {d' : Dinode} {off : Nat} {src : Bytes}

theorem contents_length : (contents block d).length = d.size.toNat := by
  rw [contents, List.length_map, List.length_range]

theorem nodeAt_eq_some : nodeAt sb block i = some n ↔
    (i < sb.ninodes ∧ (dinodeOf sb block i).type ≠ 0) ∧ nodeOf block (dinodeOf sb block i) = n := by
  by_cases here : i < sb.ninodes ∧ (dinodeOf sb block i).type ≠ 0
  · rw [nodeAt, if_pos here, Option.some.injEq]
    exact ⟨fun same => ⟨here, same⟩, fun same => same.2⟩
  · rw [nodeAt, if_neg here]
    exact ⟨nofun, fun same => absurd same.1 here⟩

theorem nodeAt_eq_none (inside : i < sb.ninodes) : nodeAt sb block i = none ↔ (dinodeOf sb block i).type = 0 := by
  by_cases zero : (dinodeOf sb block i).type = 0
  · exact ⟨fun _ => zero, fun _ => if_neg fun both => both.2 zero⟩
  · rw [nodeAt, if_pos ⟨inside, zero⟩]
    exact ⟨nofun, fun same => absurd same zero⟩

theorem sum_update (weight : Node → Nat) (ninodes : Nat) (node : Nat → Option Node)
    (inside : i < ninodes) (new : Option Node) :
    ∑ j ∈ Finset.range ninodes, ((Function.update node i new j).map weight).getD 0 + ((node i).map weight).getD 0 =
      ∑ j ∈ Finset.range ninodes, ((node j).map weight).getD 0 + (new.map weight).getD 0 := by
  have mem : i ∈ Finset.range ninodes := Finset.mem_range.2 inside
  have rest : ∑ j ∈ (Finset.range ninodes).erase i, ((Function.update node i new j).map weight).getD 0 =
      ∑ j ∈ (Finset.range ninodes).erase i, ((node j).map weight).getD 0 :=
    Finset.sum_congr rfl fun j other => by rw [update_of_ne (Finset.ne_of_mem_erase other)]
  rw [← Finset.add_sum_erase _ _ mem, ← Finset.add_sum_erase _ _ mem, rest, update_self]
  omega

theorem totalBlocks_update (ninodes : Nat) (node : Nat → Option Node) (inside : i < ninodes) (new : Option Node) :
    totalBlocks ninodes (Function.update node i new) + ((node i).map Node.blocks).getD 0 =
      totalBlocks ninodes node + (new.map Node.blocks).getD 0 := sum_update Node.blocks ninodes node inside new

/-- A change of one inode changes one node. -/
theorem nodeAt_update (same : ∀ j < sb.ninodes, j ≠ i → dinodeOf sb block' j = dinodeOf sb block j)
    (bytes : ∀ j < sb.ninodes, j ≠ i → (dinodeOf sb block j).type ≠ 0 → ∀ n,
      byteAt block' (dinodeOf sb block j) n = byteAt block (dinodeOf sb block j) n) :
    nodeAt sb block' = Function.update (nodeAt sb block) i (nodeAt sb block' i) := by
  funext j
  by_cases here : j = i
  · rw [here, update_self]
  · rw [update_of_ne here, nodeAt, nodeAt]
    by_cases inside : j < sb.ninodes
    · rw [same j inside here]
      by_cases used : (dinodeOf sb block j).type ≠ 0
      · rw [if_pos ⟨inside, used⟩, if_pos ⟨inside, used⟩, nodeOf, nodeOf, contents, contents,
          List.map_congr_left fun n _ => bytes j inside here used n]
      · rw [if_neg fun both => used both.2, if_neg fun both => used both.2]
    · rw [if_neg fun both => inside both.1, if_neg fun both => inside both.1]

/-- A free inode is no node, and its blocks are free. -/
theorem Disk.erase (disk : Disk sb block node room) (inside : i < sb.ninodes) (used : (dinodeOf sb block i).type ≠ 0)
    (erases : Erases sb block i block') : Disk sb block' (Function.update node i none) room := by
  have gone : nodeAt sb block' i = none := (nodeAt_eq_none inside).2 erases.type
  have nodes := nodeAt_update erases.inodes erases.others
  rw [gone, ← disk.nodes] at nodes
  refine ⟨erases.image, nodes.symm, ?_⟩
  have total := totalBlocks_update sb.ninodes node inside none
  have here : node i = some (nodeOf block (dinodeOf sb block i)) := by
    rw [disk.nodes]
    exact nodeAt_eq_some.2 ⟨⟨inside, used⟩, rfl⟩
  have count := erases.spare
  have room := disk.room
  rw [here] at total
  simp only [Option.map_some, Option.map_none, Option.getD_some, Option.getD_none, Node.blocks, nodeOf,
    contents_length] at total
  omega

/-- The image with other numbers in an inode, or with a new inode that has no blocks. -/
theorem Image.put {inodes : Nat → Dinode} (image : Image sb block inodes) (inside : i < sb.ninodes)
    (slots : ∀ x, slotBlock block d' x = owner sb block inodes (i, x)) (used : d'.type ≠ 0)
    (mapped : ∀ bn, 512 * bn < d'.size.toNat → (fileBlock block d' bn).isSome) :
    Image sb block (Function.update inodes i d') where
  laid := image.laid
  owns := by
    refine image.owns.congr (fun ⟨j, x⟩ => ?_) fun _ _ => rfl
    by_cases here : j = i
    · subst here
      rw [owner_of_allocated inside (by rwa [update_self]), update_self, slots]
    · simp only [owner, update_of_ne here]
  mapped j bound type bn covered := by
    by_cases here : j = i
    · subst here
      rw [update_self] at covered ⊢
      exact mapped bn covered
    · rw [update_of_ne here] at type covered ⊢
      exact image.mapped j bound type bn covered

section

variable (disk : Disk sb block node room)
include disk

/-- Inode `i` of the disk is now the node `n`. -/
theorem Disk.change (image : Image sb block' (dinodeOf sb block'))
    (same : ∀ j < sb.ninodes, j ≠ i → dinodeOf sb block' j = dinodeOf sb block j)
    (others : ∀ j < sb.ninodes, j ≠ i → (dinodeOf sb block j).type ≠ 0 → ∀ n,
      byteAt block' (dinodeOf sb block j) n = byteAt block (dinodeOf sb block j) n)
    (self : nodeAt sb block' i = some n)
    (enough : room ≤ spare (inUse sb block') sb.size + totalBlocks sb.ninodes (Function.update node i (some n))) :
    Disk sb block' (Function.update node i (some n)) room := by
  have nodes := nodeAt_update same others
  rw [self, ← disk.nodes] at nodes
  exact ⟨image, nodes.symm, enough⟩

/-- The data blocks are those of `block'`, and inode `i` is written as `d`. -/
theorem Disk.put (inside : i < sb.ninodes)
    (image : Image sb block' (Function.update (dinodeOf sb block) i d)) (used : d.type ≠ 0)
    (low : ∀ c < sb.bmapstart, block' c = block c)
    (others : ∀ j < sb.ninodes, j ≠ i → (dinodeOf sb block j).type ≠ 0 → ∀ n,
      byteAt block' (dinodeOf sb block j) n = byteAt block (dinodeOf sb block j) n)
    (enough : room ≤ spare (inUse sb block') sb.size + totalBlocks sb.ninodes
      (Function.update node i (some (nodeOf block' d)))) :
    Disk sb (putInode sb block' i d) (Function.update node i (some (nodeOf block' d))) room := by
  have below := image.laid.iblock_lt inside
  have start := sb.bmapstart_lt
  have inodes : ∀ j < sb.ninodes, dinodeOf sb (putInode sb block' i d) j =
      Function.update (dinodeOf sb block) i d j := by
    intro j bound
    rw [dinodeOf_putInode]
    by_cases here : j = i
    · rw [here, update_self, update_self]
    · rw [update_of_ne here, update_of_ne here, dinodeOf_congr image.laid bound low]
  have self : dinodeOf sb (putInode sb block' i d) i = d := by
    rw [inodes i inside, update_self]
  have data : ∀ b, sb.dataStart ≤ b → putInode sb block' i d b = block' b := fun b above => putInode_of_ne (by omega)
  have map : ∀ b < sb.size, inUse sb (putInode sb block' i d) b = inUse sb block' b :=
    fun b bound => inUse_congr image.laid (putInode_of_ne (by omega)) bound
  have indirect : ∀ b, (∃ j, owner sb block' (Function.update (dinodeOf sb block) i d) (j, .addr 12) = some b) →
    ∀ z < 512,
      putInode sb block' i d b z = block' b z := fun b ⟨j, there⟩ z _ => by rw [data b (image.owns.range there).1]
  have bytes : ∀ j < sb.ninodes, (Function.update (dinodeOf sb block) i d j).type ≠ 0 → ∀ n,
      byteAt (putInode sb block' i d) (Function.update (dinodeOf sb block) i d j) n =
        byteAt block' (Function.update (dinodeOf sb block) i d j) n := by
    intro j bound type n
    refine byteAt_congr (fileBlock_congr (slotBlock_congr_of_allocated bound type indirect) _) fun b here z _ => ?_
    obtain ⟨x, -, held⟩ := fileBlock_eq_some.1 here
    rw [data b (image.range bound type held).1]
  refine disk.change (image.congr indirect map inodes) (fun j bound other => ?_)
    (fun j bound other type n => ?_) ?_ ?_
  · rw [inodes j bound, update_of_ne other]
  · have after := bytes j bound (by rwa [update_of_ne other]) n
    rw [update_of_ne other] at after
    exact after.trans (others j bound other type n)
  · have mine := bytes i inside (by rwa [update_self])
    rw [update_self] at mine
    refine nodeAt_eq_some.2 ⟨⟨inside, by rwa [self]⟩, ?_⟩
    rw [self, nodeOf, nodeOf, contents, contents, List.map_congr_left fun n _ => mine n]
  · rwa [spare_congr map]

/-- The numbers of an inode change. -/
theorem Disk.update (inside : i < sb.ninodes) (used : (dinodeOf sb block i).type ≠ 0)
    (type : d.type ≠ 0) (size : d.size = (dinodeOf sb block i).size) (addrs : d.addrs = (dinodeOf sb block i).addrs) :
    Disk sb (putInode sb block i d) (Function.update node i (some (nodeOf block d))) room := by
  have slots : ∀ x, slotBlock block d x = slotBlock block (dinodeOf sb block i) x :=
    fun x => slotBlock_congr (slotWord_congr addrs fun _ _ _ => rfl)
  refine disk.put inside (disk.image.put inside (fun x => ?_) type fun bn covered => ?_) type (fun _ _ => rfl)
    (fun _ _ _ _ _ => rfl) ?_
  · rw [slots, owner_of_allocated inside used]
  · rw [fileBlock_congr slots]
    exact disk.image.mapped i inside used bn (size ▸ covered)
  · have total := totalBlocks_update sb.ninodes node inside (some (nodeOf block d))
    have here : node i = some (nodeOf block (dinodeOf sb block i)) := by
      rw [disk.nodes]
      exact nodeAt_eq_some.2 ⟨⟨inside, used⟩, rfl⟩
    have room := disk.room
    rw [here] at total
    simp only [Option.map_some, Option.getD_some, Node.blocks, nodeOf, contents_length, size] at total ⊢
    omega

/-- A free inode gets a type. -/
theorem Disk.alloc {type : BitVec 16} (inside : i < sb.ninodes) (free : node i = none)
    (real : type ≠ 0) : Disk sb (putInode sb block i (freshDinode type))
    (Function.update node i (some ⟨type, 0, 0, 0, []⟩)) room := by
  rw [disk.nodes, nodeAt_eq_none inside] at free
  have slots : ∀ x, slotBlock block (freshDinode type) x = none := by
    intro x
    rw [slotBlock_eq_none]
    cases x <;> rfl
  refine disk.put inside (disk.image.put inside (fun x => ?_) real fun bn covered =>
    absurd covered (Nat.not_lt_zero _)) real
    (fun _ _ => rfl) (fun _ _ _ _ _ => rfl) ?_
  · rw [slots, owner, if_neg fun both => both.2 free]
  · have total := totalBlocks_update sb.ninodes node inside (some (nodeOf block (freshDinode type)))
    have room := disk.room
    rw [show node i = none by rw [disk.nodes, nodeAt_eq_none inside, free]] at total
    simp only [Option.map_none, Option.getD_none] at total
    omega

end

theorem totalBlocks_set (ninodes : Nat) (node : Nat → Option Node) (inside : i < ninodes) (n : Node) :
    totalBlocks ninodes (Function.update node i (some n)) = totalBlocks ninodes
    (Function.update node i none) + n.blocks := by
  have total := totalBlocks_update ninodes (Function.update node i none) inside (some n)
  rwa [update_idem, update_self] at total

/-- The node of a file after a write. -/
def Node.write (n : Node) (off : Nat) (src : Bytes) : Node := { n with data := overwrite n.data off src }

theorem Node.write_blocks (inside : off ≤ n.data.length) :
    (n.write off src).blocks = blocksFor (max ((n.data.length + 511) / 512) ((off + src.length + 511) / 512)) := by
  rw [Node.blocks, Node.write, overwrite_length inside]
  congr 1
  omega

/-- Bytes are written inside of a file. -/
theorem Disk.write_inside (disk : Disk sb block node room) (inside : i < sb.ninodes)
    (used : (dinodeOf sb block i).type ≠ 0) (start : off + src.length ≤ (dinodeOf sb block i).size.toNat)
    (rewrites : Rewrites sb block (dinodeOf sb block) i block' (dinodeOf sb block i))
    (bytes : ∀ n, byteAt block' (dinodeOf sb block i) n = overlay (byteAt block (dinodeOf sb block i)) off src n)
    (enough : room ≤ spare (inUse sb block') sb.size +
      totalBlocks sb.ninodes (Function.update node i (some ((nodeOf block (dinodeOf sb block i)).write off src)))) :
    Disk sb block' (Function.update node i (some ((nodeOf block (dinodeOf sb block i)).write off src))) room := by
  have inodes : ∀ j < sb.ninodes, dinodeOf sb block' j = dinodeOf sb block j :=
    fun j bound => dinodeOf_congr disk.image.laid bound rewrites.low
  have image := rewrites.image
  rw [update_eq_self] at image
  refine disk.change (image.congr (fun _ _ _ _ => rfl) (fun _ _ => rfl) inodes)
    (fun j bound _ => inodes j bound) rewrites.others ?_ enough
  refine nodeAt_eq_some.2 ⟨⟨inside, by rwa [inodes i inside]⟩, ?_⟩
  have data : contents block' (dinodeOf sb block i) = overwrite (contents block (dinodeOf sb block i)) off src := by
    rw [contents, contents, ← map_overlay (by omega), Nat.max_eq_left start]
    exact List.map_congr_left fun n _ => bytes n
  rw [inodes i inside, nodeOf, nodeOf, Node.write, data]

/-- Bytes are written over the end of a file. -/
theorem Disk.write_growing (disk : Disk sb block node room) (inside : i < sb.ninodes)
    (used : (dinodeOf sb block i).type ≠ 0) (start : off ≤ (dinodeOf sb block i).size.toNat)
    (grows : (dinodeOf sb block i).size.toNat < off + src.length) (small : off + src.length < 2 ^ 32)
    (rewrites : Rewrites sb block (dinodeOf sb block) i block' d')
    (bytes : ∀ n, byteAt block' d' n = overlay (byteAt block (dinodeOf sb block i)) off src n)
    (mapped : ∀ bn < (off + src.length + 511) / 512, (fileBlock block' d' bn).isSome)
    (enough : room ≤ spare (inUse sb block') sb.size +
      totalBlocks sb.ninodes (Function.update node i (some ((nodeOf block (dinodeOf sb block i)).write off src)))) :
    Disk sb (putInode sb block' i { d' with size := BitVec.ofNat 32 (off + src.length) })
      (Function.update node i (some ((nodeOf block (dinodeOf sb block i)).write off src))) room := by
  have size : (BitVec.ofNat 32 (off + src.length)).toNat = off + src.length := by
    rw [BitVec.toNat_ofNat, Nat.mod_eq_of_lt small]
  have type : d'.type ≠ 0 := by
    rw [rewrites.fields]
    exact used
  have new : nodeOf block' { d' with size := BitVec.ofNat 32 (off + src.length) } =
      (nodeOf block (dinodeOf sb block i)).write off src := by
    have data : contents block' { d' with size := BitVec.ofNat 32 (off + src.length) } =
        overwrite (contents block (dinodeOf sb block i)) off src := by
      rw [contents, contents, ← map_overlay start, Nat.max_eq_right (by omega), size]
      exact List.map_congr_left fun n _ => bytes n
    rw [nodeOf, data, rewrites.fields]
    rfl
  have image : Image sb block' (Function.update (dinodeOf sb block) i
      { d' with size := BitVec.ofNat 32 (off + src.length) }) := by
    rw [← update_idem]
    refine rewrites.image.put inside (fun x => ?_) type fun bn covered =>
      mapped bn (by simp only [size] at covered; omega)
    rw [owner_of_allocated inside (by rwa [update_self]), update_self]
    rfl
  rw [← new] at enough ⊢
  exact disk.put inside image type rewrites.low rewrites.others enough

end Nodes

end MiniOS
