import MiniOS.Fs.Nodes

namespace MiniOS

open Lib Function

variable {sb : Superblock} {block : Nat → Block}

section Inodes

variable {s : Fs} {k l : Fin ninode} {e : Inode}

theorem setInode_icache_self : (s.setInode k e).icache k = e := update_self ..

theorem setInode_icache_of_ne (other : l ≠ k) : (s.setInode k e).icache l = s.icache l := update_of_ne other ..

end Inodes

/-- Entry `k` has inode `i` as it stands on the disk. -/
structure Fs.Has (s : Fs) (k : Fin ninode) (i : Nat) : Prop where
  number : (s.icache k).inum = i
  inside : i < s.sb.ninodes
  same : (s.icache k).d = dinodeOf s.sb s.block i
  type : (s.icache k).d.type ≠ 0

/-- The room of a disk is what is free and what the files need. -/
theorem Image.disk (image : Image sb block (dinodeOf sb block)) :
    Disk sb block (nodeAt sb block) (spare (inUse sb block) sb.size + totalBlocks sb.ninodes (nodeAt sb block)) :=
  ⟨image, rfl, Nat.le_refl _⟩

/-- No file is larger than `MAXFILE` blocks. -/
theorem Disk.small {node : Nat → Option Node} {i room : Nat} {n : Node}
    (disk : Disk sb block node room) (there : node i = some n) : n.data.length ≤ 140 * 512 := by
  rw [disk.nodes] at there
  obtain ⟨⟨inside, type⟩, rfl⟩ := nodeAt_eq_some.1 there
  rw [nodeOf, contents_length]
  by_contra large
  obtain ⟨b, here⟩ := Option.isSome_iff_exists.1 (disk.image.mapped i inside type 140 (by omega))
  obtain ⟨x, slot, -⟩ := fileBlock_eq_some.1 here
  exact absurd (slotOf_isSome.1 (Option.isSome_iff_exists.2 ⟨x, slot⟩)) (by decide)

section Specs

variable {s : Fs} {k : Fin ninode} {i : Nat} {node : Nat → Option Node} {room : Nat} {n : Node} {err : Stop → Prop}
  {off : Nat} {src : Bytes}

theorem Fs.Has.used (has : s.Has k i) : (dinodeOf s.sb s.block i).type ≠ 0 := has.same ▸ has.type

theorem Fs.Has.stands (has : s.Has k i) : nodeAt s.sb s.block i = some (nodeOf s.block (s.icache k).d) := by
  rw [has.same]
  exact nodeAt_eq_some.2 ⟨⟨has.inside, has.used⟩, rfl⟩

theorem Fs.Has.size (has : s.Has k i) (there : nodeAt s.sb s.block i = some n) :
    (s.icache k).d.size.toNat = n.data.length := by
  cases has.stands.symm.trans there
  rw [nodeOf, contents_length]

theorem Fs.Has.kind (has : s.Has k i) (there : nodeAt s.sb s.block i = some n) : (s.icache k).d.type = n.type := by
  cases has.stands.symm.trans there
  rfl

/-- `ilock` reads an inode that is not valid from the disk. -/
theorem iload_spec (laid : s.sb.Laid) (inside : (s.icache k).inum < s.sb.ninodes) :
    wp (iload k) s (fun _ t => (s.icache k).valid = true ∧ t = s ∨
        (s.icache k).valid ≠ true ∧ (dinodeOf s.sb s.block (s.icache k).inum).type ≠ 0 ∧
          t = s.setInode k { s.icache k with d := dinodeOf s.sb s.block (s.icache k).inum, valid := true })
      fun e => e = .panic "ilock: no type" ∧ (s.icache k).valid ≠ true ∧
      (dinodeOf s.sb s.block (s.icache k).inum).type = 0 := by
  have low := laid.iblock_lt inside
  have data := laid.data
  have disk := laid.disk
  have map := s.sb.bmapstart_lt
  refine wp_inode k (wp_ite (fun valid => .inl ⟨valid, rfl⟩) fun invalid =>
    wp_get_seq (wp_bread (by omega) (wp_modify_seq ?_)))
  change wp (panicIf ((dinodeOf s.sb s.block (s.icache k).inum).type = 0) _) _ _ _
  exact wp_panicIf (fun zero => ⟨rfl, invalid, zero⟩) fun some => .inr ⟨invalid, some, rfl⟩

/-- The numbers of an entry change in the cache and on the disk. -/
theorem update_spec (laid : s.sb.Laid) (inside : (s.icache k).inum < s.sb.ninodes) (f : Dinode → Dinode) :
    wp (do modifyDinode k f
           iupdate k) s
      (fun _ t => t = s.stored k (putInode s.sb s.block (s.icache k).inum (f (s.icache k).d))
        (f (s.icache k).d)) err := by
  refine wp_modify_seq (wp_mono (iupdate_spec laid ?_) ?_ fun _ => id)
  · rwa [setInode_icache_self]
  · rintro _ _ rfl
    rw [setInode_icache_self]
    rfl

/-- `readi` of a file or directory returns its bytes. -/
theorem readi_spec (image : Image s.sb s.block (dinodeOf s.sb s.block)) (has : s.Has k i)
    (there : nodeAt s.sb s.block i = some n) (file : n.type ≠ tDev) (off m : Nat) :
    wp (readi k off m) s (fun r t => r = (if off > n.data.length ∨ (off + m) % 2 ^ 32 < off then none
      else some ((n.data.drop off).take m)) ∧ t = s) err := by
  cases has.stands.symm.trans there
  have size : (contents s.block (s.icache k).d).length = (s.icache k).d.size.toNat := contents_length
  have same := has.same
  simp only [nodeOf, size] at file ⊢
  refine wp_inode k ?_
  rw [if_neg file]
  refine wp_ite (fun wrong => ⟨by rw [if_pos wrong], rfl⟩) fun right => ?_
  rw [if_neg right]
  refine wp_seq (readLoop_spec image same has.inside has.used (by split <;> omega) fun bn above below => ?_) ?_
  · refine image.mapped i has.inside has.used bn ?_
    rw [← same]
    split at above <;> omega
  · rintro _ s ⟨rfl, rfl⟩
    refine ⟨congrArg some (List.ext_getElem? fun j => ?_), rfl⟩
    rw [List.getElem?_map, List.getElem?_take, List.getElem?_drop, contents, List.getElem?_map, ← same]
    by_cases short : j < (if off + m > (s.icache k).d.size.toNat then (s.icache k).d.size.toNat - off else m)
    · rw [List.getElem?_range short, if_pos (by split at short <;> omega),
        List.getElem?_range (by split at short <;> omega)]
      rfl
    · rw [List.getElem?_eq_none (by rw [List.length_range]; omega)]
      split
      · rw [List.getElem?_eq_none (by rw [List.length_range]; split at short <;> omega)]
        rfl
      · rfl

/-- `writei` that starts behind the end or would make the file too large. -/
theorem writei_refused_spec (has : s.Has k i) (there : nodeAt s.sb s.block i = some n) (file : n.type ≠ tDev)
    (wrong : n.data.length < off ∨ (off + src.length) % 2 ^ 32 < off ∨ 140 * 512 < off + src.length) :
    wp (writei k src off) s (fun r t => r = none ∧ t = s) err := by
  refine wp_inode k ?_
  rw [has.kind there, if_neg file, has.size there]
  refine wp_ite (fun _ => ⟨rfl, rfl⟩) fun right => ?_
  rw [if_pos (by omega)]
  exact ⟨rfl, rfl⟩

/-- `writei` of bytes that start inside of the file puts them on the disk, together
with the inode if it has changed. -/
theorem writei_spec (disk : Disk s.sb s.block node room) (has : s.Has k i) (there : node i = some n)
    (file : n.type ≠ tDev) (start : off ≤ n.data.length) (small : off + src.length ≤ 140 * 512) :
    wp (writei k src off) s (fun r t => r = some src.length ∧ ∃ block, t = s.stored k block (dinodeOf s.sb block i) ∧
        Disk s.sb block (update node i (some (n.write off src))) room ∧
        ∀ j < s.sb.ninodes, j ≠ i → dinodeOf s.sb block j = dinodeOf s.sb s.block j)
      fun e => e = .panic "balloc: out of blocks" ∧
        room < totalBlocks s.sb.ninodes (update node i (some (n.write off src))) := by
  have nodes := disk.nodes
  have size := has.size (nodes ▸ there)
  have type := has.kind (nodes ▸ there)
  have number := has.number
  have inside := has.inside
  have laid := disk.image.laid
  have size' : (dinodeOf s.sb s.block i).size.toNat = n.data.length := has.same ▸ size
  have node' : nodeOf s.block (dinodeOf s.sb s.block i) = n := by
    rw [nodes] at there
    exact (nodeAt_eq_some.1 there).2
  have blocks : totalBlocks s.sb.ninodes (update node i (some (n.write off src))) =
      totalBlocks s.sb.ninodes (update node i none) +
        blocksFor (max ((n.data.length + 511) / 512) ((off + src.length + 511) / 512)) := by
    rw [totalBlocks_set _ _ inside, Node.write_blocks start]
  have rest : totalBlocks s.sb.ninodes node =
      totalBlocks s.sb.ninodes (update node i none) + blocksFor ((n.data.length + 511) / 512) := by
    have total := totalBlocks_set s.sb.ninodes node inside n
    rwa [← there, update_eq_self] at total
  have enough := disk.room
  refine wp_inode k ?_
  rw [type, if_neg file, size, if_neg (by omega), if_neg (by omega)]
  refine wp_seq (wp_mono (writeLoop_spec disk.image has.same inside has.used
    (room - totalBlocks s.sb.ninodes (update node i none)) Nat.le.refl small
    (fun bn below => disk.image.mapped i inside has.used bn (by rw [size']; omega))
    (m := (n.data.length + 511) / 512) (by omega) (by omega)) (fun _ _ => id) fun e full =>
      ⟨full.1, by rw [blocks]; omega⟩) ?_
  rintro _ _ ⟨block, d, rfl, rewrites, bytes, mapped, old, fits⟩
  have fields := rewrites.fields
  have fits : room ≤ spare (inUse s.sb block) s.sb.size +
      totalBlocks s.sb.ninodes (update node i (some ((nodeOf s.block (dinodeOf s.sb s.block i)).write off src))) := by
    rw [node', blocks]
    omega
  refine wp_seq (wp_inode k (wp_ite (fun grows => ?_) fun stays => ?_)) fun _ t after => ⟨rfl, after⟩
  · rw [Fs.stored_icache] at grows
    have longer : n.data.length < off + src.length := by
      have size'' : d.size.toNat = n.data.length := by rw [fields, ← size']
      rw [← size'']
      exact grows.2
    have after := disk.write_growing inside has.used (by omega) (by omega) (by omega) rewrites bytes
      (fun bn below => mapped bn (by omega)) fits
    refine wp_modify_seq (wp_mono (iupdate_spec laid ?_) ?_ fun _ => id)
    · rw [setInode_icache_self, Fs.stored_icache]
      exact number.symm ▸ inside
    · rintro _ _ rfl
      rw [node'] at after
      refine ⟨putInode s.sb block i { d with size := BitVec.ofNat 32 (off + src.length) }, ?_, after,
        fun j bound other => ?_⟩
      · rw [setInode_icache_self, Fs.stored_icache, dinodeOf_putInode, update_self]
        simp only [Fs.stored, Fs.setInode, update_idem, number]
      · rw [dinodeOf_putInode, update_of_ne other, dinodeOf_congr laid bound rewrites.low]
  · rw [Fs.stored_icache] at stays
    have size'' : d.size.toNat = n.data.length := by rw [fields, ← size']
    have shorter : off + src.length ≤ n.data.length := by
      by_contra longer
      exact stays ⟨by omega, by simp only [size'']; omega⟩
    obtain rfl := old (by omega)
    have after := disk.write_inside inside has.used (by omega) rewrites bytes fits
    rw [node'] at after
    exact ⟨block, by rw [dinodeOf_congr laid inside rewrites.low], after, fun j bound _ =>
      dinodeOf_congr laid bound rewrites.low⟩

/-- `ialloc` gives a type to the first free inode and gets it. -/
theorem ialloc_spec (laid : s.sb.Laid) {dev : Nat} {type : BitVec 16} {post : Fin ninode → Fs → Prop}
    (found : ∀ i < s.sb.ninodes, (dinodeOf s.sb s.block i).type = 0 →
      ((List.range' 1 (s.sb.ninodes - 1)).find? fun i => (dinodeOf s.sb s.block i).type = 0) = some i →
      wp (iget dev i) { s with block := putInode s.sb s.block i (freshDinode type) } post err)
    (none : ((List.range' 1 (s.sb.ninodes - 1)).find? fun i => (dinodeOf s.sb s.block i).type = 0) = none →
      err (.panic "ialloc: no inodes")) :
    wp (ialloc dev type) s post err := by
  have data := laid.data
  have disk := laid.disk
  have map := s.sb.bmapstart_lt
  have loop : ∀ inums : List Nat, (∀ i ∈ inums, i < s.sb.ninodes) →
      (∀ i < s.sb.ninodes, (dinodeOf s.sb s.block i).type = 0 →
        (inums.find? fun i => (dinodeOf s.sb s.block i).type = 0) = some i →
        wp (iget dev i) { s with block := putInode s.sb s.block i (freshDinode type) } post err) →
      ((inums.find? fun i => (dinodeOf s.sb s.block i).type = 0) = .none → err (.panic "ialloc: no inodes")) →
      wp (iallocFrom dev type inums) s post err := by
    intro inums
    induction inums with
    | nil => exact fun _ _ none => none rfl
    | cons i rest ih =>
      intro bounds found none
      have inside := bounds i (.head _)
      have low := laid.iblock_lt inside
      refine wp_get_seq (wp_bread (by omega) ?_)
      change wp (if (dinodeOf s.sb s.block i).type = 0 then _ else _) _ _ _
      refine wp_ite (fun zero => wp_modify_seq ?_) fun some => ?_
      · exact found i inside zero (List.find?_cons_of_pos (by simpa using zero))
      · rw [List.find?_cons_of_neg (by simpa using some)] at none
        refine ih (fun i' mem => bounds i' (.tail _ mem)) (fun i' inside zero first => ?_) none
        exact found i' inside zero (by rwa [List.find?_cons_of_neg (by simpa using some)])
  refine wp_get_seq (loop _ (fun i mem => ?_) found none)
  have := List.mem_range'_1.1 mem
  omega

end Specs

end MiniOS
