import MiniOS.Fs.DirMap
import MiniOS.Fs.FileWrite
import MiniOS.Fs.CreateCall

namespace MiniOS

open Lib Relation Function

/-- The entry of the inode cache that `iget` returns. -/
def Fs.slotFor (s : Fs) (dev inum : Nat) : Option (Fin ninode) :=
  ((List.finRange ninode).find? fun ip => (s.icache ip).ref > 0 ∧ (s.icache ip).dev = dev ∧
    (s.icache ip).inum = inum).or
    ((List.finRange ninode).find? fun ip => (s.icache ip).ref = 0)

/-- Only unused entries of the inode cache may have changed. -/
def Fs.Unchanged (s t : Fs) : Prop :=
  ∃ icache, t = { s with icache := icache } ∧ ∀ l, 0 < (s.icache l).ref ∨ 0 < (icache l).ref → icache l = s.icache l

/-- The directory with the entry at `off` cleared. -/
def Node.clear (n : Node) (off : Nat) : Node := n.write off (Dirent.toBytes ⟨0, List.replicate dirsiz 0⟩)

section Nodes

variable {n : Node} {name : Bytes} {inum j off : Nat}

/-- An entry is written to a directory. -/
theorem Node.IsDir.put {x : Nat} (de : Dirent) (dir : n.IsDir) (name : de.name.length = 14)
    (start : x ≤ (entries n.data).length) :
    (n.write (16 * x) de.toBytes).IsDir ∧ entries (n.write (16 * x) de.toBytes).data = putEntry
    (entries n.data) x de := by
  have whole := dir.whole
  have length := Dirent.toBytes_length name
  rw [entries_length] at start
  refine ⟨⟨dir.type, ?_⟩, entries_write name start⟩
  rw [Node.write, overwrite_length (by omega), length]
  omega

/-- A new name has its entry in a free place, and the names stay distinct. -/
theorem Node.IsDir.link (dir : n.IsDir) (distinct : DistinctNames (entries n.data))
    (absent : lookup n.data name = none) (real : 0 < inum) (short : inum < 2 ^ 16) :
    (n.link name inum).IsDir ∧ DistinctNames (entries (n.link name inum).data) ∧
      ∀ name', lookup (n.link name inum).data name' =
        if key name' = key name then some (inum, freeOff n.data) else lookup n.data name' := by
  obtain ⟨x, place, start, free⟩ := freeOff_entry n.data dir.whole
  rw [Node.link, place]
  have wide : (strncpy name dirsiz).length = 14 := strncpy_length ..
  obtain ⟨dir', put⟩ := Node.IsDir.put ⟨BitVec.ofNat 16 inum, strncpy name dirsiz⟩ dir wide start
  have distinct' : DistinctNames
      (entries (n.write (16 * x) (Dirent.toBytes ⟨BitVec.ofNat 16 inum, strncpy name dirsiz⟩)).data) := by
    rw [put]
    refine distinct.put start fun y de apart here used _ same => ?_
    rw [key_strncpy] at same
    exact (lookup_eq_none_iff dir.whole).1 absent y de here used same
  have number : (BitVec.ofNat 16 inum).toNat = inum := by
    rw [BitVec.toNat_ofNat]
    omega
  have used : BitVec.ofNat 16 inum ≠ 0 := by
    intro zero
    rw [zero] at number
    exact absurd number (by simp; omega)
  refine ⟨dir', distinct', fun name' => ?_⟩
  have found := lookup_put dir.whole dir'.whole distinct distinct' start put free used name'
  rwa [key_strncpy, number] at found

/-- A name is removed, and the names stay distinct. -/
theorem Node.IsDir.clear (dir : n.IsDir) (distinct : DistinctNames (entries n.data))
    (found : lookup n.data name = some (j, off)) :
    (n.clear off).IsDir ∧ DistinctNames (entries (n.clear off).data) ∧
      ∀ name', lookup (n.clear off).data name' = if key name' = key name then none else lookup n.data name' := by
  obtain ⟨x, de, rfl, here, used, same, _⟩ := (lookup_iff dir.whole distinct).1 found
  have start : x ≤ (entries n.data).length := (List.getElem?_eq_some_iff.1 here).1.le
  obtain ⟨dir', put⟩ := Node.IsDir.put ⟨0, List.replicate dirsiz 0⟩ dir rfl start
  have distinct' : DistinctNames (entries (n.clear (16 * x)).data) := by
    rw [Node.clear, put]
    exact distinct.put start fun _ _ _ _ _ zero => absurd rfl zero
  refine ⟨dir', distinct', fun name' => ?_⟩
  rw [same]
  exact lookup_clear dir.whole dir'.whole distinct distinct' put rfl here used name'

end Nodes

/-- The directory `i` with the node `n`, loaded and locked in entry `k`. -/
structure Fs.DirAt (s : Fs) (k : Fin ninode) (i : Nat) (n : Node) : Prop where
  image : Image s.sb s.block (dinodeOf s.sb s.block)
  has : s.Has k i
  node : nodeAt s.sb s.block i = some n
  dir : n.IsDir
  busy : 0 < (s.icache k).ref
  locked : (s.icache k).locked = true

section Visit

variable {s : Fs} {k l : Fin ninode} {dev j : Nat} {err : Stop → Prop}

theorem iget_spec (dev j : Nat) : wp (iget dev j) s (fun l t => s.slotFor dev j = some l ∧
      (0 < (s.icache l).ref ∧ t = s.setInode l { s.icache l with ref := (s.icache l).ref + 1 } ∨
        (s.icache l).ref = 0 ∧ t = s.setInode l { s.icache l with dev := dev, inum := j, ref := 1, valid := false }))
    fun e => e = .panic "iget: no inodes" ∧ s.slotFor dev j = none := by
  rw [Fs.slotFor]
  refine wp_get_seq ?_
  split
  · rename_i l found
    have here := List.find?_some found
    simp only [decide_eq_true_eq] at here
    rw [found]
    exact ⟨rfl, .inl ⟨here.1, rfl⟩⟩
  · rename_i absent
    rw [absent]
    split
    · rename_i full
      rw [full]
      exact ⟨rfl, rfl⟩
    · rename_i l free
      have none := List.find?_some free
      simp only [decide_eq_true_eq] at none
      rw [free]
      exact ⟨rfl, .inr ⟨none, rfl⟩⟩

/-- `iput` of an inode that it does not free. -/
theorem iput_kept_spec (free : (s.icache l).locked = false)
    (kept : ¬((s.icache l).valid = true ∧ (s.icache l).d.nlink = 0 ∧ (s.icache l).ref = 1)) :
    wp (iput l) s (fun _ t => t = s.setInode l { s.icache l with ref := (s.icache l).ref - 1 }) err := by
  refine wp_seq (acquiresleep_free free) ?_
  rintro _ _ rfl
  have stays : wp (iputLocked l) (s.setInode l { s.icache l with locked := true })
      (fun _ t => t = s.setInode l { s.icache l with locked := true }) err := by
    refine wp_inode l ?_
    rw [setInode_icache_self]
    exact wp_ite (fun freed => absurd freed kept) fun _ => rfl
  refine wp_seq stays ?_
  rintro _ _ rfl
  refine wp_modify_seq ?_
  rw [modifyInode, wp_modify]
  simp [Fs.setInode, ← free]

/-- A process that holds the lock of an inode waits for ever in `iput`. -/
theorem acquiresleep_waits (taken : (s.icache l).locked = true) (stops : err .deadlock) :
    wp (acquiresleep l) s (fun _ _ => False) err := by
  refine wp_inode l (wp_ite (fun _ => stops) fun free => absurd taken free)

/-- A reference that `iget` takes is dropped again, and the inode is not freed. -/
theorem iget_iput (dev j : Nat) : wp (do let ip ← iget dev j
                                         iput ip) s (fun _ t => s.Unchanged t)
    fun _ => ¬∃ l, s.slotFor dev j = some l ∧ (s.icache l).locked = false := by
  refine wp_seq (wp_mono (iget_spec dev j) (fun _ _ => id) fun e none => ?_) ?_
  · rw [none.2]
    rintro ⟨l, wrong, _⟩
    cases wrong
  · rintro l t ⟨slot, after⟩
    rw [slot]
    by_cases free : (s.icache l).locked = false
    · rcases after with ⟨busy, rfl⟩ | ⟨unused, rfl⟩
      · refine wp_mono (iput_kept_spec (by rw [setInode_icache_self, free]) ?_) ?_ fun _ => id
        · rw [setInode_icache_self]
          exact fun freed => absurd freed.2.2 (by dsimp only; omega)
        · rintro _ _ rfl
          refine ⟨s.icache, ?_, fun _ _ => rfl⟩
          simp [Fs.setInode]
      · refine wp_mono (iput_kept_spec (by rw [setInode_icache_self, free]) ?_) ?_ fun _ => id
        · rw [setInode_icache_self]
          exact fun freed => by cases freed.1
        · rintro _ _ rfl
          rw [setInode_setInode, setInode_icache_self]
          refine ⟨_, rfl, fun l' used => ?_⟩
          by_cases same : l' = l
          · subst same
            rw [update_self] at used
            exact absurd used (by simp [unused])
          · exact update_of_ne same ..
    · have taken : (t.icache l).locked = true := by
        rcases after with ⟨_, rfl⟩ | ⟨_, rfl⟩ <;> rw [setInode_icache_self] <;> exact eq_true_of_ne_false free
      refine wp_seq (acquiresleep_waits taken ?_) fun _ _ => False.elim
      rintro ⟨l', same, free'⟩
      cases same
      exact free free'

end Visit

namespace Fs.DirAt

variable {s t : Fs} {k : Fin ninode} {i j off inum : Nat} {n : Node} {name : Bytes}
  {de : Dirent} {block : Nat → Block}

/-- The disk and the entry of the directory are all that matters. -/
theorem congr (at' : s.DirAt k i n) (disk : t.sb = s.sb ∧ t.block = s.block)
    (number : (t.icache k).inum = (s.icache k).inum) (d : (t.icache k).d = (s.icache k).d)
    (busy : 0 < (t.icache k).ref) (locked : (t.icache k).locked = (s.icache k).locked) :
    t.DirAt k i n := by
  obtain ⟨sb, block⟩ := disk
  exact {
    image := by rw [sb, block]; exact at'.image
    has := ⟨number.trans at'.has.number, by rw [sb]; exact at'.has.inside, by rw [d, sb, block]; exact at'.has.same,
      by rw [d]; exact at'.has.type⟩
    node := by rw [sb, block]; exact at'.node
    dir := at'.dir
    busy := busy
    locked := locked.trans at'.locked }

theorem unchanged (at' : s.DirAt k i n) (same : s.Unchanged t) : t.DirAt k i n := by
  obtain ⟨icache, rfl, entries⟩ := same
  have entry : ({ s with icache := icache } : Fs).icache k = s.icache k := entries k (.inl at'.busy)
  refine at'.congr ⟨rfl, rfl⟩ ?_ ?_ ?_ ?_ <;> rw [entry]
  exact at'.busy

/-- The state after the directory has been written. -/
theorem stored {m : Node} (at' : s.DirAt k i n) (image : Image s.sb block (dinodeOf s.sb block))
    (nodes : nodeAt s.sb block = update (nodeAt s.sb s.block) i (some m)) (dir : m.IsDir) :
    (s.stored k block (dinodeOf s.sb block i)).DirAt k i m := by
  have there : nodeAt s.sb block i = some m := by rw [nodes, update_self]
  have entry : (s.stored k block (dinodeOf s.sb block i)).icache k = { s.icache k with d := dinodeOf s.sb block i } :=
    update_self ..
  exact {
    image := image
    has := ⟨entry ▸ at'.has.number, at'.has.inside, entry ▸ rfl, entry ▸ (nodeAt_eq_some.1 there).1.2⟩
    node := there
    dir := dir
    busy := entry ▸ at'.busy
    locked := entry ▸ at'.locked }

/-- An entry is written inside of a directory or right behind its end. -/
theorem writeDirent (message : String) (at' : s.DirAt k i n) (name : de.name.length = 14)
    (start : off ≤ n.data.length) :
    wp (writeDirent k de off message) s (fun _ t => ∃ block, t = s.stored k block (dinodeOf s.sb block i) ∧
        Image s.sb block (dinodeOf s.sb block) ∧
        nodeAt s.sb block = update (nodeAt s.sb s.block) i (some (n.write off de.toBytes)))
      fun _ => ¬(off + 16 ≤ 140 * 512 ∧ s.Room n off de.toBytes) := by
  have length := Dirent.toBytes_length name
  have file : n.type ≠ tDev := by
    rw [at'.dir.type]
    decide
  have total := totalBlocks_update s.sb.ninodes (nodeAt s.sb s.block) at'.has.inside (some (n.write off de.toBytes))
  rw [at'.node, Option.map_some, Option.getD_some, Option.map_some, Option.getD_some] at total
  by_cases small : off + 16 ≤ 140 * 512
  · refine wp_seq (wp_mono (writei_spec at'.image.disk at'.has at'.node file start (by rw [length]; exact small))
      (fun _ _ => id) ?_) ?_
    · rintro _ ⟨-, lacks⟩ ⟨-, room⟩
      rw [Fs.Room] at room
      omega
    · rintro _ _ ⟨rfl, block, rfl, disk, _⟩
      refine wp_panicIf (fun short => absurd ?_ short) fun _ => ⟨block, rfl, disk.image, disk.nodes.symm⟩
      rw [length]
  · refine wp_seq (writei_refused_spec at'.has at'.node file (by rw [length]; omega)) ?_
    rintro _ _ ⟨rfl, rfl⟩
    exact wp_panicIf (fun _ fits => small fits.1) fun wrong => (wrong fun same => by cases same).elim

/-- What `dirlink` needs: for a name that is there an entry of the inode cache whose lock is
free, for a new name a place in the directory and on the disk. -/
def CanLink (s : Fs) (k : Fin ninode) (n : Node) (name : Bytes) (inum : Nat) : Prop :=
  match lookup n.data name with
  | some (j, _) => ∃ l, s.slotFor (s.icache k).dev j = some l ∧ (s.icache l).locked = false
  | none =>
    freeOff n.data + 16 ≤ 140 * 512 ∧
    s.Room n (freeOff n.data) (Dirent.toBytes ⟨BitVec.ofNat 16 inum, strncpy name dirsiz⟩)

/-- `dirlink` finds the name and changes nothing, or it writes a new entry. -/
theorem dirlink (at' : s.DirAt k i n) (name : Bytes) (inum : Nat) : wp (dirlink k name inum) s
    (fun r t => (∃ found, lookup n.data name = some found ∧ r = -1 ∧ s.Unchanged t) ∨
      lookup n.data name = none ∧ r = 0 ∧ ∃ block, t = s.stored k block (dinodeOf s.sb block i) ∧
      Image s.sb block (dinodeOf s.sb block) ∧
        nodeAt s.sb block = update (nodeAt s.sb s.block) i (some (n.link name inum)))
    fun _ => ¬CanLink s k n name inum := by
  rw [MiniOS.dirlink, wp_bind]
  refine dirlookup_spec at'.image at'.has at'.node at'.dir (fun absent => ?_) fun j off found => ?_
  · rw [CanLink, absent]
    refine wp_inode k ?_
    rw [at'.has.size at'.node]
    refine wp_seq (dirlinkFrom_spec at'.image at'.has at'.node at'.dir _) ?_
    rintro _ _ ⟨rfl, rfl⟩
    refine wp_seq (at'.writeDirent _ (strncpy_length ..) (freeOff_le at'.dir.whole)) ?_
    exact fun _ t written => .inr ⟨rfl, rfl, written⟩
  · rw [CanLink, found]
    have visit := iget_iput (s := s) (s.icache k).dev j
    rw [wp_bind] at visit
    exact wp_mono visit (fun ip t after => wp_seq after fun _ u same => .inl ⟨(j, off), rfl, rfl, same⟩) fun _ => id

/-- An entry that is found is inside of the directory. -/
theorem inside_of_lookup (at' : s.DirAt k i n) (found : lookup n.data name = some (j, off)) :
    off + 16 ≤ n.data.length := by
  obtain ⟨x, -, below, rfl⟩ := (mem_direntOffs at'.dir.whole).1 (lookup_eq_some found).1
  have := at'.dir.whole
  omega

/-- The entry of a name is cleared. -/
theorem clear (message : String) (at' : s.DirAt k i n) (found : lookup n.data name = some (j, off)) : ∃ block,
    MiniOS.writeDirent k ⟨0, List.replicate dirsiz 0⟩ off message s = .ok
    ((), s.stored k block (dinodeOf s.sb block i)) ∧
      Image s.sb block (dinodeOf s.sb block) ∧ nodeAt s.sb block = update (nodeAt s.sb s.block) i
        (some (n.clear off)) := by
  have inside := at'.inside_of_lookup found
  have small := at'.image.disk.small at'.node
  have name : (⟨0, List.replicate dirsiz 0⟩ : Dirent).name.length = 14 := rfl
  obtain ⟨_, _, ended, block, rfl, image, nodes⟩ := wp_ends <|
    wp_mono (at'.writeDirent message name (by omega : off ≤ n.data.length)) (fun _ _ => id) fun e lacks => by
      refine lacks ⟨by omega, ?_⟩
      rw [Fs.Room, View.write_dirent_blocks name inside]
      exact Nat.le_add_left ..
  exact ⟨block, ended, image, nodes⟩

end Fs.DirAt

/-- A call of `dirlink` that returns, a removal as in `sys_unlink`, or anything that leaves the
directory alone. -/
inductive EntryStep (k : Fin ninode) (i : Nat) : Fs → Fs → Prop
  | link {s t : Fs} {name : Bytes} {inum : Nat} {r : Int} : 0 < inum → inum < 2 ^ 16 →
      dirlink k name inum s = .ok (r, t) →
      EntryStep k i s t
  | unlink {s t u : Fs} {name : Bytes} {ip : Fin ninode} {off : Nat} : dirlookup k name s = .ok (some (ip, off), u) →
      writeDirent k ⟨0, List.replicate dirsiz 0⟩ off "unlink: writei" u = .ok ((), t) → EntryStep k i s t
  | other {s t : Fs} {n : Node} : s.DirAt k i n → t.DirAt k i n → EntryStep k i s t

section Runs

variable {s t : Fs} {k : Fin ninode} {i : Nat} {n : Node} {name : Bytes} {off inum : Nat}

section

variable (at' : s.DirAt k i n)
include at'

/-- `iget` leaves a locked directory alone. -/
theorem Fs.DirAt.iget (dev j : Nat) : wp (iget dev j) s (fun _ t => t.DirAt k i n) fun _ => True := by
  refine wp_mono (iget_spec dev j) ?_ fun _ _ => trivial
  rintro l t ⟨-, after⟩
  by_cases same : l = k
  · subst same
    rcases after with ⟨-, rfl⟩ | ⟨unused, -⟩
    · refine at'.congr ⟨rfl, rfl⟩ ?_ ?_ ?_ ?_ <;> rw [setInode_icache_self]
      exact Nat.succ_pos _
    · exact absurd at'.busy (by omega)
  · obtain ⟨e, rfl⟩ : ∃ e, t = s.setInode l e := by rcases after with ⟨_, rfl⟩ | ⟨_, rfl⟩ <;> exact ⟨_, rfl⟩
    refine at'.congr ⟨rfl, rfl⟩ ?_ ?_ ?_ ?_ <;> rw [setInode_icache_of_ne (Ne.symm same)]
    exact at'.busy

theorem Fs.DirAt.dirlookup {ip : Fin ninode}
    (looked : dirlookup k name s = .ok (some (ip, off), t)) :
    ∃ j, lookup n.data name = some (j, off) ∧ t.DirAt k i n := by
  have spec : wp (MiniOS.dirlookup k name) s (fun r t => ∀ ip off, r = some (ip, off) →
    ∃ j, lookup n.data name = some (j, off) ∧
      t.DirAt k i n) fun _ => True := by
    refine dirlookup_spec at'.image at'.has at'.node at'.dir (fun _ => nofun) fun j off found => ?_
    refine wp_mono (at'.iget _ j) (fun ip t after _ _ same => ?_) fun _ => id
    cases same
    exact ⟨j, found, after⟩
  exact wp_ok spec looked ip off rfl

theorem Fs.DirAt.step (distinct : DistinctNames (entries n.data)) (step : EntryStep k i s t) :
    ∃ m, t.DirAt k i m ∧ DistinctNames (entries m.data) := by
  cases step with
  | link real short returns =>
    rcases wp_ok (at'.dirlink _ _) returns with ⟨_, _, _, same⟩ | ⟨absent, _, block, rfl, image, nodes⟩
    · exact ⟨n, at'.unchanged same, distinct⟩
    · obtain ⟨dir, distinct', _⟩ := at'.dir.link distinct absent real short
      exact ⟨_, at'.stored image nodes dir, distinct'⟩
  | unlink looked cleared =>
    obtain ⟨j, found, at''⟩ := at'.dirlookup looked
    obtain ⟨block, writes, image, nodes⟩ := at''.clear "unlink: writei" found
    cases writes.symm.trans cleared
    obtain ⟨dir, distinct', _⟩ := at'.dir.clear distinct found
    exact ⟨_, at''.stored image nodes dir, distinct'⟩
  | other before after =>
    cases before.node.symm.trans at'.node
    exact ⟨n, after, distinct⟩

theorem Fs.DirAt.run (distinct : DistinctNames (entries n.data)) (run : ReflTransGen (EntryStep k i) s t) :
    ∃ m, t.DirAt k i m ∧ DistinctNames (entries m.data) := by
  induction run with
  | refl => exact ⟨n, at', distinct⟩
  | tail _ step ih =>
    obtain ⟨m, at'', distinct'⟩ := ih
    exact at''.step distinct' step

/-- The directory `i`, which is locked in entry `k`, is a map on names of 14 characters. -/
structure IsMap (t : Fs) (k : Fin ninode) (i : Nat) (m : Node) : Prop where
  distinct : DistinctNames (entries m.data)
  lookups : ∀ name, dirlookup k name t = match lookup m.data name with
    | none => .ok (none, t)
    | some (j, off) => (iget (t.icache k).dev j t).map fun out => (some (out.1, off), out.2)
  links : ∀ name inum, 0 < inum → inum < 2 ^ 16 → Fs.DirAt.CanLink t k m name inum →
    ∃ r u, dirlink k name inum t = .ok (r, u) ∧ (r = -1 ↔ ∃ de ∈ entries m.data, de.inum ≠ 0 ∧
      key de.name = key name) ∧
      (r = -1 → t.Unchanged u) ∧ (r ≠ -1 → r = 0 ∧ ∃ m', u.DirAt k i m' ∧ ∀ name',
        (lookup m'.data name').map Prod.fst = if key name' =
        key name then some inum else (lookup m.data name').map Prod.fst)
  removes : ∀ name j off, lookup m.data name = some (j, off) →
    ∃ u m', writeDirent k ⟨0, List.replicate dirsiz 0⟩ off "unlink: writei" t = .ok ((), u) ∧ u.DirAt k i m' ∧
      ∀ name', lookup m'.data name' = if key name' = key name then none else lookup m.data name'
  components : ∀ path path' buf buf' e, lookup m.data (nameBuffer buf (component path)) = some e →
    (lookup m.data (nameBuffer buf' (component path')) = some e ↔
      (component path').take 14 = (component path).take 14)

theorem Fs.DirAt.dirlookup_eq (name : Bytes) : MiniOS.dirlookup k name s = match lookup n.data name with
    | none => .ok (none, s)
    | some (j, off) => (MiniOS.iget (s.icache k).dev j s).map fun out => (some (out.1, off), out.2) := by
  refine wp_eq (dirlookup_spec at'.image at'.has at'.node at'.dir (fun absent => ?_) fun j off found => ?_)
  · rw [absent]
  · rw [found, wp]
    dsimp only
    cases MiniOS.iget (s.icache k).dev j s <;> rfl

/-- Two path elements name one entry if and only if they agree on 14 characters. -/
theorem Fs.DirAt.components {path path' buf buf' : Bytes} {e : Nat × Nat} (distinct : DistinctNames (entries n.data))
    (found : lookup n.data (nameBuffer buf (component path)) = some e) :
    lookup n.data (nameBuffer buf' (component path')) = some e ↔
    (component path').take 14 = (component path).take 14 := by
  have visible := component_visible path
  have visible' := component_visible path'
  rw [← key_of_visible visible, ← key_of_visible visible', ← key_nameBuffer buf visible,
    ← key_nameBuffer buf' visible']
  constructor
  · intro found'
    obtain ⟨x, de, place, here, _, same, _⟩ := (lookup_iff at'.dir.whole distinct).1 found
    obtain ⟨y, de', place', here', _, same', _⟩ := (lookup_iff at'.dir.whole distinct).1 found'
    have index : y = x := by omega
    subst index
    rw [same, same', Option.some.inj (here.symm.trans here')]
  · intro same
    rw [lookup_congr n.data same, found]

theorem Fs.DirAt.dirlink_ends (can : CanLink s k n name inum) :
    ∃ r u, MiniOS.dirlink k name inum s = .ok (r, u) ∧
    ((∃ found, lookup n.data name = some found ∧ r = -1 ∧ s.Unchanged u) ∨
      lookup n.data name = none ∧ r = 0 ∧ ∃ block, u = s.stored k block (dinodeOf s.sb block i) ∧
      Image s.sb block (dinodeOf s.sb block) ∧
        nodeAt s.sb block = update (nodeAt s.sb s.block) i (some (n.link name inum))) :=
  wp_ends (wp_mono (at'.dirlink name inum) (fun _ _ => id) fun _ cannot => cannot can)

theorem Fs.DirAt.links (distinct : DistinctNames (entries n.data)) (real : 0 < inum)
    (short : inum < 2 ^ 16) (can : CanLink s k n name inum) :
    ∃ r u, MiniOS.dirlink k name inum s = .ok (r, u) ∧
    (r = -1 ↔ ∃ de ∈ entries n.data, de.inum ≠ 0 ∧ key de.name = key name) ∧
      (r = -1 → s.Unchanged u) ∧ (r ≠ -1 → r = 0 ∧ ∃ m, u.DirAt k i m ∧ ∀ name',
        (lookup m.data name').map Prod.fst = if key name' =
        key name then some inum else (lookup n.data name').map Prod.fst) := by
  obtain ⟨r, u, returns, after⟩ := at'.dirlink_ends can
  refine ⟨r, u, returns, ?_⟩
  rcases after with ⟨⟨j, off⟩, found, rfl, same⟩ | ⟨absent, rfl, block, rfl, image, nodes⟩
  · obtain ⟨x, de, _, here, used, equal, _⟩ := (lookup_iff at'.dir.whole distinct).1 found
    exact ⟨⟨fun _ => ⟨de, List.mem_of_getElem? here, used, equal.symm⟩, fun _ => rfl⟩, fun _ => same,
      fun wrong => absurd rfl wrong⟩
  · obtain ⟨dir, _, lookups⟩ := at'.dir.link distinct absent real short
    refine ⟨⟨nofun, ?_⟩, nofun, fun _ => ⟨rfl, _, at'.stored image nodes dir, fun name' => ?_⟩⟩
    · rintro ⟨de, member, used, equal⟩
      obtain ⟨x, here⟩ := List.mem_iff_getElem?.mp member
      exact absurd equal.symm ((lookup_eq_none_iff at'.dir.whole).1 absent x de here used)
    · rw [lookups]
      split <;> rfl

end

/-- Every run of `dirlink` and of removals leaves a map, in which `dirlink` adds its name, a
removal takes its name away, and path elements that agree on 14 characters are the same name. -/
theorem directory_is_map (start : s.DirAt k i n) (distinct : DistinctNames (entries n.data))
    (run : ReflTransGen (EntryStep k i) s t) :
    ∃ m, t.DirAt k i m ∧ IsMap t k i m := by
  obtain ⟨m, at', distinct'⟩ := start.run distinct run
  refine ⟨m, at', ⟨distinct', at'.dirlookup_eq, fun _ _ => at'.links distinct', fun name j off found => ?_, ?_⟩⟩
  · obtain ⟨block, writes, image, nodes⟩ := at'.clear "unlink: writei" found
    obtain ⟨dir, _, lookups⟩ := at'.dir.clear distinct' found
    exact ⟨_, _, writes, at'.stored image nodes dir, lookups⟩
  · exact fun _ _ _ _ _ found => at'.components distinct' found

/-- `dirlink` of a name whose inode the caller has locked waits for ever. -/
theorem Fs.DirAt.dirlink_waits {j : Nat} {l : Fin ninode} (at' : s.DirAt k i n)
    (found : lookup n.data name = some (j, off)) (slot : s.slotFor (s.icache k).dev j = some l)
    (taken : (s.icache l).locked = true) :
    MiniOS.dirlink k name inum s = .error .deadlock := by
  refine wp_eq ?_
  rw [MiniOS.dirlink, wp_bind]
  refine dirlookup_spec at'.image at'.has at'.node at'.dir (fun absent => ?_) fun j' off' found' => ?_
  · rw [found] at absent
    cases absent
  · cases found.symm.trans found'
    refine wp_mono (iget_spec _ j) ?_ fun e none => ?_
    · rintro l' t ⟨slot', after⟩
      cases slot.symm.trans slot'
      have locked : (t.icache l).locked = true := by
        rcases after with ⟨_, rfl⟩ | ⟨_, rfl⟩ <;> rw [setInode_icache_self] <;> exact taken
      exact wp_seq (wp_seq (acquiresleep_waits locked rfl) fun _ _ => False.elim) fun _ _ => False.elim
    · rw [slot] at none
      cases none.2

end Runs

/-- The file system with an empty root directory, which is locked in the first entry of the cache. -/
def rootLocked : Fs :=
  (Fs.zeroed mkfsSuper emptyRoot fun _ => none).setInode 0 ⟨rootdev, 1, 1, true, true, dinodeOf mkfsSuper emptyRoot 1⟩

theorem rootLocked_node : nodeAt mkfsSuper emptyRoot 1 = some ⟨tDir, 0, 0, 1, []⟩ := by decide +kernel

theorem rootLocked_dirAt : rootLocked.DirAt 0 1 ⟨tDir, 0, 0, 1, []⟩ where
  image := emptyRoot_wellFormed.image
  has := ⟨rfl, by decide, rfl, (nodeAt_eq_some.1 rootLocked_node).1.2⟩
  node := rootLocked_node
  dir := ⟨rfl, rfl⟩
  busy := by decide
  locked := rfl

theorem rootLocked_canLink (name : Bytes) (inum : Nat) :
    Fs.DirAt.CanLink rootLocked 0 ⟨tDir, 0, 0, 1, []⟩ name inum := by
  have free : inUse mkfsSuper emptyRoot 60 = false := by decide +kernel
  have length : (Dirent.toBytes ⟨BitVec.ofNat 16 inum, strncpy name dirsiz⟩).length = 16 :=
    Dirent.toBytes_length (strncpy_length ..)
  rw [Fs.DirAt.CanLink, lookup_nil]
  refine ⟨by decide, ?_⟩
  rw [Fs.Room, Node.write_blocks (by decide), length]
  exact Nat.le_add_right_of_le (spare_pos (b := 60) (by decide) free)

theorem distinct_nil : DistinctNames (entries []) := by
  intro x y de de' here
  rw [entries_nil] at here
  cases here

/-- Two names are put into an empty directory, and the first of them is taken out again. -/
theorem directory_is_map_two_names :
    ∃ (t u v : Fs) (m : Node) (off : Nat), dirlink 0 [0x61] 5 rootLocked = .ok (0, t) ∧
    dirlink 0 [0x62] 6 t = .ok (0, u) ∧
    writeDirent 0 ⟨0, List.replicate dirsiz 0⟩ off "unlink: writei" u = .ok ((), v) ∧ v.DirAt 0 1 m ∧
    lookup m.data [0x61] = none ∧ (lookup m.data [0x62]).map Prod.fst = some 6 := by
  obtain ⟨r, t, first, after⟩ := rootLocked_dirAt.dirlink_ends (rootLocked_canLink [0x61] 5)
  have run : ReflTransGen (EntryStep 0 1) rootLocked t := .single (.link (by decide) (by decide) first)
  rcases after with ⟨_, found, _⟩ | ⟨absent, rfl, block, rfl, image, nodes⟩
  · rw [lookup_nil] at found
    cases found
  · obtain ⟨dir, _, _⟩ := rootLocked_dirAt.dir.link distinct_nil absent (by decide : 0 < 5) (by decide)
    have at₁ := rootLocked_dirAt.stored image nodes dir
    obtain ⟨m₁, here, map₁⟩ := directory_is_map rootLocked_dirAt distinct_nil run
    cases here.node.symm.trans at₁.node
    have can : Fs.DirAt.CanLink (rootLocked.stored 0 block (dinodeOf rootLocked.sb block 1)) 0
        ((⟨tDir, 0, 0, 1, []⟩ : Node).link [0x61] 5) [0x62] 6 := by
      have missing : lookup ((⟨tDir, 0, 0, 1, []⟩ : Node).link [0x61] 5).data [0x62] = none := by decide
      rw [Fs.DirAt.CanLink, missing]
      exact ⟨by decide, Nat.le_add_left_of_le (by decide)⟩
    obtain ⟨r, u, second, found, _, linked⟩ := map₁.links [0x62] 6 (by decide) (by decide) can
    obtain ⟨rfl, m₂, at₂, lookups⟩ := linked fun old => absurd (found.mp old) (by decide)
    obtain ⟨m, there, map₂⟩ := directory_is_map rootLocked_dirAt distinct_nil
      (run.tail (.link (by decide) (by decide) second))
    cases there.node.symm.trans at₂.node
    obtain ⟨⟨j, off⟩, looked, _⟩ := Option.map_eq_some_iff.mp ((lookups [0x61]).trans (by decide : _ = some 5))
    obtain ⟨v, m₃, cleared, at₃, left⟩ := map₂.removes [0x61] j off looked
    refine ⟨_, u, v, m₃, off, first, second, cleared, at₃, ?_, ?_⟩
    · rw [left, if_pos rfl]
    · rw [left, if_neg (by decide), lookups, if_pos rfl]

/-- In a directory with its entry ".", `dirlink` of the name "." does not return -1: it waits for
the lock of the directory, which its caller holds. -/
theorem dirlink_dot_deadlock : ∃ (u : Fs) (m : Node), rootLocked.DirAt 0 1 ⟨tDir, 0, 0, 1, []⟩ ∧
    ReflTransGen (EntryStep 0 1) rootLocked u ∧
    u.DirAt 0 1 m ∧ (∃ de ∈ entries m.data, de.inum ≠ 0 ∧ key de.name = key dot) ∧
    dirlink 0 dot 5 u = .error .deadlock := by
  obtain ⟨r, u, returns, after⟩ := rootLocked_dirAt.dirlink_ends (rootLocked_canLink dot 1)
  have step : ReflTransGen (EntryStep 0 1) rootLocked u := .single (.link (by decide) (by decide) returns)
  rcases after with ⟨_, found, _⟩ | ⟨absent, rfl, block, rfl, image, nodes⟩
  · rw [lookup_nil] at found
    cases found
  · obtain ⟨dir, distinct, lookups⟩ := rootLocked_dirAt.dir.link distinct_nil absent (by decide : 0 < 1) (by decide)
    have at' := rootLocked_dirAt.stored image nodes dir
    have found := lookups dot
    rw [if_pos rfl] at found
    obtain ⟨x, de, _, here, used, same, _⟩ := (lookup_iff dir.whole distinct).mp found
    refine ⟨_, _, rootLocked_dirAt, step, at', ⟨de, List.mem_of_getElem? here, used, same.symm⟩,
      at'.dirlink_waits found ?_ at'.locked⟩
    rw [Fs.slotFor, List.finRange_succ, List.find?_cons_of_pos, Option.some_or]
    rw [Fs.stored_icache]
    rfl

end MiniOS
