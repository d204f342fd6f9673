import MiniOS.Fs.SharedFile
import MiniOS.Fs.ByteArray

namespace MiniOS

open Lib Function

variable {s : Fs} {k : Fin ninode} {err : Stop → Prop} {off : Nat} {src a b : Bytes} {n : Node}

/-- The open file `f` is for inode `i`, which is in entry `k` of the cache and not locked.
The disk holds the given inodes. -/
structure Fs.OpenOn (s : Fs) (f : Fin nfile) (k : Fin ninode) (i : Nat) (node : Nat → Option Node)
    (room : Nat) : Prop where
  type : (s.ftable f).type = .inode
  writable : (s.ftable f).writable = true
  ip : (s.ftable f).ip = k
  busy : 0 < (s.icache k).ref
  unlocked : (s.icache k).locked = false
  number : (s.icache k).inum = i
  cached : (s.icache k).valid = true → (s.icache k).d = dinodeOf s.sb s.block i
  disk : Disk s.sb s.block node room

/-- The state after `ilock` of inode `i` in entry `k`. -/
def Fs.loaded (s : Fs) (k : Fin ninode) (i : Nat) : Fs :=
  s.setInode k { s.icache k with locked := true, valid := true, d := dinodeOf s.sb s.block i }

/-- The state after a round of `filewrite` that leaves the given blocks and offset. -/
def Fs.wrote (s : Fs) (f : Fin nfile) (k : Fin ninode) (i : Nat) (block : Nat → Block) (off : BitVec 32) : Fs :=
  { s with
    block := block
    icache := update s.icache k { s.icache k with locked := false, valid := true, d := dinodeOf s.sb block i }
    ftable := update s.ftable f { s.ftable f with off := off } }

/-- A lock that nobody holds is taken. -/
theorem acquiresleep_free (free : (s.icache k).locked = false) :
    wp (acquiresleep k) s (fun _ t => t = s.setInode k { s.icache k with locked := true }) err := by
  refine wp_inode k (wp_ite (fun taken => ?_) fun _ => rfl)
  rw [free] at taken
  cases taken

theorem iunlock_held (busy : 0 < (s.icache k).ref) (taken : (s.icache k).locked = true) :
    wp (iunlock k) s (fun _ t => t = s.setInode k { s.icache k with locked := false }) err := by
  refine wp_inode k (wp_guard (fun wrong => ?_) fun _ => rfl)
  rw [taken] at wrong
  rcases wrong with free | none
  · cases free
  · omega

theorem setInode_setInode (e e' : Inode) : (s.setInode k e).setInode k e' = s.setInode k e' := by
  simp only [Fs.setInode, update_idem]

/-- The bytes that `filewrite` writes before a round of 1536 bytes is refused. -/
def fitting (off : Nat) (src : Bytes) : Bytes :=
  if off + src.length ≤ 140 * 512 then src else src.take (3 * 512 * ((140 * 512 - off) / (3 * 512)))

theorem fitting_all (small : off + src.length ≤ 140 * 512) : fitting off src = src := if_pos small

theorem fitting_refused (large : 140 * 512 < off + (src.take (3 * 512)).length) : fitting off src = [] := by
  rw [List.length_take] at large
  have none : (140 * 512 - off) / (3 * 512) = 0 := by omega
  rw [fitting, if_neg (by omega), none, Nat.mul_zero, List.take_zero]

/-- A round that is not refused writes the first of these bytes. -/
theorem fitting_append (small : off + (src.take (3 * 512)).length ≤ 140 * 512) :
    src.take (3 * 512) ++ fitting (off + (src.take (3 * 512)).length) (src.drop (3 * 512)) = fitting off src := by
  by_cases last : src.length ≤ 3 * 512
  · rw [List.take_of_length_le last] at small ⊢
    rw [List.drop_of_length_le last, fitting_all small, fitting_all (by simpa using small), List.append_nil]
  · have length : (src.take (3 * 512)).length = 3 * 512 := by
      rw [List.length_take]
      omega
    have total : off + 3 * 512 + (src.drop (3 * 512)).length = off + src.length := by
      rw [List.length_drop]
      omega
    rw [length] at small ⊢
    simp only [fitting, total]
    split
    · exact List.take_append_drop ..
    · have more : 3 * 512 * ((140 * 512 - off) / (3 * 512)) =
          3 * 512 + 3 * 512 * ((140 * 512 - (off + 3 * 512)) / (3 * 512)) := by
        omega
      rw [more, List.take_add]

theorem overwrite_nil (data : Bytes) (off : Nat) : overwrite data off [] = data := by
  rw [overwrite, List.append_nil, List.length_nil, Nat.add_zero, List.take_append_drop]

theorem Node.write_nil (n : Node) (off : Nat) : n.write off [] = n := by
  rw [Node.write, overwrite_nil]

theorem Node.write_write (start : off ≤ n.data.length) :
    (n.write off a).write (off + a.length) b = n.write off (a ++ b) := by
  rw [Node.write, Node.write, Node.write]
  dsimp only
  rw [overwrite_overwrite]
  rw [overwrite_length start]
  exact Nat.le_max_right ..

/-- A longer write needs no fewer blocks. -/
theorem Node.write_blocks_mono (start : off ≤ n.data.length) (longer : a.length ≤ b.length) :
    (n.write off a).blocks ≤ (n.write off b).blocks := by
  rw [Node.write_blocks start, Node.write_blocks start]
  exact blocksFor_mono (by omega)

theorem totalBlocks_write_mono {sb : Superblock} {block : Nat → Block} {node : Nat → Option Node} {room i : Nat}
    (disk : Disk sb block node room) (there : node i = some n) (start : off ≤ n.data.length)
    (longer : a.length ≤ b.length) : totalBlocks sb.ninodes (update node i (some (n.write off a))) ≤
      totalBlocks sb.ninodes (update node i (some (n.write off b))) := by
  rw [disk.nodes] at there
  have inside := (nodeAt_eq_some.1 there).1.1
  rw [totalBlocks_set _ _ inside, totalBlocks_set _ _ inside]
  exact Nat.add_le_add_left (Node.write_blocks_mono start longer) _

namespace Fs.OpenOn

variable {s : Fs} {f : Fin nfile} {k : Fin ninode} {i off room : Nat} {node node' : Nat → Option Node}
  {n : Node} {chunk src : Bytes} {err : Stop → Prop} {block : Nat → Block} {o : BitVec 32}

section

variable (opens : s.OpenOn f k i node room)
include opens

theorem node_eq (there : node i = some n) : nodeAt s.sb s.block i = some n := by
  rw [← opens.disk.nodes, there]

theorem wrote (disk : Disk s.sb block node' room) :
    (s.wrote f k i block o).OpenOn f k i node' room := by
  have entry : (s.wrote f k i block o).icache k =
      { s.icache k with locked := false, valid := true, d := dinodeOf s.sb block i } := update_self ..
  have file : (s.wrote f k i block o).ftable f = { s.ftable f with off := o } := update_self ..
  exact {
    type := file ▸ opens.type
    writable := file ▸ opens.writable
    ip := file ▸ opens.ip
    busy := entry ▸ opens.busy
    unlocked := entry ▸ rfl
    number := entry ▸ opens.number
    cached := fun _ => entry ▸ rfl
    disk := disk }

/-- `ilock` loads the inode and takes the lock. -/
theorem ilock (there : node i = some n) : wp (ilock k) s (fun _ t => t = s.loaded k i) err := by
  obtain ⟨⟨inside, used⟩, _⟩ := nodeAt_eq_some.1 (opens.node_eq there)
  have busy := opens.busy
  refine wp_inode k (wp_guard (fun none => absurd none (by omega)) fun _ =>
    wp_seq (acquiresleep_free opens.unlocked) ?_)
  rintro _ _ rfl
  have entry : (s.setInode k { s.icache k with locked := true }).icache k = { s.icache k with locked := true } :=
    setInode_icache_self
  have number : ((s.setInode k { s.icache k with locked := true }).icache k).inum = i := by rw [entry, opens.number]
  refine wp_mono (iload_spec opens.disk.image.laid (number ▸ inside)) ?_ ?_
  · rintro _ t (⟨valid, rfl⟩ | ⟨_, _, rfl⟩)
    · rw [entry] at valid
      rw [Fs.loaded, ← opens.cached valid, ← valid]
    · rw [entry, setInode_setInode, Fs.loaded, ← opens.number]
      rfl
  · rintro _ ⟨-, -, none⟩
    rw [number] at none
    exact absurd none used

/-- One round writes its bytes at the offset, or it is refused because the file would be too large. -/
theorem round (there : node i = some n) (regular : n.type = tFile)
    (start : (s.ftable f).off.toNat ≤ n.data.length) :
    wp (filewriteRound f k chunk) s (fun r t =>
        r = none ∧ 140 * 512 < (s.ftable f).off.toNat + chunk.length ∧ t = s.wrote f k i s.block (s.ftable f).off ∨
        r = some chunk.length ∧ (s.ftable f).off.toNat + chunk.length ≤ 140 * 512 ∧ ∃ block,
          t = s.wrote f k i block ((s.ftable f).off + BitVec.ofNat 32 chunk.length) ∧
          Disk s.sb block (update node i (some (n.write (s.ftable f).off.toNat chunk))) room)
      fun e => e = .panic "balloc: out of blocks" ∧ (s.ftable f).off.toNat + chunk.length ≤ 140 * 512 ∧
        room < totalBlocks s.sb.ninodes (update node i (some (n.write (s.ftable f).off.toNat chunk))) := by
  have stands := opens.node_eq there
  obtain ⟨⟨inside, used⟩, _⟩ := nodeAt_eq_some.1 stands
  have file : n.type ≠ tDev := by
    rw [regular]
    decide
  refine wp_seq (opens.ilock there) ?_
  rintro _ u rfl
  have disk : Disk (s.loaded k i).sb (s.loaded k i).block node room := opens.disk
  have locked : (s.loaded k i).icache k =
      { s.icache k with locked := true, valid := true, d := dinodeOf s.sb s.block i } :=
    update_self ..
  have has : (s.loaded k i).Has k i :=
    ⟨by rw [locked, opens.number], inside, by rw [locked]; rfl, by rw [locked]; exact used⟩
  refine wp_file f ?_
  by_cases small : (s.ftable f).off.toNat + chunk.length ≤ 140 * 512
  · refine wp_seq (wp_mono (writei_spec disk has there file start small) (fun _ _ => id) fun e lacks =>
      ⟨lacks.1, small, lacks.2⟩) ?_
    rintro _ _ ⟨rfl, block, rfl, disk, _⟩
    refine wp_modify_seq (wp_seq (iunlock_held ?_ ?_) ?_)
    · simpa [Fs.stored, Fs.setFile, locked] using opens.busy
    · simp [Fs.stored, Fs.setFile, locked]
    · rintro _ _ rfl
      refine .inr ⟨rfl, small, block, ?_, disk⟩
      simp [Fs.wrote, Fs.stored, Fs.setFile, Fs.setInode, Fs.loaded]
  · have wrong : n.data.length < (s.ftable f).off.toNat ∨
      ((s.ftable f).off.toNat + chunk.length) % 2 ^ 32 < (s.ftable f).off.toNat ∨
        140 * 512 < (s.ftable f).off.toNat + chunk.length := .inr (.inr (not_le.1 small))
    refine wp_seq (writei_refused_spec has stands file wrong) ?_
    rintro _ _ ⟨rfl, rfl⟩
    refine wp_modify_seq (wp_seq (iunlock_held ?_ ?_) ?_)
    · simpa [Fs.setFile, locked] using opens.busy
    · simp [Fs.setFile, locked]
    · rintro _ _ rfl
      refine .inl ⟨rfl, not_le.1 small, ?_⟩
      simp [Fs.wrote, Fs.setFile, Fs.setInode, Fs.loaded]

/-- There is nothing to write. -/
theorem done (there : node i = some n) (start : off ≤ n.data.length)
    (here : (s.ftable f).off.toNat = off) :
    (true = true ↔ off + ([] : Bytes).length ≤ 140 * 512) ∧
      s.OpenOn f k i (update node i (some (n.write off (fitting off [])))) room ∧
      (s.ftable f).off.toNat = off + (fitting off []).length := by
  have small : off + ([] : Bytes).length ≤ 140 * 512 := Nat.le_trans start (opens.disk.small there)
  rw [fitting_all small, Node.write_nil, update_eq_self_iff.2 there.symm]
  exact ⟨⟨fun _ => small, fun _ => rfl⟩, opens, here⟩

/-- The loop writes the bytes that fit, in rounds. -/
theorem loop {rounds : Nat} (there : node i = some n) (regular : n.type = tFile)
    (start : (s.ftable f).off.toNat ≤ n.data.length) (enough : src.length ≤ rounds) :
    wp (filewriteLoop f k rounds src) s (fun r t => (r = true ↔ (s.ftable f).off.toNat + src.length ≤ 140 * 512) ∧
        t.OpenOn f k i
        (update node i (some (n.write (s.ftable f).off.toNat (fitting (s.ftable f).off.toNat src)))) room ∧
        (t.ftable f).off.toNat = (s.ftable f).off.toNat + (fitting (s.ftable f).off.toNat src).length)
      fun e => e = .panic "balloc: out of blocks" ∧ room < totalBlocks s.sb.ninodes
        (update node i (some (n.write (s.ftable f).off.toNat (fitting (s.ftable f).off.toNat src)))) := by
  obtain ⟨off, here⟩ : ∃ off, (s.ftable f).off.toNat = off := ⟨_, rfl⟩
  rw [here] at start ⊢
  induction rounds generalizing s src n node off with
  | zero =>
    rw [List.eq_nil_of_length_eq_zero (Nat.le_zero.1 enough)]
    exact done opens there start here
  | succ rounds ih =>
    rw [filewriteLoop_succ]
    refine wp_ite (fun none => none ▸ done opens there start here) fun some => ?_
    have shorter : (src.drop (3 * 512)).length ≤ rounds := by
      have := List.length_pos_of_ne_nil some
      rw [List.length_drop]
      omega
    refine wp_seq (wp_mono (opens.round there regular (here ▸ start)) (fun _ _ => id) ?_) ?_
    · rintro _ ⟨rfl, small, lacks⟩
      rw [here] at small lacks
      refine ⟨rfl, Nat.lt_of_lt_of_le lacks (totalBlocks_write_mono opens.disk there start ?_)⟩
      rw [← fitting_append small, List.length_append]
      exact Nat.le_add_right ..
    · rw [here]
      rintro _ _ (⟨rfl, large, rfl⟩ | ⟨rfl, small, block, rfl, disk⟩)
      · rw [fitting_refused large, Node.write_nil, update_eq_self_iff.2 there.symm]
        rw [List.length_take] at large
        refine ⟨⟨nofun, fun small => absurd small (by omega)⟩, opens.wrote opens.disk, ?_⟩
        rw [List.length_nil, Nat.add_zero, ← here]
        exact congrArg (fun e : File => e.off.toNat) (update_self ..)
      · have length : (src.take (3 * 512)).length ≤ 3 * 512 := List.length_take_le ..
        have here' : ((s.wrote f k i block
            ((s.ftable f).off + BitVec.ofNat 32 (src.take (3 * 512)).length)).ftable f).off.toNat =
            off + (src.take (3 * 512)).length := by
          refine (congrArg (fun e : File => e.off.toNat) (update_self ..)).trans ?_
          change ((s.ftable f).off + BitVec.ofNat 32 (src.take (3 * 512)).length).toNat = _
          rw [BitVec.toNat_add, BitVec.toNat_ofNat, here]
          omega
        have start' : off + (src.take (3 * 512)).length ≤ (n.write off (src.take (3 * 512))).data.length := by
          rw [Node.write, overwrite_length start]
          exact Nat.le_max_right ..
        have rest := ih (opens.wrote disk) (update_self ..) regular shorter _ start' here'
        rw [update_idem, Node.write_write start, fitting_append small] at rest
        refine wp_guard (fun wrong => absurd rfl wrong) fun _ => wp_mono rest ?_ fun _ => id
        rintro r t ⟨all, opens', moved⟩
        refine ⟨all.trans ?_, opens', moved.trans ?_⟩
        · rw [List.length_drop, List.length_take]
          omega
        · rw [← fitting_append small, List.length_append, Nat.add_assoc]

end

/-- `filewrite` on a regular file, if the disk has room for the bytes that fit. -/
theorem filewrite (src : Bytes) (opens : s.OpenOn f k i node room) (there : node i = some n)
    (regular : n.type = tFile) (start : (s.ftable f).off.toNat ≤ n.data.length)
    (enough : totalBlocks s.sb.ninodes
      (update node i (some (n.write (s.ftable f).off.toNat (fitting (s.ftable f).off.toNat src)))) ≤ room) :
    ∃ r t, filewrite f src s = .ok (r, t) ∧ (r = true ↔ (s.ftable f).off.toNat + src.length ≤ 140 * 512) ∧
      nodeAt t.sb t.block i = some (n.write (s.ftable f).off.toNat (fitting (s.ftable f).off.toNat src)) ∧
      (t.ftable f).off.toNat = (s.ftable f).off.toNat + (fitting (s.ftable f).off.toNat src).length := by
  refine wp_ends (wp_file f ?_)
  rw [opens.writable, if_neg nofun, opens.type, opens.ip]
  refine wp_mono (opens.loop there regular start Nat.le.refl) ?_ ?_
  · rintro r t ⟨all, opens', moved⟩
    exact ⟨all, opens'.node_eq (update_self ..), moved⟩
  · rintro _ ⟨-, lacks⟩
    omega

end Fs.OpenOn

/-- Either all bytes are written and the offset is behind them, or nothing has changed. -/
def AllOrNothing (f : Fin nfile) (i : Nat) (n : Node) (src : Bytes) (s : Fs) (r : Bool) (t : Fs) : Prop :=
  r = true ∧ nodeAt t.sb t.block i = some { n with data := overwrite n.data (s.ftable f).off.toNat src } ∧
      (t.ftable f).off.toNat = (s.ftable f).off.toNat + src.length ∨
    r = false ∧ nodeAt t.sb t.block i = some n ∧ (t.ftable f).off = (s.ftable f).off

/-- What `filewrite` reports is what it has done, if and only if the whole request or not
even its first round fits in the largest file. -/
theorem filewrite_all_or_nothing_iff {s : Fs} {f : Fin nfile} {k : Fin ninode} {i room : Nat}
    {node : Nat → Option Node} {n : Node} (src : Bytes) (opens : s.OpenOn f k i node room) (there : node i = some n)
    (regular : n.type = tFile) (start : (s.ftable f).off.toNat ≤ n.data.length)
    (enough : totalBlocks s.sb.ninodes
      (Function.update node i (some (n.write (s.ftable f).off.toNat (fitting (s.ftable f).off.toNat src)))) ≤ room) :
    ∃ r t, filewrite f src s = .ok (r, t) ∧ (AllOrNothing f i n src s r t ↔
      (s.ftable f).off.toNat + src.length ≤ 140 * 512 ∨ 140 * 512 < (s.ftable f).off.toNat + 3 * 512) := by
  obtain ⟨r, t, ended, all, node, moved⟩ := opens.filewrite src there regular start enough
  refine ⟨r, t, ended, ⟨?_, ?_⟩⟩
  · rintro (⟨done, -, -⟩ | ⟨refused, -, same⟩)
    · exact Or.inl (all.mp done)
    · by_contra other
      simp only [not_or, not_le, not_lt] at other
      rw [same, fitting, if_neg (by omega), List.length_take] at moved
      omega
  · rintro (small | large)
    · rw [fitting_all small] at node moved
      exact Or.inl ⟨all.mpr small, node, moved⟩
    · by_cases small : (s.ftable f).off.toNat + src.length ≤ 140 * 512
      · rw [fitting_all small] at node moved
        exact Or.inl ⟨all.mpr small, node, moved⟩
      · have none : fitting (s.ftable f).off.toNat src = [] := by
          refine fitting_refused ?_
          rw [List.length_take]
          omega
        rw [none, Node.write_nil] at node
        rw [none, List.length_nil, Nat.add_zero] at moved
        exact Or.inr ⟨eq_false_of_ne_true (mt all.mp small), node, BitVec.eq_of_toNat_eq moved⟩

/-- An empty file that is open for writing. -/
def emptyFileOpen : Fs :=
  { Fs.zeroed mkfsSuper emptyFile fun _ => none with
    icache := fun _ => ⟨rootdev, 2, 1, false, true, dinodeOf mkfsSuper emptyFile 2⟩
    ftable := fun _ => ⟨.inode, 1, false, true, 0, 0, 0⟩ }

theorem emptyFileOpen_openOn : emptyFileOpen.OpenOn 0 0 2 (nodeAt mkfsSuper emptyFile)
    (spare (inUse mkfsSuper emptyFile) mkfsSuper.size + totalBlocks mkfsSuper.ninodes (nodeAt mkfsSuper emptyFile)) :=
  ⟨rfl, rfl, rfl, by decide, rfl, rfl, fun _ => rfl, emptyFile_disk.image.disk⟩

theorem emptyFile_spare : 141 ≤ spare (inUse mkfsSuper emptyFile) mkfsSuper.size := by decide +kernel

/-- The disk has room for any file of that size. -/
theorem emptyFile_room (small : src.length ≤ 140 * 512) :
    totalBlocks mkfsSuper.ninodes
    (update (nodeAt mkfsSuper emptyFile) 2 (some (Node.write ⟨tFile, 0, 0, 0, []⟩ 0 src))) ≤
      spare (inUse mkfsSuper emptyFile) mkfsSuper.size + totalBlocks mkfsSuper.ninodes
      (nodeAt mkfsSuper emptyFile) := by
  have total := totalBlocks_update mkfsSuper.ninodes (nodeAt mkfsSuper emptyFile) (i := 2) (by decide)
    (some (Node.write ⟨tFile, 0, 0, 0, []⟩ 0 src))
  have blocks : (Node.write ⟨tFile, 0, 0, 0, []⟩ 0 src).blocks ≤ 141 := by
    rw [Node.write_blocks (Nat.zero_le _), blocksFor, List.length_nil]
    split <;> omega
  rw [emptyFile_node, Option.map_some, Option.getD_some, Option.map_some, Option.getD_some] at total
  have := emptyFile_spare
  omega

theorem filewrite_all_or_nothing_three_bytes : ∃ r t, filewrite 0 [1, 2, 3] emptyFileOpen = .ok (r, t) ∧
    AllOrNothing 0 2 ⟨tFile, 0, 0, 0, []⟩ [1, 2, 3] emptyFileOpen r t := by
  obtain ⟨r, t, ended, iff⟩ :=
    filewrite_all_or_nothing_iff [1, 2, 3] emptyFileOpen_openOn emptyFile_node rfl (by decide)
    (emptyFile_room (by decide))
  exact ⟨r, t, ended, iff.mpr (Or.inl (by decide))⟩

/-- A write of 71681 bytes to an empty file reports a failure, and 70656 of them are written. -/
theorem filewrite_partial : ∃ t, filewrite 0 (List.replicate 71681 1) emptyFileOpen = .ok (false, t) ∧
    nodeAt t.sb t.block 2 = some ⟨tFile, 0, 0, 0, List.replicate 70656 1⟩ ∧ (t.ftable 0).off.toNat = 70656 ∧
      ¬AllOrNothing 0 2 ⟨tFile, 0, 0, 0, []⟩ (List.replicate 71681 1) emptyFileOpen false t := by
  have start : (emptyFileOpen.ftable 0).off.toNat = 0 := rfl
  have fits : fitting 0 (List.replicate 71681 (1 : BitVec 8)) = List.replicate 70656 1 := by
    rw [fitting, List.length_replicate, if_neg (by decide), List.take_replicate]
    rfl
  obtain ⟨r, t, ended, all, node, moved⟩ := emptyFileOpen_openOn.filewrite (List.replicate 71681 1) emptyFile_node rfl
    (by decide) (by
      rw [start, fits]
      exact emptyFile_room (by rw [List.length_replicate]; decide))
  rw [start, fits] at node moved
  rw [start, List.length_replicate] at all
  rw [List.length_replicate] at moved
  have failed : r = false := eq_false_of_ne_true (mt all.mp (by decide))
  subst failed
  refine ⟨t, ended, ?_, moved, ?_⟩
  · rw [node, Node.write, overwrite, List.take_nil, List.nil_append, List.drop_nil, List.append_nil]
  · rintro (⟨wrong, -⟩ | ⟨-, -, same⟩)
    · cases wrong
    · rw [same, start] at moved
      cases moved

end MiniOS
