import MiniOS.Fs.Agrees
import MiniOS.Fs.RefCounts

namespace MiniOS

open Lib

/-- The counts are right and the inode cache agrees with the disk. -/
def Sound (F : Multiset (Fin nfile)) (procs table : Fin nproc → ProcFiles) (X : Multiset Handle) (s : Fs) : Prop :=
  Holds F procs table X s ∧ Agrees X s

namespace Sound

variable {X : Multiset Handle} {F : Multiset (Fin nfile)} {procs table : Fin nproc → ProcFiles}
  {s : Fs} {k : Fin ninode} {i : Nat} {h : Handle} {p : Fin nproc} {name path : Bytes}

theorem busy (right : Sound F procs table X s) (mem : h ∈ X) : 0 < (s.icache h.ip).ref := right.1.1.ref_pos mem

theorem mine (right : Sound F procs table (⟨k, i, true⟩ ::ₘ X) s) :
    0 < (s.icache k).ref ∧ (s.icache k).valid = true :=
  ⟨right.busy (Multiset.mem_cons_self _ X), right.2.loaded _ (Multiset.mem_cons_self _ X) rfl⟩

theorem inside (right : Sound F procs table X s) (mem : h ∈ X) : h.inum < s.sb.ninodes := by
  have number : (s.icache h.ip).inum = h.inum := right.1.1.numbers h mem
  rw [← number]
  exact (right.2.entry h.ip (right.busy mem)).2

/-- The number of a reference that is not loaded does not matter to the cache. -/
theorem renumber {j : Nat} (holds : Holds F procs table (⟨k, i, false⟩ ::ₘ X) s)
    (right : Agrees (⟨k, j, false⟩ ::ₘ X) s) :
    Sound F procs table (⟨k, i, false⟩ ::ₘ X) s := by
  refine ⟨holds, right.reload fun h mem loaded => .inl ?_⟩
  rcases Multiset.mem_cons.1 mem with rfl | mem
  · cases loaded
  · exact Multiset.mem_cons_of_mem mem

theorem ilock {b : Bool} (right : Sound F procs table (⟨k, i, b⟩ ::ₘ X) s) :
    wp (ilock k) s (fun _ t => Sound F procs table (⟨k, i, true⟩ ::ₘ X) t) Stop.Benign := by
  refine wp_mono (wp_and (right.1.keeps (.ilock k)) right.2.ilock) (fun _ t ⟨holds, right, valid⟩ => ?_) fun _ => id
  refine ⟨⟨holds.1.reload true, holds.2⟩, right.reload fun h mem _ => ?_⟩
  rcases Multiset.mem_cons.1 mem with rfl | mem
  · exact .inr valid
  · exact .inl (Multiset.mem_cons_of_mem mem)

theorem iunlock (right : Sound F procs table X s) (k : Fin ninode) :
    wp (iunlock k) s (fun _ t => Sound F procs table X t ∧ ∀ l, (t.icache l).d = (s.icache l).d) Stop.Benign := by
  have owned : Stop.Owned (.panic "iunlock") := by decide
  refine wp_mono (wp_and (right.1.keeps (.iunlock k)) (iunlock_spec owned)) ?_ fun _ => id
  rintro _ _ ⟨holds, rfl⟩
  exact ⟨⟨holds, right.2.relock false⟩, setInode_d rfl⟩

theorem iput (right : Sound F procs table (h ::ₘ X) s) :
    wp (iput h.ip) s (fun _ t => Sound F procs table X t ∧
      ∀ g ∈ X, (t.icache g.ip).d = (s.icache g.ip).d) Stop.Benign :=
  wp_mono (wp_and right.1.iput (right.2.iput right.1)) (fun _ _ after => ⟨⟨after.1, after.2.1⟩, after.2.2⟩)
  fun _ => id

section

variable (right : Sound F procs table (⟨k, i, true⟩ ::ₘ X) s)
include right

theorem readi (off n : Nat) :
    wp (readi k off n) s (fun _ t => Sound F procs table (⟨k, i, true⟩ ::ₘ X) t) Stop.Benign :=
  wp_mono (wp_and (right.1.keeps (.readi k off n)) (right.2.readi right.mine.1 right.mine.2 off n))
    (fun _ _ after => ⟨after.1, after.2.1⟩) fun _ => id

theorem dirlookup :
    wp (dirlookup k name) s (fun r t => match r with
      | none => t = s ∧ (s.icache k).d.type = tDir
      | some (ip, _) => ∃ j, Sound F procs table (⟨ip, j, false⟩ ::ₘ ⟨k, i, true⟩ ::ₘ X) t) Stop.Benign := by
  refine wp_mono (wp_and right.1.dirlookup (right.2.dirlookup right.1)) (fun r t after => ?_) fun _ => id
  cases r with
  | none => exact after.2
  | some found =>
    obtain ⟨⟨j, holds⟩, j', right⟩ := after
    exact ⟨j, renumber holds right⟩

theorem update (major minor nlink : Dinode → BitVec 16) :
    wp (do modifyDinode k fun d => { d with major := major d, minor := minor d, nlink := nlink d }
           iupdate k) s (fun _ t => Sound F procs table (⟨k, i, true⟩ ::ₘ X) t ∧
           ∀ l, (t.icache l).d.type = (s.icache l).d.type)
      Stop.Benign :=
  wp_mono (wp_and (right.1.keeps (.bind (Frames.modifyDinode _ _) fun _ => Frames.iupdate _))
    (right.2.update right.1 right.mine.1 right.mine.2 major minor nlink))
      (fun _ _ after => ⟨⟨after.1, after.2.1⟩, after.2.2⟩) fun _ => id

/-- The offset that `dirlink` finds is the one of an entry. -/
theorem dirlinkFrom {size : Nat} (dir : (s.icache k).d.type = tDir)
    (whole : size % 16 = 0) {offs : List Nat} (aligned : ∀ off ∈ offs, off % 16 = 0) :
    wp (dirlinkFrom k size offs) s (fun off t => off % 16 = 0 ∧ t = s) Stop.Benign := by
  have there := (right.2.has right.mine.1 right.mine.2).stands
  induction offs with
  | nil => exact ⟨whole, rfl⟩
  | cons off rest ih =>
    have benign : Stop.Benign (.panic "dirlink read") := by decide
    refine wp_seq (wp_and (right.1.keeps (.readDirent k off benign.1))
      (right.2.readDirent right.mine.1 right.mine.2 there dir off benign.2)) ?_
    rintro _ _ ⟨-, -, rfl⟩
    refine wp_ite (fun _ => ⟨aligned off (.head _), rfl⟩) fun _ => ?_
    exact ih fun off' mem => aligned off' (.tail off mem)

theorem writeDirent {de : Dirent} {off : Nat} {message : String}
    (length : de.name.length = 14) (inside : de.inum.toNat < s.sb.ninodes) (aligned : off % 16 = 0)
    (stops : Stop.Benign (.panic message)) :
    wp (writeDirent k de off message) s (fun _ t => Sound F procs table (⟨k, i, true⟩ ::ₘ X) t ∧
      ((s.icache k).d.type = tDir → ∀ l, (t.icache l).d.type = (s.icache l).d.type)) Stop.Benign :=
  wp_mono (wp_and (right.1.keeps (.writeDirent k de off stops.1))
    (right.2.writeDirent right.1 right.mine.1 right.mine.2 length inside aligned stops.2))
    (fun _ _ after => ⟨⟨after.1, after.2.1⟩, after.2.2⟩) fun _ => id

theorem dirlink (h : Handle) (mem : h ∈ ⟨k, i, true⟩ ::ₘ X) :
    wp (dirlink k name h.inum) s (fun r t => Sound F procs table (⟨k, i, true⟩ ::ₘ X) t ∧
      (0 ≤ r → ∀ l, (t.icache l).d.type = (s.icache l).d.type)) Stop.Benign := by
  refine wp_seq right.dirlookup fun found t right' => ?_
  cases found with
  | some found =>
    obtain ⟨j, right⟩ := right'
    exact wp_seq right.iput fun _ _ after => ⟨after.1, nofun⟩
  | none =>
    obtain ⟨rfl, dir⟩ := right'
    refine wp_inode k (wp_seq (right.dirlinkFrom dir (Nat.mul_mod_right ..) fun _ => direntOffs_aligned) ?_)
    rintro off _ ⟨aligned, rfl⟩
    refine wp_seq (right.writeDirent (strncpy_length ..) ?_ aligned (by decide)) fun _ _ after =>
      ⟨after.1, fun _ => after.2 dir⟩
    exact Nat.lt_of_le_of_lt (by rw [BitVec.toNat_ofNat]; exact Nat.mod_le ..) (right.inside mem)

end

theorem ialloc {type : BitVec 16} (right : Sound F procs table (h ::ₘ X) s) (real : type ≠ 0) :
    wp (ialloc (s.icache h.ip).dev type) s (fun ip t => ∃ j, Sound F procs table (⟨ip, j, false⟩ ::ₘ h ::ₘ X) t ∧
      (dinodeOf t.sb t.block j).type = type) Stop.Benign := by
  rw [(right.2.entry h.ip (right.busy (Multiset.mem_cons_self h X))).1]
  exact wp_mono (right.2.ialloc right.1 real) (fun _ _ ⟨j, holds, right, type⟩ => ⟨j, ⟨holds, right⟩, type⟩)
    fun _ => id

theorem idup (right : Sound F procs table X s) (here : (procs p).cwd = some k) :
    wp (idup k) s (fun _ t => ∃ j, Sound F procs table (⟨k, j, false⟩ ::ₘ X) t) Stop.Benign := by
  have counted : 0 < countAt (cwds procs) k := countAt_pos (i := p) here
  have count : (s.icache k).ref = _ := right.1.1.inodes k
  refine wp_mono (wp_and (right.1.idup here) (right.2.idup (i := (s.icache k).inum) (by omega)))
    (fun _ _ after => ⟨_, after.1.2, after.2.2⟩) fun _ => id

/-- The name functions keep the cache and the disk in agreement. -/
theorem discipline (F : Multiset (Fin nfile)) (procs : Fin nproc → ProcFiles) :
    Discipline (Sound F procs procs) Stop.Benign where
  other _ right other := ⟨right, other⟩
  number right := right.1.1.numbers _ (Multiset.mem_cons_self _ _)
  root right := wp_mono (wp_and right.1.iget (right.2.iget right.1 right.2.laid.root)) (fun _ _ after => ⟨_, after⟩)
    fun _ => id
  start right here := right.idup (right.1.2.1 ▸ here)
  ilock right := right.ilock
  iunlock k right := wp_mono (right.iunlock k) (fun _ _ after => after.1) fun _ => id
  iput right := wp_mono right.iput (fun _ _ after => after.1) fun _ => id
  readi off n right := right.readi off n
  dirlookup _ right := by
    refine wp_mono right.dirlookup (fun r t after => ?_) fun _ => id
    cases r with
    | none => exact after.1 ▸ right
    | some found => exact after
  dirlink _ right mem := wp_mono (right.dirlink _ mem) (fun _ _ after => after.1) fun _ => id
  clear right aligned := by
    refine wp_mono (right.writeDirent List.length_replicate ?_ aligned (by decide)) (fun _ _ after => after.1)
      fun _ => id
    exact Nat.lt_of_le_of_lt (Nat.zero_le _) right.2.laid.root
  update major minor nlink right := wp_mono (right.update major minor nlink) (fun _ _ after => after.1) fun _ => id
  ialloc right real := wp_mono (right.ialloc real) (fun _ _ ⟨j, after, _⟩ => ⟨j, after⟩) fun _ => id

end Sound

end MiniOS
