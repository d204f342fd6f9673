import MiniOS.Fs.NodeOps

namespace MiniOS

open Lib

variable {off : Nat} {data : Bytes}

/-- The entry at offset `off` of a directory. -/
def direntAt (data : Bytes) (off : Nat) : Dirent := .ofBytes ((data.drop off).take 16)

/-- The inode number and the offset of the first entry with the name. -/
def lookup (data name : Bytes) : Option (Nat × Nat) :=
  ((direntOffs data.length 0).find? fun off => (direntAt data off).inum ≠ 0 ∧
    namecmp name (direntAt data off).name).map
    fun off => ((direntAt data off).inum.toNat, off)

/-- The offset where `dirlink` puts a new entry. -/
def freeOff (data : Bytes) : Nat :=
  ((direntOffs data.length 0).find? fun off => (direntAt data off).inum = 0).getD (16 * ((data.length + 15) / 16))

/-- Whether the directory has no entry behind the first two. -/
def isEmptyDir (data : Bytes) : Bool := (direntOffs data.length 2).all fun off => (direntAt data off).inum = 0

/-- A directory that consists of whole entries. -/
structure Node.IsDir (n : Node) : Prop where
  type : n.type = tDir
  whole : n.data.length % 16 = 0

/-- The directory with a new entry for inode `inum`. -/
def Node.link (n : Node) (name : Bytes) (inum : Nat) : Node :=
  n.write (freeOff n.data) (Dirent.toBytes ⟨BitVec.ofNat 16 inum, strncpy name dirsiz⟩)

theorem mem_direntOffs {size first : Nat} (whole : size % 16 = 0) :
    off ∈ direntOffs size first ↔ ∃ j, first ≤ j ∧ 16 * j < size ∧ off = 16 * j := by
  simp only [direntOffs, List.mem_map, List.mem_range'_1]
  constructor
  · rintro ⟨j, ⟨low, high⟩, rfl⟩
    exact ⟨j, low, by omega, rfl⟩
  · rintro ⟨j, low, high, rfl⟩
    exact ⟨j, ⟨low, by omega⟩, rfl⟩

theorem lookup_eq_some {name : Bytes} {j : Nat} (found : lookup data name = some (j, off)) :
    off ∈ direntOffs data.length 0 ∧ (direntAt data off).inum ≠ 0 ∧ namecmp name (direntAt data off).name = true ∧
      (direntAt data off).inum.toNat = j := by
  obtain ⟨off', first, same⟩ := Option.map_eq_some_iff.1 found
  cases same
  have here := List.find?_some first
  simp only [decide_eq_true_eq] at here
  exact ⟨List.mem_of_find?_eq_some first, here.1, here.2, rfl⟩

theorem freeOff_le (whole : data.length % 16 = 0) : freeOff data ≤ data.length := by
  rw [freeOff]
  cases found : (direntOffs data.length 0).find? fun off => (direntAt data off).inum = 0 with
  | none =>
    simp only [Option.getD_none]
    omega
  | some off =>
    obtain ⟨j, -, below, rfl⟩ := (mem_direntOffs whole).1 (List.mem_of_find?_eq_some found)
    exact Nat.le_of_lt below

theorem strncpy_length (t : Bytes) (n : Nat) : (strncpy t n).length = n := by
  induction n generalizing t with
  | zero => rfl
  | succ n ih =>
    rw [strncpy]
    split
    · exact List.length_replicate
    · rw [List.length_cons, ih]

theorem Dirent.toBytes_length {de : Dirent} (name : de.name.length = 14) : de.toBytes.length = 16 := by
  rw [Dirent.toBytes, List.length_cons, List.length_cons, name]

section Directory

variable {s : Fs} {k : Fin ninode} {i : Nat} {n : Node} {err : Stop → Prop}

section

variable (image : Image s.sb s.block (dinodeOf s.sb s.block))
include image

theorem readDirent_spec {off first : Nat} {message : String} (has : s.Has k i)
    (there : nodeAt s.sb s.block i = some n) (dir : n.IsDir) (inside : off ∈ direntOffs n.data.length first) :
    wp (readDirent k off message) s (fun de t => de = direntAt n.data off ∧ t = s) err := by
  obtain ⟨j, -, below, rfl⟩ := (mem_direntOffs dir.whole).1 inside
  have whole := dir.whole
  have small := image.disk.small there
  refine wp_seq (readi_spec image has there (by rw [dir.type]; decide) (16 * j) 16) ?_
  rintro _ _ ⟨rfl, rfl⟩
  rw [if_neg (by omega)]
  refine wp_guard (fun short => absurd ?_ short) fun _ => ⟨rfl, rfl⟩
  rw [List.length_take, List.length_drop]
  omega

/-- `dirlookup` gets the inode of the entry that `lookup` finds. -/
theorem dirlookup_spec {name : Bytes} {post : Option (Fin ninode × Nat) → Fs → Prop}
    (has : s.Has k i) (there : nodeAt s.sb s.block i = some n) (dir : n.IsDir)
    (absent : lookup n.data name = none → post none s) (found : ∀ j off, lookup n.data name = some (j, off) →
      wp (iget (s.icache k).dev j) s (fun ip t => post (some (ip, off)) t) err) :
    wp (dirlookup k name) s post err := by
  have loop : ∀ offs : List Nat, (∀ off ∈ offs, off ∈ direntOffs n.data.length 0) →
      ((offs.find? fun off => (direntAt n.data off).inum ≠ 0 ∧ namecmp name (direntAt n.data off).name) = none →
        post none s) →
      (∀ off, (offs.find? fun off => (direntAt n.data off).inum ≠ 0 ∧
        namecmp name (direntAt n.data off).name) = some off →
        wp (iget (s.icache k).dev (direntAt n.data off).inum.toNat) s (fun ip t => post (some (ip, off)) t) err) →
      wp (dirlookupFrom k name offs) s post err := by
    intro offs
    induction offs with
    | nil => exact fun _ absent _ => absent rfl
    | cons off rest ih =>
      intro inside absent found
      refine wp_seq (readDirent_spec image has there dir (inside off (.head _))) ?_
      rintro _ _ ⟨rfl, rfl⟩
      have later := ih fun off' mem => inside off' (.tail _ mem)
      by_cases here : (direntAt n.data off).inum ≠ 0 ∧ namecmp name (direntAt n.data off).name
      · rw [List.find?_cons_of_pos (by simpa using here)] at found
        rw [if_neg here.1, if_pos here.2]
        exact wp_inode k (wp_seq (found off rfl) fun _ _ => id)
      · rw [List.find?_cons_of_neg (by simpa using here)] at absent found
        refine wp_ite (fun _ => later absent found) fun used => ?_
        rw [if_neg fun same => here ⟨used, same⟩]
        exact later absent found
  refine wp_inode k (wp_guard (fun wrong => absurd ((has.kind there).trans dir.type) wrong) fun _ => ?_)
  rw [has.size there]
  refine loop _ (fun _ => id) (fun none => absent ?_) fun off here => found _ off ?_
  · rw [lookup, none]
    rfl
  · rw [lookup, here]
    rfl

theorem dirlinkFrom_spec (has : s.Has k i)
    (there : nodeAt s.sb s.block i = some n) (dir : n.IsDir) (size : Nat) :
    wp (dirlinkFrom k size (direntOffs n.data.length 0)) s (fun off t =>
      off = ((direntOffs n.data.length 0).find? fun off => (direntAt n.data off).inum = 0).getD size ∧
      t = s) err := by
  have loop : ∀ offs : List Nat, (∀ off ∈ offs, off ∈ direntOffs n.data.length 0) → wp (dirlinkFrom k size offs) s
      (fun off t => off = (offs.find? fun off => (direntAt n.data off).inum = 0).getD size ∧ t = s) err := by
    intro offs
    induction offs with
    | nil => exact fun _ => ⟨rfl, rfl⟩
    | cons off rest ih =>
      intro inside
      refine wp_seq (readDirent_spec image has there dir (inside off (.head _))) ?_
      rintro _ _ ⟨rfl, rfl⟩
      refine wp_ite (fun free => ⟨?_, rfl⟩) fun used => ?_
      · rw [List.find?_cons_of_pos (by simpa using free)]
        rfl
      · rw [List.find?_cons_of_neg (by simpa using used)]
        exact ih fun off' mem => inside off' (.tail _ mem)
  exact loop _ fun _ => id

end

end Directory

namespace Good

variable {v : View} {X : Multiset Handle} {L : Finset Nat} {s : Fs} {k : Fin ninode} {i : Nat}
  {n : Node} {err : Stop → Prop} {name : Bytes} {off inum j : Nat} {message : String}

section

variable (good : Good v X L s)
include good

theorem small (there : v.node i = some n) : n.data.length ≤ 140 * 512 := good.disk.small there

section

variable (mem : ⟨k, i, true⟩ ∈ X)
include mem

theorem readDirent {first : Nat} (there : v.node i = some n)
    (dir : n.IsDir) (inside : off ∈ direntOffs n.data.length first) :
    wp (readDirent k off message) s (fun de t => de = direntAt n.data off ∧ t = s) err :=
  readDirent_spec good.disk.image (good.has mem) (good.disk.nodes ▸ there) dir inside

theorem isdirempty (there : v.node i = some n) (dir : n.IsDir) :
    wp (isdirempty k) s (fun r t => r = isEmptyDir n.data ∧ t = s) err := by
  have loop : ∀ offs : List Nat, (∀ off ∈ offs, off ∈ direntOffs n.data.length 2) →
      wp (isdiremptyFrom k offs) s (fun r t => r = offs.all (fun off => (direntAt n.data off).inum = 0) ∧
        t = s) err := by
    intro offs
    induction offs with
    | nil => exact fun _ => ⟨rfl, rfl⟩
    | cons off rest ih =>
      intro inside
      refine wp_seq (good.readDirent mem there dir (inside off (.head _))) ?_
      rintro _ _ ⟨rfl, rfl⟩
      refine wp_ite (fun used => ⟨?_, rfl⟩) fun free => ?_
      · rw [List.all_cons, decide_eq_false used, Bool.false_and]
      · refine wp_mono (ih fun off' mem => inside off' (.tail _ mem)) ?_ fun _ => id
        rintro _ _ ⟨rfl, rfl⟩
        rw [List.all_cons, decide_eq_true (not_not.1 free), Bool.true_and]
        exact ⟨rfl, rfl⟩
  refine wp_inode k ?_
  rw [good.size_eq mem there]
  exact loop _ fun _ => id

theorem dirlookup (there : v.node i = some n) (dir : n.IsDir) (name : Bytes)
    (range : ∀ j off, lookup n.data name = some (j, off) → j < v.ninodes) :
    wp (dirlookup k name) s (fun r t => match lookup n.data name with
        | none => r = none ∧ t = s
        | some (j, off) => ∃ l, r = some (l, off) ∧ Good v (⟨l, j, false⟩ ::ₘ X) L t)
      fun e => lookup n.data name ≠ none ∧ e = .panic "iget: no inodes" ∧ v.Crowded X.card := by
  refine dirlookup_spec good.disk.image (good.has mem) (good.disk.nodes ▸ there) dir
    (fun none => ?_) fun j off found => ?_
  · rw [none]
    exact ⟨rfl, rfl⟩
  · rw [found, ((good.entry k).number (good.handle _ mem).1.1).1]
    exact wp_mono (good.iget (range j off found)) (fun l _ good => ⟨l, rfl, good⟩) fun e full => ⟨nofun, full⟩

theorem dirlookup_none (there : v.node i = some n) (dir : n.IsDir)
    (absent : lookup n.data name = none) : wp (MiniOS.dirlookup k name) s (fun r t => r = none ∧ t = s) err := by
  refine wp_mono (good.dirlookup mem there dir name fun j off found => ?_) (fun r t after => ?_) fun e full => ?_
  · rw [absent] at found
    cases found
  · simpa only [absent] using after
  · exact absurd absent full.1

/-- An entry is written inside of a directory or right behind its end. -/
theorem writeDirent {de : Dirent}
    (there : v.node i = some n) (dir : n.IsDir) (name : de.name.length = 14) (start : off ≤ n.data.length) :
    wp (writeDirent k de off message) s (fun _ t => off + 16 ≤ 140 * 512 ∧
      Good (v.setNode i (some (n.write off de.toBytes))) X L t)
      fun e => e = .panic "balloc: out of blocks" ∧ v.room < (v.setNode i (some (n.write off de.toBytes))).blocks ∨
        e = .panic message ∧ 140 * 512 < off + 16 := by
  have length := Dirent.toBytes_length name
  have file : n.type ≠ tDev := by
    rw [dir.type]
    decide
  by_cases small : off + 16 ≤ 140 * 512
  · refine wp_seq (wp_mono (good.writei mem there file start (by rw [length]; exact small)) (fun _ _ => id)
      fun e full => .inl full) ?_
    rintro _ t ⟨rfl, good⟩
    refine wp_panicIf (fun short => absurd ?_ short) fun _ => ⟨small, good⟩
    rw [length]
  · refine wp_seq (good.writei_refused mem there file (by rw [length]; omega)) ?_
    rintro _ t ⟨rfl, rfl⟩
    exact wp_panicIf (fun _ => .inr ⟨rfl, by omega⟩) fun wrong => absurd nofun wrong

theorem dirlinkFrom (there : v.node i = some n) (dir : n.IsDir) (size : Nat) :
    wp (dirlinkFrom k size (direntOffs n.data.length 0)) s (fun off t =>
      off = ((direntOffs n.data.length 0).find? fun off => (direntAt n.data off).inum = 0).getD size ∧ t = s) err :=
  dirlinkFrom_spec good.disk.image (good.has mem) (good.disk.nodes ▸ there) dir size

/-- `dirlink` of a name that the directory does not have. -/
theorem dirlink_new (there : v.node i = some n) (dir : n.IsDir)
    (absent : lookup n.data name = none) :
    wp (dirlink k name inum) s
      (fun r t => r = 0 ∧ freeOff n.data + 16 ≤ 140 * 512 ∧ Good (v.setNode i (some (n.link name inum))) X L t)
      fun e => e = .panic "balloc: out of blocks" ∧ v.room < (v.setNode i (some (n.link name inum))).blocks ∨
        e = .panic "dirlink" ∧ 140 * 512 < freeOff n.data + 16 := by
  refine wp_seq (good.dirlookup_none mem there dir absent) ?_
  rintro _ _ ⟨rfl, rfl⟩
  refine wp_inode k ?_
  rw [good.size_eq mem there]
  refine wp_seq (good.dirlinkFrom mem there dir _) ?_
  rintro _ _ ⟨rfl, rfl⟩
  refine wp_seq (good.writeDirent mem there dir (strncpy_length ..) (freeOff_le dir.whole)) ?_
  rintro _ t ⟨small, good⟩
  exact ⟨rfl, small, good⟩

/-- `dirlink` of a name that the directory has drops the reference again. -/
theorem dirlink_found (there : v.node i = some n) (dir : n.IsDir)
    (found : lookup n.data name = some (j, off)) (range : j < v.ninodes) (free : j ∉ L)
    (kept : v.Dead j → 0 < v.uses j ∨ j ∈ X.map Handle.inum) :
    wp (dirlink k name inum) s (fun r t => r = -1 ∧ Good v X L t) fun e => e = .panic "iget: no inodes" ∧
    v.Crowded X.card := by
  refine wp_seq (wp_mono (good.dirlookup mem there dir name fun j' off' same => ?_) (fun _ _ => id)
    fun e full => full.2) ?_
  · cases found.symm.trans same
    exact range
  · rw [found]
    rintro _ t ⟨l, rfl, good⟩
    exact wp_seq (good.iput_kept free kept) fun _ t good => ⟨rfl, good⟩

/-- `dirlink` that finds an inode whose lock is taken waits for ever. -/
theorem dirlink_deadlock (there : v.node i = some n) (dir : n.IsDir)
    (found : lookup n.data name = some (j, off)) (range : j < v.ninodes) (taken : j ∈ L) :
    wp (dirlink k name inum) s (fun _ _ => False) fun e => e = .deadlock ∨ e = .panic "iget: no inodes" ∧
    v.Crowded X.card := by
  refine wp_seq (wp_mono (good.dirlookup mem there dir name fun j' off' same => ?_) (fun _ _ => id) fun e full =>
    .inr full.2) ?_
  · cases found.symm.trans same
    exact range
  · rw [found]
    rintro _ t ⟨l, rfl, good⟩
    exact wp_seq (wp_seq (wp_mono (good.acquiresleep_deadlock good.mine taken) (fun _ _ => id) fun e dead =>
      .inl dead) fun _ _ => False.elim)
      fun _ _ => False.elim

end

end

end Good

end MiniOS
