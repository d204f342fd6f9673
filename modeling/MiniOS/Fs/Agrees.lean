import MiniOS.Fs.Held
import MiniOS.Fs.Entries

namespace MiniOS

open Lib Function

variable {sb : Superblock} {block : Nat → Block} {x : Nat} {de : Dirent} {s : Fs} {k : Fin ninode} {err : Stop → Prop}

/-- Every entry of the directory is an inode of the disk. -/
def Node.Names (n : Node) (ninodes : Nat) : Prop := ∀ de ∈ entries n.data, de.inum.toNat < ninodes

/-- Every block has one owner at most, which the free map knows, and the
directories name inodes of the disk. -/
structure WellFormedImage (sb : Superblock) (block : Nat → Block) : Prop where
  image : Image sb block (dinodeOf sb block)
  names : ∀ i n, nodeAt sb block i = some n → n.type = tDir → n.Names sb.ninodes

theorem WellFormedImage.disk (right : WellFormedImage sb block) :
    Disk sb block (nodeAt sb block) 0 :=
  ⟨right.image, rfl, Nat.zero_le _⟩

/-- The image after a change of inode `i`. -/
theorem WellFormedImage.change {block' : Nat → Block} {i : Nat} {new : Option Node}
    (right : WellFormedImage sb block) (disk : Disk sb block' (Function.update (nodeAt sb block) i new) 0)
    (names : ∀ n, new = some n → n.type = tDir → n.Names sb.ninodes) : WellFormedImage sb block' where
  image := disk.image
  names j n there dir := by
    rw [← disk.nodes] at there
    by_cases here : j = i
    · rw [here, update_self] at there
      exact names n there dir
    · rw [update_of_ne here] at there
      exact right.names j n there dir

theorem mem_putEntry {es : List Dirent} {de' : Dirent} (mem : de' ∈ putEntry es x de) : de' = de ∨ de' ∈ es := by
  rw [putEntry] at mem
  split at mem
  · exact (List.mem_or_eq_of_mem_set mem).symm
  · rcases List.mem_append.1 mem with old | new
    · exact .inr old
    · exact .inl (List.mem_singleton.1 new)

/-- A directory with a new entry for an inode of the disk. -/
theorem Node.Names.write {n : Node} {ninodes : Nat} (names : n.Names ninodes) (length : de.name.length = 14)
    (start : x ≤ n.data.length / 16) (inside : de.inum.toNat < ninodes) :
    (n.write (16 * x) de.toBytes).Names ninodes := by
  intro de' mem
  rw [Node.write, entries_write length start] at mem
  rcases mem_putEntry mem with rfl | old
  · exact inside
  · exact names de' old

/-- The inode cache agrees with the disk, for the references `X` of the running
call and for the open files. -/
structure Agrees (X : Multiset Handle) (s : Fs) : Prop where
  image : WellFormedImage s.sb s.block
  entry : ∀ k, 0 < (s.icache k).ref → (s.icache k).dev = rootdev ∧ (s.icache k).inum < s.sb.ninodes
  cached : ∀ k, 0 < (s.icache k).ref → (s.icache k).valid = true →
    (s.icache k).d = dinodeOf s.sb s.block (s.icache k).inum ∧ (s.icache k).d.type ≠ 0
  loaded : ∀ h ∈ X, h.loaded = true → (s.icache h.ip).valid = true
  opened : ∀ f k, (s.ftable f).inode? = some k →
    (s.icache k).valid = true ∧ ((s.ftable f).writable = true → (s.icache k).d.type ≠ tDir)

/-- The panic of `bfree` is the one about blocks that are not owned. -/
def Stop.Owned (e : Stop) : Prop := e ≠ .panic "freeing free block"

instance : DecidablePred Stop.Owned := fun _ => inferInstanceAs (Decidable (_ ≠ _))

/-- No panic about references or blocks. -/
abbrev Stop.Benign (e : Stop) : Prop := e.Uncounted ∧ e.Owned

theorem setInode_d {e : Inode} (same : e.d = (s.icache k).d) (l : Fin ninode) :
    ((s.setInode k e).icache l).d = (s.icache l).d := by
  by_cases here : l = k
  · subst here
    rw [setInode_icache_self, same]
  · rw [setInode_icache_of_ne here]

theorem acquiresleep_spec (dead : err .deadlock) :
    wp (acquiresleep k) s (fun _ t => t = s.setInode k { s.icache k with locked := true }) err :=
  wp_inode k (wp_ite (fun _ => dead) fun _ => rfl)

/-- The function writes nothing to the disk. -/
abbrev Stores {α : Type} (m : FsM α) : Prop := Keeps (fun s : Fs => (s.sb, s.block)) (fun _ => True) m

theorem iget_stores (dev inum : Nat) : Stores (iget dev inum) := by
  refine .bind .get fun s => ?_
  split
  · exact .bind (.modify fun _ => rfl) fun _ => .pure _
  · split
    · exact .throw trivial
    · exact .bind (.modify fun _ => rfl) fun _ => .pure _

theorem ilock_stores (ip : Fin ninode) : Stores (ilock ip) := by
  have panics : ∀ {c : Prop} [Decidable c] {message : String}, Stores (panicIf c message) :=
    .ite (.throw trivial) (.pure _)
  have read : ∀ {dev b : Nat}, Stores (bread dev b) := .bind panics fun _ => .bind .get fun _ => .pure _
  have load : Stores (iload ip) := by
    refine .bind (.bind .get fun _ => .pure _) fun _ => .ite (.pure _) (.bind .get fun _ => .bind read fun _ => ?_)
    exact .bind (.modify fun _ => rfl) fun _ => panics
  have acquire : Stores (acquiresleep ip) :=
    .bind (.bind .get fun _ => .pure _) fun _ => .ite (.throw trivial) (.modify fun _ => rfl)
  exact .bind (.bind .get fun _ => .pure _) fun _ => .bind panics fun _ => .bind acquire fun _ => load

namespace Agrees

variable {X Y : Multiset Handle} {F : Multiset (Fin nfile)} {procs table : Fin nproc → ProcFiles}
  {s : Fs} {k : Fin ninode} {i : Nat} {n : Node} {e : Inode} {h : Handle} {block : Nat → Block}
  {type : BitVec 16} {message : String}

section

variable (right : Agrees X s)
include right

theorem laid : s.sb.Laid := right.image.image.laid

theorem has (busy : 0 < (s.icache k).ref) (valid : (s.icache k).valid = true) : s.Has k (s.icache k).inum :=
  ⟨rfl, (right.entry k busy).2, (right.cached k busy valid).1, (right.cached k busy valid).2⟩

/-- An inode has one entry. -/
theorem apart (holds : Holds F procs table Y s) {l : Fin ninode} (busy : 0 < (s.icache k).ref) (other : l ≠ k)
    (used : 0 < (s.icache l).ref) : (s.icache l).inum ≠ (s.icache k).inum := fun same =>
  other (holds.1.unique l k used busy ((right.entry l used).1.trans (right.entry k busy).1.symm) same)

/-- Entry `k` and the disk change together. -/
theorem change (image : WellFormedImage s.sb block)
    (others : ∀ l, l ≠ k → 0 < (s.icache l).ref → (s.icache l).valid = true →
      dinodeOf s.sb block (s.icache l).inum = dinodeOf s.sb s.block (s.icache l).inum)
    (entry : 0 < e.ref → e.dev = rootdev ∧ e.inum < s.sb.ninodes)
    (cached : 0 < e.ref → e.valid = true → e.d = dinodeOf s.sb block e.inum ∧ e.d.type ≠ 0)
    (loaded : ∀ h ∈ Y, h.loaded = true → if h.ip = k then e.valid = true else (s.icache h.ip).valid = true)
    (opened : ∀ f, (s.ftable f).inode? = some k → e.valid = true ∧ e.d.type = (s.icache k).d.type) :
    Agrees Y { s with block := block, icache := Function.update s.icache k e } where
  image := image
  entry l := by
    by_cases here : l = k
    · subst here
      simpa only [update_self] using entry
    · simpa only [update_of_ne here] using right.entry l
  cached l := by
    by_cases here : l = k
    · subst here
      simpa only [update_self] using cached
    · simp only [update_of_ne here]
      intro used valid
      rw [others l here used valid]
      exact right.cached l used valid
  loaded h mem valid := by
    have after := loaded h mem valid
    by_cases here : h.ip = k
    · rw [if_pos here] at after
      simpa only [here, update_self] using after
    · rw [if_neg here] at after
      simpa only [update_of_ne here] using after
  opened f l there := by
    have before := right.opened f l there
    by_cases here : l = k
    · subst here
      obtain ⟨valid, type⟩ := opened f there
      simp only [update_self, type]
      exact ⟨valid, before.2⟩
    · simpa only [update_of_ne here] using before

/-- Entry `k` changes, and the disk stays. -/
theorem setEntry (entry : 0 < e.ref → e.dev = rootdev ∧ e.inum < s.sb.ninodes)
    (cached : 0 < e.ref → e.valid = true → e.d = dinodeOf s.sb s.block e.inum ∧ e.d.type ≠ 0)
    (loaded : ∀ h ∈ Y, h.loaded = true → if h.ip = k then e.valid = true else (s.icache h.ip).valid = true)
    (opened : ∀ f, (s.ftable f).inode? = some k → e.valid = true ∧ e.d.type = (s.icache k).d.type) :
    Agrees Y (s.setInode k e) :=
  right.change right.image (fun _ _ _ _ => rfl) entry cached loaded opened

/-- A change of the lock or of the number of references. -/
theorem setRef (fewer : ∀ h ∈ Y, h.loaded = true → h ∈ X) {ref : Nat} {locked : Bool}
    (busy : 0 < ref → 0 < (s.icache k).ref) :
    Agrees Y (s.setInode k { s.icache k with ref := ref, locked := locked }) := by
  refine right.setEntry (fun some => right.entry k (busy some)) (fun some => right.cached k (busy some))
    (fun h mem valid => ?_)
    fun f there => ⟨(right.opened f k there).1, rfl⟩
  have before := right.loaded h (fewer h mem valid) valid
  split
  · rename_i here
    exact here ▸ before
  · exact before

theorem reload (fewer : ∀ h ∈ Y, h.loaded = true → h ∈ X ∨ (s.icache h.ip).valid = true) : Agrees Y s :=
  { right with loaded := fun h mem valid => (fewer h mem valid).elim (fun old => right.loaded h old valid) id }

theorem relock (b : Bool) : Agrees X (s.setInode k { s.icache k with locked := b }) :=
  right.setRef (fun _ mem _ => mem) id

theorem iget (holds : Holds F procs table X s) (inside : i < s.sb.ninodes) :
    wp (iget rootdev i) s (fun ip t => Agrees (⟨ip, i, false⟩ ::ₘ X) t) Stop.Owned := by
  have fewer : ∀ ip, ∀ h ∈ (⟨ip, i, false⟩ ::ₘ X : Multiset Handle), h.loaded = true → h ∈ X := by
    intro ip h mem valid
    rcases Multiset.mem_cons.1 mem with rfl | mem
    · cases valid
    · exact mem
  refine wp_get_seq ?_
  split
  · rename_i ip found
    have here := List.find?_some found
    simp only [decide_eq_true_eq] at here
    exact right.setRef (fewer ip) fun _ => here.1
  · split
    · exact show Stop.Owned _ by decide
    · rename_i ip empty
      have free := List.find?_some empty
      simp only [decide_eq_true_eq] at free
      refine right.setEntry (fun _ => ⟨rfl, inside⟩) (fun _ wrong => by cases wrong) (fun h mem valid => ?_)
        fun f there => ?_
      · have old := fewer ip h mem valid
        have busy : 0 < (s.icache h.ip).ref := holds.1.ref_pos old
        rw [if_neg]
        · exact right.loaded h old valid
        · rintro rfl
          omega
      · have count : (s.icache ip).ref = _ := holds.1.inodes ip
        have counted : 0 < countAt (fun f => (s.tables.ftable f).inode?) ip := countAt_pos (i := f) there
        omega

theorem idup (busy : 0 < (s.icache k).ref) :
    wp (idup k) s (fun r t => r = k ∧ Agrees (⟨k, i, false⟩ ::ₘ X) t) Stop.Owned := by
  refine ⟨rfl, right.setRef (fun h mem valid => ?_) fun _ => busy⟩
  rcases Multiset.mem_cons.1 mem with rfl | mem
  · cases valid
  · exact mem

theorem iunlock (k : Fin ninode) : wp (iunlock k) s (fun _ t => Agrees X t) Stop.Owned := by
  refine wp_mono (iunlock_spec (by decide)) ?_ fun _ => id
  rintro _ _ rfl
  exact right.relock false

/-- `ilock` of an entry in use leaves it valid. -/
theorem ilock : wp (ilock k) s (fun _ t => Agrees X t ∧ (t.icache k).valid = true) Stop.Owned := by
  refine wp_inode k (wp_guard (fun _ => by decide) fun busy => wp_seq (acquiresleep_spec (by decide)) ?_)
  rintro _ _ rfl
  have busy : 0 < (s.icache k).ref := by omega
  have right := right.relock (k := k) true
  have same : (s.setInode k { s.icache k with locked := true }).icache k = { s.icache k with locked := true } :=
    setInode_icache_self
  generalize s.setInode k _ = u at right same
  have busy : 0 < (u.icache k).ref := by rwa [same]
  refine wp_mono (iload_spec right.laid (right.entry k busy).2) ?_ fun e stopped => ?_
  · rintro _ _ (⟨valid, rfl⟩ | ⟨invalid, type, rfl⟩)
    · exact ⟨right, valid⟩
    · refine ⟨right.setEntry (fun _ => right.entry k busy) (fun _ _ => ⟨rfl, type⟩) (fun h mem valid => ?_)
        fun f there => ?_, ?_⟩
      · split
        · rfl
        · exact right.loaded h mem valid
      · exact absurd (right.opened f k there).1 invalid
      · rw [setInode_icache_self]
  · rw [stopped.1]
    decide

/-- The numbers of an inode change in the cache and on the disk. -/
theorem update (holds : Holds F procs table Y s) (busy : 0 < (s.icache k).ref) (valid : (s.icache k).valid = true)
    (major minor nlink : Dinode → BitVec 16) :
    wp (do modifyDinode k fun d => { d with major := major d, minor := minor d, nlink := nlink d }
           iupdate k) s (fun _ t => Agrees X t ∧ ∀ l, (t.icache l).d.type = (s.icache l).d.type) Stop.Owned := by
  have has := right.has busy valid
  refine wp_mono (update_spec right.laid has.inside _) ?_ fun _ => id
  rintro _ _ rfl
  refine ⟨?_, fun l => ?_⟩
  rotate_left
  · by_cases here : l = k
    · subst here
      rw [Fs.stored_icache]
    · simp only [Fs.stored, update_of_ne here]
  refine right.change (right.image.change (right.image.disk.update has.inside has.used ?_ ?_ ?_) fun n new dir => ?_)
    (fun l other used _ => ?_) (fun _ => right.entry k busy) (fun _ _ => ⟨?_, has.type⟩) (fun h mem loaded => ?_)
    fun _ _ => ⟨valid, rfl⟩
  · exact has.type
  · rw [← has.same]
  · rw [← has.same]
  · cases new
    have names := right.image.names _ _ has.stands dir
    exact names
  · rw [dinodeOf_putInode, update_of_ne (right.apart holds busy other used)]
  · rw [dinodeOf_putInode, update_self]
  · split
    · exact valid
    · exact right.loaded h mem loaded

/-- A file or directory gets new contents. -/
theorem store (holds : Holds F procs table Y s) (busy : 0 < (s.icache k).ref)
    (valid : (s.icache k).valid = true)
    (there : nodeAt s.sb s.block (s.icache k).inum = some n) {data : Bytes}
    (disk : Disk s.sb block (Function.update (nodeAt s.sb s.block) (s.icache k).inum
      (some { n with data := data })) 0)
    (others : ∀ j < s.sb.ninodes, j ≠ (s.icache k).inum → dinodeOf s.sb block j = dinodeOf s.sb s.block j)
    (names : n.type = tDir → Node.Names { n with data := data } s.sb.ninodes) :
    Agrees X (s.stored k block (dinodeOf s.sb block (s.icache k).inum)) ∧
      ∀ l, ((s.stored k block (dinodeOf s.sb block (s.icache k).inum)).icache l).d.type = (s.icache l).d.type := by
  have has := right.has busy valid
  have after : nodeAt s.sb block (s.icache k).inum = some { n with data := data } := by rw [← disk.nodes, update_self]
  obtain ⟨⟨-, used⟩, same⟩ := nodeAt_eq_some.1 after
  have type : (dinodeOf s.sb block (s.icache k).inum).type = (s.icache k).d.type := by
    rw [has.kind there]
    exact congrArg Node.type same
  refine ⟨right.change (right.image.change disk fun n' new dir => ?_) (fun l other used _ => ?_)
    (fun _ => right.entry k busy)
    (fun _ _ => ⟨rfl, used⟩) (fun h mem loaded => ?_) fun _ _ => ⟨valid, type⟩, fun l => ?_⟩
  · cases new
    exact names dir
  · exact others _ (right.entry l used).2 (right.apart holds busy other used)
  · split
    · exact valid
    · exact right.loaded h mem loaded
  · by_cases here : l = k
    · subst here
      rw [Fs.stored_icache, type]
    · simp only [Fs.stored, update_of_ne here]

/-- A free inode gets a type on the disk. -/
theorem allocNode (inside : i < s.sb.ninodes) (free : (dinodeOf s.sb s.block i).type = 0)
    (real : type ≠ 0) : Agrees X { s with block := putInode s.sb s.block i (freshDinode type) } where
  image := by
    refine right.image.change (right.image.disk.alloc inside ((nodeAt_eq_none inside).2 free) real)
      fun n new dir => ?_
    cases new
    intro de mem
    rw [entries_nil] at mem
    cases mem
  entry := right.entry
  cached l used valid := by
    have before := right.cached l used valid
    have other : (s.icache l).inum ≠ i := by
      intro same
      rw [before.1, same] at before
      exact before.2 free
    rw [dinodeOf_putInode, update_of_ne other]
    exact before
  loaded := right.loaded
  opened := right.opened

theorem ialloc (holds : Holds F procs table X s) (real : type ≠ 0) :
    wp (ialloc rootdev type) s (fun ip t => ∃ i, Holds F procs table (⟨ip, i, false⟩ ::ₘ X) t ∧
      Agrees (⟨ip, i, false⟩ ::ₘ X) t ∧
      (dinodeOf t.sb t.block i).type = type) Stop.Benign := by
  refine ialloc_spec right.laid (fun i inside free _ => ?_) fun _ => by decide
  have counted : Holds F procs table X { s with block := putInode s.sb s.block i (freshDinode type) } :=
    holds.of_tables rfl
  have both := wp_and counted.iget ((right.allocNode inside free real).iget counted inside)
  refine wp_mono (wp_and both (iget_stores rootdev i _)) (fun ip t after => ⟨i, after.1.1, after.1.2, ?_⟩)
    fun _ => And.left
  obtain ⟨sb, block⟩ := Prod.mk.inj after.2
  rw [sb, block, dinodeOf_putInode, update_self]
  rfl

theorem readi (busy : 0 < (s.icache k).ref) (valid : (s.icache k).valid = true) (off m : Nat) :
    wp (readi k off m) s (fun _ t => Agrees X t ∧ (t.icache k).valid = true) Stop.Owned := by
  have has := right.has busy valid
  by_cases device : (s.icache k).d.type = tDev
  · refine wp_inode k ?_
    rw [if_pos device]
    refine wp_ite (fun _ => wp_seq (right.iunlock k) fun _ t right => wp_get_seq (wp_modify_seq ?_)) fun _ =>
      ⟨right, valid⟩
    have right : Agrees X { t with console := fun i => t.console (i + 1) } := { right with }
    exact wp_seq right.ilock fun _ _ after => after
  · refine wp_mono (readi_spec right.image.image has has.stands device off m) ?_ fun _ => id
    rintro _ _ ⟨-, rfl⟩
    exact ⟨right, valid⟩

/-- `writei` to an inode that is no directory. -/
theorem writei (holds : Holds F procs table Y s) (busy : 0 < (s.icache k).ref) (valid : (s.icache k).valid = true)
    (file : (s.icache k).d.type ≠ tDir) (src : Bytes) (off : Nat) :
    wp (writei k src off) s (fun _ t => Agrees X t) Stop.Owned := by
  have has := right.has busy valid
  by_cases device : (s.icache k).d.type = tDev
  · refine wp_inode k ?_
    rw [if_pos device]
    refine wp_ite (fun _ => wp_seq (right.iunlock k) fun _ t right => ?_) fun _ => right
    exact wp_seq right.ilock fun _ _ after => after.1
  · by_cases wrong : (nodeOf s.block (s.icache k).d).data.length < off ∨ (off + src.length) % 2 ^ 32 < off ∨
      140 * 512 < off + src.length
    · refine wp_mono (writei_refused_spec has has.stands device wrong) ?_ fun _ => id
      rintro _ _ ⟨-, rfl⟩
      exact right
    · refine wp_mono (writei_spec right.image.disk has has.stands device (by omega) (by omega)) ?_ fun e full => ?_
      · rintro _ _ ⟨-, block, rfl, disk, others⟩
        exact (right.store holds busy valid has.stands disk others fun dir => absurd dir file).1
      · rw [full.1]
        decide

/-- An entry of a directory is read only if it is whole. -/
theorem readDirent (busy : 0 < (s.icache k).ref) (valid : (s.icache k).valid = true)
    (there : nodeAt s.sb s.block (s.icache k).inum = some n) (dir : n.type = tDir) (off : Nat)
    (stops : Stop.Owned (.panic message)) :
    wp (readDirent k off message) s (fun de t => (de = direntAt n.data off ∧ off + 16 ≤ n.data.length) ∧
      t = s) Stop.Owned := by
  refine wp_seq (readi_spec right.image.image (right.has busy valid) there (by rw [dir]; decide) off 16) ?_
  rintro bytes _ ⟨read, rfl⟩
  split
  · exact stops
  · rename_i bytes
    refine wp_guard (fun _ => stops) fun whole => ⟨?_, rfl⟩
    split at read
    · cases read
    · cases read
      rw [not_not, List.length_take, List.length_drop] at whole
      exact ⟨rfl, by omega⟩

end

theorem dirlookup {dp : Fin ninode} {d : Nat} {name : Bytes} (right : Agrees (⟨dp, d, true⟩ ::ₘ X) s)
    (holds : Holds F procs table (⟨dp, d, true⟩ ::ₘ X) s) :
    wp (dirlookup dp name) s (fun r t => match r with
      | none => t = s ∧ (s.icache dp).d.type = tDir
      | some (ip, _) => ∃ i, Agrees (⟨ip, i, false⟩ ::ₘ ⟨dp, d, true⟩ ::ₘ X) t) Stop.Owned := by
  have busy : 0 < (s.icache dp).ref := holds.1.ref_pos (Multiset.mem_cons_self _ X)
  have valid := right.loaded _ (Multiset.mem_cons_self _ X) rfl
  have there := (right.has busy valid).stands
  have loop : (s.icache dp).d.type = tDir → ∀ offs : List Nat, (∀ off ∈ offs, off % 16 = 0) →
      wp (dirlookupFrom dp name offs) s (fun r t => match r with
        | none => t = s ∧ (s.icache dp).d.type = tDir
        | some (ip, _) => ∃ i, Agrees (⟨ip, i, false⟩ ::ₘ ⟨dp, d, true⟩ ::ₘ X) t) Stop.Owned := by
    intro dir offs
    induction offs with
    | nil => exact fun _ => ⟨rfl, dir⟩
    | cons off rest ih =>
      intro aligned
      have later := ih fun off' mem => aligned off' (.tail off mem)
      refine wp_seq (right.readDirent busy valid there dir off (by decide)) ?_
      rintro _ _ ⟨⟨rfl, whole⟩, rfl⟩
      refine wp_ite (fun _ => later) fun _ => wp_ite (fun _ => wp_inode dp ?_) fun _ => later
      rw [(right.entry dp busy).1]
      refine wp_seq (right.iget holds ?_) fun ip t right => ⟨_, right⟩
      exact right.image.names _ _ there dir _ (direntAt_mem_entries (aligned off (.head _)) whole)
  exact wp_inode dp (wp_guard (fun _ => by decide) fun dir => loop (not_not.1 dir) _ fun _ => direntOffs_aligned)

/-- `iput` of the last reference to an inode without links frees its blocks, which
are not free. -/
theorem iput (right : Agrees (h ::ₘ X) s) (holds : Holds F procs table (h ::ₘ X) s) :
    wp (iput h.ip) s (fun _ t => Agrees X t ∧ ∀ g ∈ X, (t.icache g.ip).d = (s.icache g.ip).d) Stop.Owned := by
  refine wp_seq (acquiresleep_spec (by decide)) ?_
  rintro _ _ rfl
  have right := right.relock (k := h.ip) true
  have holds := holds.of_tables (t := s.setInode h.ip { s.icache h.ip with locked := true })
    (Fs.tables_setInode rfl rfl rfl)
  have same : ∀ l, ((s.setInode h.ip { s.icache h.ip with locked := true }).icache l).d = (s.icache l).d :=
    setInode_d rfl
  generalize s.setInode h.ip _ = u at right holds same
  have busy : 0 < (u.icache h.ip).ref := holds.1.ref_pos (Multiset.mem_cons_self h X)
  have freed : wp (iputLocked h.ip) u (fun _ t => Agrees X t ∧
      ∀ g ∈ X, (t.icache g.ip).d = (u.icache g.ip).d) Stop.Owned := by
    refine wp_inode h.ip (wp_ite (fun last => ?_) fun _ =>
      ⟨right.reload fun _ mem _ => .inl (Multiset.mem_cons_of_mem mem), fun _ _ => rfl⟩)
    have has := right.has busy last.1
    have count : (u.icache h.ip).ref = _ := holds.1.inodes h.ip
    rw [last.2.2, Multiset.map_cons, Multiset.count_cons_self] at count
    have other : ∀ g ∈ X, g.ip ≠ h.ip := by
      intro g mem here
      have counted : 0 < (X.map Handle.ip).count g.ip := Multiset.count_pos.2 (Multiset.mem_map_of_mem _ mem)
      rw [here] at counted
      omega
    refine wp_mono (ifree_spec right.image.image has.inside has.same has.type) ?_ fun _ => id
    rintro _ _ ⟨block, d, erases, rfl⟩
    refine ⟨right.change (right.image.change (right.image.disk.erase has.inside has.used erases) nofun)
      (fun l other used _ => erases.inodes _ (right.entry l used).2 (right.apart holds busy other used))
      (fun _ => right.entry _ busy)
      (fun _ => nofun) (fun g mem loaded => ?_) fun f there => ?_, fun g mem => ?_⟩
    · rw [if_neg (other g mem)]
      exact right.loaded g (Multiset.mem_cons_of_mem mem) loaded
    · have counted : 0 < countAt (fun f => (u.tables.ftable f).inode?) h.ip := countAt_pos (i := f) there
      omega
    · simp only [update_of_ne (other g mem)]
  refine wp_seq freed fun _ t ⟨right, kept⟩ => wp_modify_seq ⟨?_, fun g mem => ?_⟩
  · exact (right.relock (k := h.ip) false).setRef (fun _ mem _ => mem) fun some =>
      Nat.lt_of_lt_of_le some (Nat.sub_le ..)
  · refine Eq.trans ?_ ((kept g mem).trans (same g.ip))
    refine (setInode_d ?_ g.ip).trans (setInode_d ?_ g.ip) <;> rfl

/-- An entry for an inode of the disk is written to a directory. -/
theorem writeDirent (right : Agrees X s) (holds : Holds F procs table Y s) (busy : 0 < (s.icache k).ref)
    (valid : (s.icache k).valid = true) {de : Dirent} {off : Nat} (length : de.name.length = 14)
    (inside : de.inum.toNat < s.sb.ninodes) (aligned : off % 16 = 0) (stops : Stop.Owned (.panic message)) :
    wp (writeDirent k de off message) s (fun _ t => Agrees X t ∧
      ((s.icache k).d.type = tDir → ∀ l, (t.icache l).d.type = (s.icache l).d.type)) Stop.Owned := by
  have has := right.has busy valid
  have written : wp (MiniOS.writei k de.toBytes off) s (fun _ t => Agrees X t ∧
      ((s.icache k).d.type = tDir → ∀ l, (t.icache l).d.type = (s.icache l).d.type)) Stop.Owned := by
    by_cases dir : (s.icache k).d.type = tDir
    · have file : (nodeOf s.block (s.icache k).d).type ≠ tDev := by
        rw [show (nodeOf s.block (s.icache k).d).type = tDir from dir]
        decide
      by_cases wrong : (nodeOf s.block (s.icache k).d).data.length < off ∨ (off + de.toBytes.length) % 2 ^ 32 < off ∨
          140 * 512 < off + de.toBytes.length
      · refine wp_mono (writei_refused_spec has has.stands file wrong) ?_ fun _ => id
        rintro _ _ ⟨-, rfl⟩
        exact ⟨right, fun _ _ => rfl⟩
      · refine wp_mono (writei_spec right.image.disk has has.stands file (by omega) (by omega)) ?_ fun e full => ?_
        · rintro _ _ ⟨-, block, rfl, disk, others⟩
          have names := (right.image.names _ _ has.stands dir).write (x := off / 16) length (by omega) inside
          rw [show 16 * (off / 16) = off by omega] at names
          obtain ⟨after, type⟩ := right.store holds busy valid has.stands disk others fun _ => names
          exact ⟨after, fun _ => type⟩
        · rw [full.1]
          decide
    · exact wp_mono (right.writei holds busy valid dir _ off) (fun _ _ right => ⟨right, fun dir' => absurd dir' dir⟩)
        fun _ => id
  exact wp_seq written fun _ t right => wp_panicIf (fun _ => stops) fun _ => right

end Agrees

end MiniOS
