import MiniOS.Fs.Sound

namespace MiniOS

open Lib Function

/-- The part of the state that the agreement of the cache with the disk is about. -/
def Fs.store (s : Fs) : Superblock × (Nat → Block) × (Fin ninode → Inode) × (Fin nfile → File) :=
  (s.sb, s.block, s.icache, s.ftable)

namespace Agrees

variable {X Y : Multiset Handle} {s t : Fs} {f : Fin nfile} {e : File}

theorem of_store (right : Agrees X s) (same : t.store = s.store) : Agrees X t := by
  obtain ⟨sb, block, icache, ftable⟩ : t.sb = s.sb ∧ t.block = s.block ∧ t.icache = s.icache ∧
      t.ftable = s.ftable := by
    simpa only [Fs.store, Prod.mk.injEq] using same
  refine ⟨?_, ?_, ?_, ?_, ?_⟩
  · rw [sb, block]
    exact right.image
  · rw [sb, icache]
    exact right.entry
  · rw [sb, block, icache]
    exact right.cached
  · rw [icache]
    exact right.loaded
  · rw [icache, ftable]
    exact right.opened

/-- An open file changes. -/
theorem setFile (right : Agrees X s) (opened : ∀ k, e.inode? = some k →
    (s.icache k).valid = true ∧ (e.writable = true → (s.icache k).d.type ≠ tDir)) : Agrees X (s.setFile f e) where
  image := right.image
  entry := right.entry
  cached := right.cached
  loaded := right.loaded
  opened g k there := by
    by_cases here : g = f
    · subst here
      simp only [Fs.setFile, update_self] at there ⊢
      exact opened k there
    · simp only [Fs.setFile, update_of_ne here] at there ⊢
      exact right.opened g k there

theorem setFile_same (right : Agrees X s) (inode : e.inode? = (s.ftable f).inode?)
    (writable : e.writable = (s.ftable f).writable) :
    Agrees X (s.setFile f e) := by
  refine right.setFile fun k there => ?_
  rw [writable]
  exact right.opened f k (inode ▸ there)

theorem setFile_none (right : Agrees X s) (type : e.type ≠ .inode) : Agrees X (s.setFile f e) := by
  refine right.setFile fun k there => ?_
  rw [File.inode?_of_ne type] at there
  cases there

end Agrees

/-- The function works on pipes only. -/
abbrev Pipes {α : Type} (m : FsM α) : Prop := Keeps Fs.store Stop.Owned m

namespace Pipes

theorem pipe (page : Nat) : Pipes (pipe page) := by
  refine .bind .get fun s => ?_
  split
  · exact .throw (by decide)
  · exact .pure _

theorem pipeclose (page : Nat) (w : Bool) : Pipes (pipeclose page w) :=
  .bind (pipe page) fun _ => .modify fun _ => rfl

theorem piperead (page n : Nat) : Pipes (piperead page n) := by
  have loop : ∀ n, Pipes (pipereadLoop page n) := by
    intro n
    induction n with
    | zero => exact .pure _
    | succ n ih =>
      exact .bind (pipe page) fun _ => .ite (.pure _) (.bind (.modify fun _ => rfl) fun _ =>
        .bind ih fun _ => .pure _)
  exact .bind (pipe page) fun _ => .ite (.throw (by decide)) (loop n)

theorem pipewrite (page : Nat) (src : Bytes) : Pipes (pipewrite page src) := by
  induction src with
  | nil => exact .pure _
  | cons c rest ih =>
    refine .bind (pipe page) fun _ => .ite (.ite (.throw (by decide)) (.pure _)) ?_
    exact .bind (.modify fun _ => rfl) fun _ => ih

end Pipes

namespace Sound

variable {X : Multiset Handle} {F : Multiset (Fin nfile)} {procs table : Fin nproc → ProcFiles}
  {s : Fs} {k : Fin ninode} {i : Nat} {p : Fin nproc} {f : Fin nfile} {path name : Bytes}

theorem inode_busy (right : Sound F procs table X s) (there : (s.ftable f).inode? = some k) :
    0 < (s.icache k).ref := by
  have counted : 0 < countAt (fun f => (s.tables.ftable f).inode?) k := countAt_pos (i := f) there
  have count : (s.icache k).ref = _ := right.1.1.inodes k
  omega

theorem filealloc (right : Sound F procs table X s) (free : (s.ftable f).ref = 0) :
    Sound (f ::ₘ F) procs table X (s.setFile f { s.ftable f with ref := 1 }) := by
  refine ⟨right.1.filealloc free, right.2.setFile_none ?_⟩
  rw [show (s.ftable f).type = .none from right.1.1.closed f free]
  nofun

theorem filedup (right : Sound F procs table X s) (busy : 0 < (s.ftable f).ref) :
    wp (filedup f) s (fun r t => r = f ∧ Sound (f ::ₘ F) procs table X t) Stop.Benign := by
  have shared : wp (MiniOS.filedup f) s (fun _ t => Agrees X t) Stop.Owned := by
    refine wp_file f (wp_guard (fun _ => by decide) fun _ => right.2.setFile_same ?_ rfl)
    simp only [File.inode?, busy, Nat.succ_pos]
  exact wp_mono (wp_and (right.1.filedup busy) shared) (fun _ _ after => ⟨after.1.1, after.1.2, after.2⟩) fun _ => id

theorem fileclose (right : Sound (f ::ₘ F) procs table X s) :
    wp (fileclose f) s (fun _ t => Sound F procs table X t) Stop.Benign := by
  refine wp_and right.1.fileclose ?_
  refine wp_file f (wp_guard (fun _ => by decide) fun busy => wp_ite (fun more => ?_) fun last => ?_)
  · refine right.2.setFile_same ?_ rfl
    simp only [File.inode?, show 0 < (s.ftable f).ref - 1 from more, show 0 < (s.ftable f).ref by omega]
  · refine wp_modify_seq (?_ : wp _ (s.setFile f { s.ftable f with ref := 0, type := .none }) _ _)
    have shut := right.2.setFile_none (f := f) (e := { s.ftable f with ref := 0, type := .none })
      fun wrong => by cases wrong
    cases type : (s.ftable f).type with
    | none => exact shut
    | pipe => exact (Pipes.pipeclose _ _).wp fun _ _ same => shut.of_store same
    | inode =>
      refine wp_mono (Agrees.iput (shut.reload fun h mem loaded => ?_) (right.1.shutInode type (by omega)))
        (fun _ _ => And.left) fun _ => id
      rcases Multiset.mem_cons.1 mem with rfl | mem
      · cases loaded
      · exact .inl mem

section

variable (right : Sound F procs table X s)
include right

theorem pipealloc {page : Option Nat} (fresh : ∀ q, page = some q → s.pipe q = none) :
    wp (pipealloc page) s (fun r t => match r with
      | none => Sound F procs table X t
      | some (f0, f1) => Sound (f1 ::ₘ f0 ::ₘ F) procs table X t) Stop.Benign := by
  have cache : wp (MiniOS.pipealloc page) s (fun _ t => Agrees X t) Stop.Owned := by
    have drop : ∀ {F s f}, Sound (f ::ₘ F) procs table X s →
        wp (MiniOS.fileclose f) s (fun _ t => Sound F procs table X t) Stop.Owned :=
      fun right => wp_mono right.fileclose (fun _ _ => id) fun _ => And.right
    refine wp_seq filealloc_spec fun f0 t first => ?_
    cases f0 with
    | none =>
      subst first
      exact right.2
    | some f0 =>
      obtain ⟨free0, rfl⟩ := first
      have right := right.filealloc free0
      refine wp_seq filealloc_spec fun f1 u second => ?_
      cases f1 with
      | none =>
        subst second
        exact wp_seq (drop right) fun _ _ right => right.2
      | some f1 =>
        obtain ⟨free1, rfl⟩ := second
        have right := right.filealloc free1
        generalize Fs.setFile _ f1 _ = u at right ⊢
        cases page with
        | none =>
          rw [Multiset.cons_swap] at right
          exact wp_seq (drop right) fun _ _ right => wp_seq (drop right) fun _ _ right => right.2
        | some page =>
          have pipes := right.2.of_store (t := u.setPipe page (some ⟨fun _ => 0, 0, 0, true, true⟩)) rfl
          refine (pipes.setFile_none ?_).setFile_none ?_ <;> exact FileType.noConfusion
  refine wp_mono (wp_and (right.1.pipealloc fresh) cache) (fun r t after => ?_) fun _ => id
  cases r with
  | none => exact after
  | some files => exact after

/-- The functions on an open inode find it loaded after `ilock`. -/
theorem ilock_file (there : (s.ftable f).inode? = some k) :
    wp (MiniOS.ilock k) s (fun _ t => Sound F procs table X t ∧ t.tables = s.tables ∧ 0 < (t.icache k).ref ∧
      (t.icache k).valid = true)
      Stop.Benign := by
  refine wp_mono (wp_and (Frames.ilock k s) right.2.ilock) (fun _ t ⟨same, after, valid⟩ => ?_) fun _ => id
  refine ⟨⟨right.1.of_tables same, after⟩, same, ?_, valid⟩
  rw [show (t.icache k).ref = (s.icache k).ref from congrArg (fun T => (T.entry k).ref) same]
  exact right.inode_busy there

theorem setOff (off : BitVec 32) : Sound F procs table X (s.setFile f { s.ftable f with off := off }) :=
  ⟨right.1.setOff off, right.2.setFile_same rfl rfl⟩

theorem fileread {n : Nat} (busy : 0 < (s.ftable f).ref) :
    wp (fileread f n) s (fun _ t => Sound F procs table X t) Stop.Benign := by
  refine wp_file f (wp_ite (fun _ => right) fun _ => ?_)
  cases type : (s.ftable f).type with
  | none => exact show Stop.Benign _ by decide
  | pipe =>
    have read : wp (piperead (s.ftable f).pipe n) s (fun _ t => Sound F procs table X t) Stop.Benign :=
      wp_and right.1.piperead ((Pipes.piperead _ n).wp fun _ _ same => right.2.of_store same)
    exact wp_seq read fun _ _ right => right
  | inode =>
    have there : (s.ftable f).inode? = some (s.ftable f).ip := if_pos ⟨busy, type⟩
    refine wp_seq (right.ilock_file there) fun _ t ⟨right, _, busy, valid⟩ => ?_
    refine wp_seq (wp_and (right.1.keeps (.readi _ _ n)) (right.2.readi busy valid _ n)) fun r t ⟨holds, after, _⟩ =>
      wp_modify_seq ?_
    have right : Sound F procs table X t := ⟨holds, after⟩
    exact wp_seq ((right.setOff _).iunlock _) fun _ _ right => right.1

theorem filewriteLoop {rounds : Nat} {src : Bytes} (there : (s.ftable f).inode? = some k)
    (writable : (s.ftable f).writable = true) :
    wp (filewriteLoop f k rounds src) s (fun _ t => Sound F procs table X t) Stop.Benign := by
  induction rounds generalizing s src with
  | zero => exact right
  | succ rounds ih =>
    refine wp_ite (fun _ => right) fun _ => wp_seq (right.ilock_file there) fun _ t ⟨right, same, busy, valid⟩ =>
      wp_file f ?_
    have files : t.ftable = s.ftable := congrArg Tables.ftable same
    rw [← files] at there writable
    have file := (right.2.opened f k there).2 writable
    refine wp_seq (wp_and (Frames.writei k _ _ t) (right.2.writei right.1 busy valid file _ _))
      fun r u ⟨same, after⟩ => wp_modify_seq ?_
    have right : Sound F procs table X u := ⟨right.1.of_tables same, after⟩
    have files : u.ftable = t.ftable := congrArg Tables.ftable same
    rw [← files] at there writable
    have right := right.setOff (f := f) ((u.ftable f).off + BitVec.ofNat 32 (r.getD 0))
    have entry : (u.setFile f { u.ftable f with off := (u.ftable f).off + BitVec.ofNat 32 (r.getD 0) }).ftable f =
        { u.ftable f with off := (u.ftable f).off + BitVec.ofNat 32 (r.getD 0) } := update_self ..
    generalize u.setFile f _ = w at right entry
    refine wp_seq (wp_and (Frames.iunlock k w) (right.2.iunlock k)) fun _ x ⟨same, after⟩ => ?_
    have right : Sound F procs table X x := ⟨right.1.of_tables same, after⟩
    have files : x.ftable = w.ftable := congrArg Tables.ftable same
    cases r with
    | none => exact right
    | some r =>
      refine wp_guard (fun _ => by decide) fun _ => ih right ?_ ?_ <;> rw [files, entry]
      · exact there
      · exact writable

theorem filewrite {src : Bytes} (busy : 0 < (s.ftable f).ref) :
    wp (filewrite f src) s (fun _ t => Sound F procs table X t) Stop.Benign := by
  refine wp_file f (wp_ite (fun _ => right) fun writable => ?_)
  cases type : (s.ftable f).type with
  | none => exact show Stop.Benign _ by decide
  | pipe => exact wp_and right.1.pipewrite ((Pipes.pipewrite _ src).wp fun _ _ same => right.2.of_store same)
  | inode => exact right.filewriteLoop (if_pos ⟨busy, type⟩) (Bool.not_eq_false _ ▸ writable)

end

theorem iunlockput {h : Handle} (right : Sound F procs table (h ::ₘ X) s) :
    wp (iunlockput h.ip) s (fun _ t => Sound F procs table X t ∧
      ∀ g ∈ X, (t.icache g.ip).d = (s.icache g.ip).d) Stop.Benign := by
  refine wp_seq (right.iunlock h.ip) fun _ t ⟨right, same⟩ => wp_mono right.iput (fun _ u after => ?_) fun _ => id
  exact ⟨after.1, fun g mem => (after.2 g mem).trans (same g.ip)⟩

/-- A new file is no directory. -/
theorem createIn (right : Sound F procs procs (⟨k, i, true⟩ ::ₘ X) s) :
    wp (createIn k name tFile 0 0) s
      (fun ip t => ∃ j, Sound F procs procs (⟨ip, j, true⟩ ::ₘ X) t ∧ (t.icache ip).d.type = tFile) Stop.Benign := by
  refine wp_inode k (wp_seq (right.ialloc (by decide)) fun ip t ⟨j, right, type⟩ => ?_)
  have locked := wp_mono (wp_and right.ilock (ilock_stores ip t)) (fun _ _ => id) fun _ => And.left
  refine wp_seq locked fun _ t ⟨right, same⟩ => ?_
  obtain ⟨sb, block⟩ := Prod.mk.inj same
  have number : (t.icache ip).inum = j := right.1.1.numbers _ (Multiset.mem_cons_self _ _)
  have type : (t.icache ip).d.type = tFile := by
    rw [(right.2.cached ip right.mine.1 right.mine.2).1, number, sb, block, type]
  refine wp_seq_pair (right.update _ _ _) fun _ u ⟨right, same⟩ => ?_
  rw [← same ip] at type
  have dots : wp (createDots k ip tFile) u (fun _ t => t = u) Stop.Benign :=
    wp_inode k (wp_inode ip (wp_ite (fun dir => absurd dir (by decide)) fun _ => rfl))
  refine wp_seq dots fun _ w done => ?_
  subst done
  refine wp_inode ip ?_
  rw [show (w.icache ip).inum = j from right.1.1.numbers _ (Multiset.mem_cons_self _ _)]
  have right : Sound F procs procs (⟨k, i, true⟩ ::ₘ ⟨ip, j, true⟩ ::ₘ X) w := Discipline.swap right
  have mem : ⟨ip, j, true⟩ ∈ (⟨k, i, true⟩ ::ₘ ⟨ip, j, true⟩ ::ₘ X : Multiset Handle) :=
    Multiset.mem_cons_of_mem (Multiset.mem_cons_self _ X)
  refine wp_seq (right.dirlink ⟨ip, j, true⟩ mem) fun r u ⟨right, same⟩ => ?_
  refine wp_guard (fun _ => by decide) fun linked => wp_seq right.iunlockput fun _ w ⟨right, kept⟩ => ⟨j, right, ?_⟩
  rw [show (w.icache ip).d = (u.icache ip).d from kept _ (Multiset.mem_cons_self _ X), same (by omega) ip, type]

theorem create (right : Sound F procs procs X s) :
    wp (create p path tFile 0 0) s (fun r t => match r with
      | none => Sound F procs procs X t
      | some ip => ∃ j, Sound F procs procs (⟨ip, j, true⟩ ::ₘ X) t ∧ (t.icache ip).d.type = tFile) Stop.Benign := by
  have names := discipline F procs
  refine wp_seq (names.nameiparent right) fun found t right => ?_
  cases found with
  | none => exact right
  | some found =>
    obtain ⟨i, b, right⟩ := right
    refine wp_seq (names.ilock right) fun _ t right => wp_seq (names.dirlookup found.2 right) fun target t right => ?_
    cases target with
    | none => exact wp_seq right.createIn fun _ _ right => right
    | some target =>
      obtain ⟨j, right⟩ := right
      refine wp_seq (names.iunlockput (Discipline.swap right)) fun _ t right =>
        wp_seq (names.ilock right) fun _ t right => ?_
      refine wp_inode _ (wp_ite (fun file => ⟨j, right, file.2⟩) fun _ => ?_)
      exact wp_seq (names.iunlockput right) fun _ _ right => right

/-- A directory is opened for reading only. -/
theorem openInode {omode : BitVec 32} (right : Sound F procs procs X s) :
    wp (openInode p path omode) s (fun r t => match r with
      | none => Sound F procs procs X t
      | some ip => ∃ j, Sound F procs procs (⟨ip, j, true⟩ ::ₘ X) t ∧
          (omode ≠ 0 → (t.icache ip).d.type ≠ tDir)) Stop.Benign := by
  have names := discipline F procs
  refine wp_ite (fun _ => ?_) fun _ => wp_seq (names.namei right) fun found t right => ?_
  · refine wp_mono right.create (fun r t after => ?_) fun _ => id
    cases r with
    | none => exact after
    | some ip =>
      obtain ⟨j, right, type⟩ := after
      exact ⟨j, right, fun _ => by rw [type]; decide⟩
  · cases found with
    | none => exact right
    | some ip =>
      obtain ⟨j, b, right⟩ := right
      refine wp_seq (names.ilock right) fun _ t right => wp_inode ip (wp_ite (fun _ => ?_) fun free => ?_)
      · exact wp_seq (names.iunlockput right) fun _ _ right => right
      · exact ⟨j, right, fun mode dir => free ⟨dir, mode⟩⟩

/-- An open file gets the reference to an inode that the call holds. -/
theorem openFile (right : Sound F procs table (⟨k, i, true⟩ ::ₘ X) s) {e : File} (type : (s.ftable f).type = .none)
    (busy : 0 < (s.ftable f).ref) (ref : e.ref = (s.ftable f).ref) (opened : e.type = .inode) (ip : e.ip = k)
    (mode : e.writable = true → (s.icache k).d.type ≠ tDir) : Sound F procs table X (s.setFile f e) := by
  refine ⟨right.1.openFile type busy ref opened ip, Agrees.setFile ?_ fun l there => ?_⟩
  · exact right.2.reload fun h mem _ => .inl (Multiset.mem_cons_of_mem mem)
  · obtain ⟨-, -, rfl⟩ := File.inode?_eq_some.1 there
    subst ip
    exact ⟨right.mine.2, mode⟩

theorem retable (right : Sound F procs table X s) (new : Fin nproc → ProcFiles) (pid : Nat) :
    Sound F procs new X { s with proc := new, nextpid := pid } :=
  ⟨right.1.retable new pid, right.2.of_store rfl⟩

/-- The calls keep the cache and the disk in agreement. -/
theorem fileDiscipline : FileDiscipline Sound Stop.Benign where
  names := discipline
  table right := right.1.2.1
  idle right := right.1.1.unused _
  opened right := right.1.descr_ref
  retable new pid right := right.retable new pid
  give right alive free := ⟨right.1.give alive free, right.2⟩
  seize right alive here := ⟨right.1.seize alive here, right.2⟩
  giveCwd right free ofile alive here :=
    ⟨right.1.giveCwd free ofile alive here, right.2.reload fun _ mem _ => .inl (Multiset.mem_cons_of_mem mem)⟩
  seizeCwd right here ofile alive gone := by
    refine ⟨right.1.seizeCwd here ofile alive gone, right.2.reload fun h mem loaded => ?_⟩
    rcases Multiset.mem_cons.1 mem with rfl | mem
    · cases loaded
    · exact .inl mem
  restate right ofile cwd idle := ⟨right.1.setProc ofile cwd idle, right.2⟩
  iput right := wp_mono right.iput (fun _ _ after => after.1) fun _ => id
  filedup right busy := right.filedup busy
  fileclose right := right.fileclose
  pipealloc right fresh := right.pipealloc fresh
  fileread right busy := right.fileread busy
  filewrite right busy := right.filewrite busy
  filealloc right free := ⟨right.1.1.closed _ free, right.filealloc free⟩
  opens := ⟨fun d => d.type ≠ tDir, fun right => right.openInode, fun right => right.openFile⟩

end Sound

end MiniOS
