import MiniOS.Fs.Refs
import MiniOS.Fs.Descriptors

namespace MiniOS

open Lib Function

theorem wp_file (f : Fin nfile) {α : Type} {s : Fs} {err : Stop → Prop} {g : File → FsM α} {post : α → Fs → Prop}
    (rest : wp (g (s.ftable f)) s post err) : wp (file f >>= g) s post err := rest

namespace Holds

variable {X Y : Multiset Handle} {F G : Multiset (Fin nfile)} {procs table : Fin nproc → ProcFiles} {s : Fs}
  {p : Fin nproc} {fd : Fin nofile} {f : Fin nfile} {e : File} {h : Handle} {page : Nat}

theorem setFile (holds : Holds F procs table X s) (count : e.ref + F.count f = (s.ftable f).ref + G.count f)
    (others : ∀ g, g ≠ f → G.count g = F.count g) (closed : e.ref = 0 → e.type = .none)
    (inodes : ∀ k, (if e.inode? = some k then 1 else 0) + (Y.map Handle.ip).count k =
      (if (s.ftable f).inode? = some k then 1 else 0) + (X.map Handle.ip).count k)
    (numbers : ∀ h ∈ Y, (s.icache h.ip).inum = h.inum)
    (ends : ∀ page writes, e.IsEnd page writes ↔ (s.ftable f).IsEnd page writes) :
    Holds G procs table Y (s.setFile f e) :=
  ⟨holds.1.setFile count others closed inodes numbers, holds.2.1, holds.2.2.update_same ends⟩

/-- A change of a file that is neither to its type nor to what it refers to. -/
theorem setRef (holds : Holds F procs table X s) (count : e.ref + F.count f = (s.ftable f).ref + G.count f)
    (others : ∀ g, g ≠ f → G.count g = F.count g) (closed : e.ref = 0 → e.type = .none)
    (inode : e.inode? = (s.ftable f).inode?) (ends : ∀ page writes, e.IsEnd page writes ↔
      (s.ftable f).IsEnd page writes) :
    Holds G procs table X (s.setFile f e) :=
  holds.setFile count others closed (fun k => by rw [inode]) holds.1.numbers ends

theorem file_ref (holds : Holds (f ::ₘ F) procs table X s) : 0 < (s.ftable f).ref := by
  have count : (s.ftable f).ref = _ := holds.1.files f
  rw [Multiset.count_cons_self] at count
  omega

theorem descr_ref (holds : Holds F procs table X s) (here : (procs p).ofile fd = some f) : 0 < (s.ftable f).ref := by
  have count : (s.ftable f).ref = _ := holds.1.files f
  have counted : 0 < countAt (fds procs) f := countAt_pos (i := (p, fd)) here
  omega

/-- An open file gets the reference to an inode that the call holds. -/
theorem openFile (holds : Holds F procs table (h ::ₘ X) s) (type : (s.ftable f).type = .none)
    (busy : 0 < (s.ftable f).ref) (ref : e.ref = (s.ftable f).ref) (opened : e.type = .inode) (ip : e.ip = h.ip) :
    Holds F procs table X (s.setFile f e) := by
  have before : (s.ftable f).inode? = none := File.inode?_of_ne (by rw [type]; nofun)
  have after : e.inode? = some h.ip := by rw [File.inode?, if_pos ⟨ref ▸ busy, opened⟩, ip]
  refine holds.setFile (by rw [ref]) (fun _ _ => rfl) (fun free => absurd free (by omega)) (fun k => ?_)
    (fun g mem => holds.1.numbers g (Multiset.mem_cons_of_mem mem)) fun page w => ?_
  · rw [before, after, Multiset.map_cons, Multiset.count_cons]
    simp only [Option.some.injEq, eq_comm, reduceCtorEq, if_false]
    omega
  · exact iff_of_false (File.not_isEnd (by rw [opened]; nofun) page w) (File.not_isEnd (by rw [type]; nofun) page w)

theorem filealloc (holds : Holds F procs table X s) (free : (s.ftable f).ref = 0) :
    Holds (f ::ₘ F) procs table X (s.setFile f { s.ftable f with ref := 1 }) := by
  have type : (s.ftable f).type = .none := holds.1.closed f free
  have inode : (s.ftable f).inode? = none := File.inode?_of_ne (by rw [type]; nofun)
  refine holds.setRef ?_ (fun g other => Multiset.count_cons_of_ne other F) nofun ?_ fun page w => ?_
  · rw [free, Multiset.count_cons_self]
    exact (Nat.add_comm ..).trans (Nat.zero_add _).symm
  · rw [inode, File.inode?_of_ne]
    rw [type]
    nofun
  · exact iff_of_false (File.not_isEnd (by rw [type]; nofun) page w) (File.not_isEnd (by rw [type]; nofun) page w)

/-- The process table may be any other one. -/
theorem retable (holds : Holds F procs table X s) (new : Fin nproc → ProcFiles) (pid : Nat) :
    Holds F procs new X { s with proc := new, nextpid := pid } :=
  ⟨holds.1.frame _ _, rfl, holds.2.2⟩

theorem filedup (holds : Holds F procs table X s) (busy : 0 < (s.ftable f).ref) :
    wp (filedup f) s (fun r t => r = f ∧ Holds (f ::ₘ F) procs table X t) Stop.Uncounted := by
  refine wp_file f (wp_guard (fun free => absurd free ?_) fun _ =>
    ⟨rfl, holds.setRef ?_ (fun g other => Multiset.count_cons_of_ne other F) nofun ?_ fun page w => ?_⟩)
  · exact Nat.not_lt.2 busy
  · rw [Multiset.count_cons_self]
    exact (Nat.add_right_comm ..).trans (Nat.add_assoc ..)
  · simp only [File.inode?, busy, Nat.succ_pos]
  · simp only [File.IsEnd, busy, Nat.succ_pos]

theorem pipeclose {w : Bool} {a : File} (held : Held X F procs (s.setFile f a).tables) (same : s.proc = table)
    (piped : Piped s.ftable s.pipe) (is : (s.ftable f).IsEnd page w) (free : a.ref = 0) :
    wp (pipeclose page w) (s.setFile f a) (fun _ t => Holds F procs table X t) Stop.Uncounted := by
  cases here : s.pipe page with
  | none => exact absurd is (piped.gone page here f w)
  | some e =>
    have closed :=
      piped.closes is free here (d := if w then { e with writeopen := false } else { e with readopen := false })
      (by cases w <;> simp) (by cases w <;> simp)
    rw [MiniOS.pipeclose, wp_bind]
    refine wp_get_seq ?_
    split
    · rename_i gone
      cases here.symm.trans gone
    · rename_i e' there
      cases here.symm.trans there
      exact ⟨held.frame _ _, same, closed⟩

/-- The last reference to a file is dropped, and the call holds the one of the
file to its inode. -/
theorem shutInode (holds : Holds (f ::ₘ F) procs table X s) (type : (s.ftable f).type = .inode)
    (last : (s.ftable f).ref ≤ 1) :
    Holds F procs table (⟨(s.ftable f).ip, (s.icache (s.ftable f).ip).inum, false⟩ ::ₘ X)
      (s.setFile f { s.ftable f with ref := 0, type := .none }) := by
  have busy := holds.file_ref
  have opened : (s.ftable f).inode? = some (s.ftable f).ip := if_pos ⟨busy, type⟩
  refine holds.setFile ?_ (fun g other => (Multiset.count_cons_of_ne other F).symm) (fun _ => rfl)
    (fun k => ?_) (fun h mem => ?_)
    fun page w => ?_
  · rw [Multiset.count_cons_self]
    simp only
    omega
  · rw [File.inode?_of_ne (by simp only; nofun), opened, Multiset.map_cons, Multiset.count_cons]
    simp only [Option.some.injEq, eq_comm, reduceCtorEq, if_false]
    omega
  · rcases Multiset.mem_cons.1 mem with rfl | mem
    · rfl
    · exact holds.1.numbers h mem
  · exact iff_of_false (File.not_isEnd (by simp only; nofun) page w) (File.not_isEnd (by rw [type]; nofun) page w)

theorem fileclose (holds : Holds (f ::ₘ F) procs table X s) :
    wp (fileclose f) s (fun _ t => Holds F procs table X t) Stop.Uncounted := by
  have busy := holds.file_ref
  have others : ∀ g, g ≠ f → F.count g = (f ::ₘ F).count g := fun g other => (Multiset.count_cons_of_ne other F).symm
  refine wp_file f (wp_guard (fun free => absurd free (Nat.not_lt.2 busy)) fun _ =>
    wp_ite (fun more => ?_) fun last => ?_)
  · refine holds.setRef ?_ others (fun free => absurd free (by simp only; omega)) ?_ fun page w => ?_
    · rw [Multiset.count_cons_self]
      simp only
      omega
    · simp only [File.inode?, busy, show 0 < (s.ftable f).ref - 1 from more]
    · simp only [File.IsEnd, busy, show 0 < (s.ftable f).ref - 1 from more]
  · obtain ⟨a, shut⟩ : ∃ a : File, a = { s.ftable f with ref := 0, type := .none } := ⟨_, rfl⟩
    refine wp_modify_seq (?_ : wp _ (s.setFile f { s.ftable f with ref := 0, type := .none }) _ _)
    rw [← shut]
    have free : a.ref = 0 := by rw [shut]
    have none : a.type = .none := by rw [shut]
    have count : a.ref + (f ::ₘ F).count f = (s.ftable f).ref + F.count f := by
      rw [free, Multiset.count_cons_self]
      omega
    have inode : a.inode? = Option.none := File.inode?_of_ne (by rw [none]; decide)
    have mine : ∀ page w, ¬a.IsEnd page w := File.not_isEnd (by rw [none]; decide)
    cases type : (s.ftable f).type with
    | none =>
      refine holds.setRef count others (fun _ => none) ?_ fun page w => ?_
      · rw [inode, File.inode?_of_ne (by rw [type]; decide)]
      · exact iff_of_false (mine page w) (File.not_isEnd (by rw [type]; decide) page w)
    | pipe =>
      have same : (s.tables.ftable f).inode? = Option.none :=
        File.inode?_of_ne (by rw [show s.tables.ftable = s.ftable from rfl, type]; decide)
      refine pipeclose (holds.1.setFile count others (fun _ => none) (fun k => ?_) holds.1.numbers)
        holds.2.1 holds.2.2
        ⟨busy, type, rfl, rfl⟩ free
      rw [inode, same]
    | inode =>
      rw [shut]
      exact iput (holds.shutInode type (by omega))

/-- The call hands a reference to a file over to a descriptor. -/
theorem give (holds : Holds (f ::ₘ F) procs table X s) (alive : (procs p).state ≠ .unused)
    (free : (procs p).ofile fd = none) :
    Holds F (descr procs p fd (some f)) table X s := by
  refine ⟨holds.1.setOfile alive fun g => ?_, holds.2⟩
  rw [free, Multiset.count_cons]
  simp only [Option.some.injEq, eq_comm, reduceCtorEq, if_false]
  omega

/-- The call takes over the reference of a descriptor. -/
theorem seize (holds : Holds F procs table X s) (alive : (procs p).state ≠ .unused)
    (here : (procs p).ofile fd = some f) :
    Holds (f ::ₘ F) (descr procs p fd none) table X s := by
  refine ⟨holds.1.setOfile alive fun g => ?_, holds.2⟩
  rw [here, Multiset.count_cons]
  simp only [Option.some.injEq, eq_comm, reduceCtorEq, if_false]
  omega

/-- The call takes over the reference to the current directory of a process. -/
theorem seizeCwd (holds : Holds F procs table X s) {ip : Fin ninode} {e : ProcFiles} (here : (procs p).cwd = some ip)
    (ofile : e.ofile = (procs p).ofile) (alive : e.state ≠ .unused) (gone : e.cwd = none) :
    Holds F (update procs p e) table (⟨ip, (s.icache ip).inum, false⟩ ::ₘ X) s := by
  refine ⟨holds.1.setCwd ofile (fun idle => absurd idle alive) (fun k => ?_) fun h mem => ?_, holds.2⟩
  · rw [gone, here, Multiset.map_cons, Multiset.count_cons]
    simp only [Option.some.injEq, eq_comm, reduceCtorEq, if_false]
    omega
  · rcases Multiset.mem_cons.1 mem with rfl | mem
    · rfl
    · exact holds.1.numbers h mem

/-- The call hands a reference to an inode over to a process. -/
theorem giveCwd (holds : Holds F procs table (h ::ₘ X) s) {e : ProcFiles} (free : (procs p).cwd = none)
    (ofile : e.ofile = (procs p).ofile) (alive : e.state ≠ .unused) (here : e.cwd = some h.ip) :
    Holds F (update procs p e) table X s := by
  refine ⟨holds.1.setCwd ofile (fun idle => absurd idle alive) (fun k => ?_) fun g mem => ?_, holds.2⟩
  · rw [free, here, Multiset.map_cons, Multiset.count_cons]
    simp only [Option.some.injEq, eq_comm, reduceCtorEq, if_false]
    omega
  · exact holds.1.numbers g (Multiset.mem_cons_of_mem mem)

section

variable (holds : Holds F procs table X s)
include holds

theorem pipealloc {page : Option Nat} (fresh : ∀ q, page = some q → s.pipe q = none) :
    wp (pipealloc page) s (fun r t => match r with
      | none => Holds F procs table X t
      | some (f0, f1) => Holds (f1 ::ₘ f0 ::ₘ F) procs table X t) Stop.Uncounted := by
  refine wp_seq filealloc_spec fun f0 t first => ?_
  cases f0 with
  | none =>
    subst first
    exact holds
  | some f0 =>
    obtain ⟨free0, rfl⟩ := first
    have type0 : (s.ftable f0).type = .none := holds.1.closed f0 free0
    have holds := holds.filealloc free0
    refine wp_seq filealloc_spec fun f1 u second => ?_
    cases f1 with
    | none =>
      subst second
      exact wp_seq holds.fileclose fun _ _ holds => holds
    | some f1 =>
      obtain ⟨free1, rfl⟩ := second
      have type1 : ((s.setFile f0 { s.ftable f0 with ref := 1 }).ftable f1).type = .none := holds.1.closed f1 free1
      have busy := holds.file_ref
      have holds := holds.filealloc free1
      generalize opened : (s.setFile f0 { s.ftable f0 with ref := 1 }).setFile f1 _ = u at holds ⊢
      have busy0 := file_ref (f := f0) (F := f1 ::ₘ F) (by rwa [Multiset.cons_swap] at holds)
      have busy1 := holds.file_ref
      have apart : f0 ≠ f1 := by
        rintro rfl
        exact absurd free1 (Nat.pos_iff_ne_zero.1 busy)
      have type0 : (u.ftable f0).type = .none := by
        rw [← opened]
        simpa only [Fs.setFile, update_of_ne apart, update_self] using type0
      have type1 : (u.ftable f1).type = .none := by
        rw [← opened]
        simpa only [Fs.setFile, update_self] using type1
      cases page with
      | none =>
        rw [Multiset.cons_swap] at holds
        exact wp_seq holds.fileclose fun _ _ holds => wp_seq holds.fileclose fun _ _ holds => holds
      | some page =>
        have gone : u.pipe page = none := by
          rw [← opened]
          exact fresh page rfl
        have first :=
          holds.1.setEnd (e := { u.ftable f0 with type := .pipe, readable := true, writable := false, pipe := page })
          type0 busy0 rfl rfl
        have unchanged : ∀ a, update u.ftable f0 a f1 = u.ftable f1 := fun a => update_of_ne apart.symm ..
        have second := first.setEnd (f := f1)
          (e := { u.ftable f1 with type := .pipe, readable := false, writable := true, pipe := page })
          ((congrArg File.type (unchanged _)).trans type1)
          (Nat.lt_of_lt_of_eq busy1 (congrArg File.ref (unchanged _)).symm)
          (congrArg File.ref (unchanged _)).symm rfl
        have piped := holds.2.2.opens gone apart
          (a := { u.ftable f0 with type := .pipe, readable := true, writable := false, pipe := page })
          (b := { u.ftable f1 with type := .pipe, readable := false, writable := true, pipe := page })
          ⟨busy0, rfl, rfl, rfl⟩ ⟨busy1, rfl, rfl, rfl⟩ type0 type1 (e := ⟨fun _ => 0, 0, 0, true, true⟩) rfl rfl
        change Holds (f1 ::ₘ f0 ::ₘ F) procs table X (((u.setPipe page _).setFile f0 _).setFile f1 _)
        simp only [Fs.setFile, Fs.setPipe, unchanged]
        exact ⟨second.frame _ _, holds.2.1, piped⟩

theorem setProc {e : ProcFiles} (ofile : e.ofile = (procs p).ofile)
    (cwd : e.cwd = (procs p).cwd) (idle : e.state = .unused → (procs p).state = .unused) :
    Holds F (update procs p e) table X s := by
  refine ⟨holds.1.setCwd ofile (fun free => ?_) (fun k => by rw [cwd]) holds.1.numbers, holds.2⟩
  rw [cwd]
  exact holds.1.unused p (idle free)

theorem setOff (off : BitVec 32) : Holds F procs table X (s.setFile f { s.ftable f with off := off }) :=
  holds.setRef rfl (fun _ _ => rfl) (holds.1.closed f) rfl fun _ _ => Iff.rfl

/-- A change of a pipe that opens and closes no end. -/
theorem setPipe {e d : Pipe} (here : s.pipe page = some e)
    (reads : d.readopen = e.readopen) (writes : d.writeopen = e.writeopen) :
    Holds F procs table X (s.setPipe page (some d)) := by
  have same : ∀ page' a, update s.pipe page (some d) page' = some a →
      ∃ b, s.pipe page' = some b ∧ a.readopen = b.readopen ∧ a.writeopen = b.writeopen := by
    intro page' a there
    by_cases me : page' = page
    · subst me
      rw [update_self] at there
      cases there
      exact ⟨e, here, reads, writes⟩
    · rw [update_of_ne me] at there
      exact ⟨a, there, rfl, rfl⟩
  have piped := holds.2.2
  refine ⟨holds.1.frame _ _, holds.2.1, fun page' gone => piped.gone page' ?_, fun page' a there => ?_,
    fun page' a there => ?_,
    fun page' a there => ?_, piped.single⟩
  · by_cases me : page' = page
    · subst me
      simp only [Fs.setPipe, update_self] at gone
      cases gone
    · simpa only [Fs.setPipe, update_of_ne me] using gone
  · obtain ⟨b, before, read, _⟩ := same page' a there
    rw [read]
    exact piped.reads page' b before
  · obtain ⟨b, before, _, write⟩ := same page' a there
    rw [write]
    exact piped.writes page' b before
  · obtain ⟨b, before, read, write⟩ := same page' a there
    rw [read, write]
    exact piped.used page' b before

end

end Holds

end MiniOS
