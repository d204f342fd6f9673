import MiniOS.Fs.Counts
import MiniOS.Fs.Runs

namespace MiniOS

open Lib Relation

namespace Holds

variable {X : Multiset Handle} {F : Multiset (Fin nfile)} {procs table : Fin nproc → ProcFiles} {s : Fs}
  {p : Fin nproc} {f : Fin nfile} {page n : Nat} {src : Bytes}

section

variable (holds : Holds F procs table X s)
include holds

theorem pipe :
    wp (pipe page) s (fun e t => t.pipe page = some e ∧ Holds F procs table X t) Stop.Uncounted := by
  refine wp_get_seq ?_
  cases here : s.pipe page with
  | none => exact show Stop.Uncounted _ by decide
  | some e => exact ⟨here, holds⟩

theorem piperead :
    wp (piperead page n) s (fun _ t => Holds F procs table X t) Stop.Uncounted := by
  have loop : ∀ n s, Holds F procs table X s →
      wp (pipereadLoop page n) s (fun _ t => Holds F procs table X t) Stop.Uncounted := by
    intro n
    induction n with
    | zero => exact fun _ holds => holds
    | succ n ih =>
      refine fun s holds => wp_seq holds.pipe fun e t ⟨here, holds⟩ => wp_ite (fun _ => holds) fun _ => ?_
      exact wp_modify_seq (wp_seq (ih _ (holds.setPipe here rfl rfl)) fun _ _ holds => holds)
  refine wp_seq holds.pipe fun e t ⟨_, holds⟩ => ?_
  exact wp_ite (fun _ => show Stop.Uncounted _ by decide) fun _ => loop n t holds

theorem pipewrite :
    wp (pipewrite page src) s (fun _ t => Holds F procs table X t) Stop.Uncounted := by
  induction src generalizing s with
  | nil => exact holds
  | cons c rest ih =>
    refine wp_seq holds.pipe fun e t ⟨here, holds⟩ => wp_ite (fun _ => ?_) fun _ => ?_
    · exact wp_ite (fun _ => show Stop.Uncounted _ by decide) fun _ => holds
    · exact wp_modify_seq (ih (holds.setPipe here rfl rfl))

theorem fileread :
    wp (fileread f n) s (fun _ t => Holds F procs table X t) Stop.Uncounted := by
  refine wp_file f (wp_ite (fun _ => holds) fun _ => ?_)
  cases (s.ftable f).type with
  | none => exact show Stop.Uncounted _ by decide
  | pipe => exact wp_seq holds.piperead fun _ _ holds => holds
  | inode =>
    refine wp_seq (holds.keeps (.ilock _)) fun _ t holds => wp_seq (holds.keeps (.readi _ _ n)) fun r t holds => ?_
    exact wp_modify_seq (wp_seq ((holds.setOff _).keeps (.iunlock _)) fun _ _ holds => holds)

theorem filewrite :
    wp (filewrite f src) s (fun _ t => Holds F procs table X t) Stop.Uncounted := by
  have loop : ∀ ip rounds src s, Holds F procs table X s →
      wp (filewriteLoop f ip rounds src) s (fun _ t => Holds F procs table X t) Stop.Uncounted := by
    intro ip rounds
    induction rounds with
    | zero => exact fun _ _ holds => holds
    | succ rounds ih =>
      refine fun src s holds => wp_ite (fun _ => holds) fun _ => wp_seq (holds.keeps (.ilock ip)) fun _ t holds =>
        wp_file f ?_
      refine wp_seq (holds.keeps (.writei ip _ _)) fun r t holds => wp_modify_seq ?_
      refine wp_seq ((holds.setOff _).keeps (.iunlock ip)) fun _ t holds => ?_
      cases r with
      | none => exact holds
      | some r => exact wp_guard (fun _ => by decide) fun _ => ih _ t holds
  refine wp_file f (wp_ite (fun _ => holds) fun _ => ?_)
  cases (s.ftable f).type with
  | none => exact show Stop.Uncounted _ by decide
  | pipe => exact holds.pipewrite
  | inode => exact loop _ _ src s holds

end

/-- The calls keep the counts on any disk. -/
theorem fileDiscipline : FileDiscipline Holds Stop.Uncounted where
  names := discipline
  table holds := holds.2.1
  idle holds := holds.1.unused _
  opened holds := holds.descr_ref
  retable new pid holds := holds.retable new pid
  give holds := holds.give
  seize holds := holds.seize
  giveCwd holds := holds.giveCwd
  seizeCwd holds := holds.seizeCwd
  restate holds := holds.setProc
  iput holds := iput holds
  filedup holds := holds.filedup
  fileclose holds := holds.fileclose
  pipealloc holds := holds.pipealloc
  fileread holds _ := holds.fileread
  filewrite holds _ := holds.filewrite
  filealloc holds free := ⟨holds.1.closed _ free, holds.filealloc free⟩
  opens := by
    refine ⟨fun _ => True, fun holds => ?_,
      fun holds type busy ref opened ip _ => holds.openFile type busy ref opened ip⟩
    refine wp_mono ((discipline _ _).openInode holds) (fun r _ after => ?_) fun _ => id
    cases r with
    | none => exact after
    | some ip =>
      obtain ⟨i, holds⟩ := after
      exact ⟨i, holds, fun _ => trivial⟩

end Holds

/-- The counts are right while no call runs. -/
def Fs.Counted (s : Fs) : Prop := Holds 0 s.proc s.proc 0 s

theorem File.inode?_eq_some {e : File} {k : Fin ninode} : e.inode? = some k ↔ 0 < e.ref ∧
    e.type = .inode ∧ e.ip = k := by
  by_cases opened : 0 < e.ref ∧ e.type = .inode
  · rw [File.inode?, if_pos opened, Option.some.injEq]
    exact ⟨fun same => ⟨opened.1, opened.2, same⟩, fun here => here.2.2⟩
  · rw [File.inode?, if_neg opened]
    exact ⟨fun wrong => (by cases wrong), fun here => absurd ⟨here.1, here.2.1⟩ opened⟩

/-- What the reference counts and the flags of pipes say. -/
structure Fs.RefsExact (s : Fs) : Prop where
  files : ∀ f, (s.ftable f).ref = (Finset.univ.filter fun x : Fin nproc × Fin nofile =>
    (s.proc x.1).state ≠ .unused ∧ (s.proc x.1).ofile x.2 = some f).card
  inodes : ∀ k, (s.icache k).ref =
    (Finset.univ.filter fun f => 0 < (s.ftable f).ref ∧ (s.ftable f).type = .inode ∧ (s.ftable f).ip = k).card +
      (Finset.univ.filter fun p => (s.proc p).cwd = some k).card
  unique : ∀ k l, 0 < (s.icache k).ref → 0 < (s.icache l).ref → (s.icache k).dev = (s.icache l).dev →
    (s.icache k).inum = (s.icache l).inum → k = l
  pipes : Piped s.ftable s.pipe

theorem Fs.Counted.exact {s : Fs} (holds : s.Counted) : s.RefsExact where
  files f := by
    have count : (s.ftable f).ref = _ := holds.1.files f
    rw [count, Multiset.count_zero, Nat.add_zero, countAt]
    refine congrArg Finset.card (Finset.filter_congr fun x _ =>
      ⟨fun here => ⟨fun idle => ?_, here⟩, fun here => here.2⟩)
    have free := (holds.1.unused x.1 idle).1 x.2
    rw [show (s.proc x.1).ofile x.2 = some f from here] at free
    cases free
  inodes k := by
    have count : (s.icache k).ref = _ := holds.1.inodes k
    rw [count, Multiset.map_zero, Multiset.count_zero, Nat.add_zero, countAt, countAt]
    congr 2
    exact Finset.filter_congr fun f _ => File.inode?_eq_some
  unique := holds.1.unique
  pipes := holds.2.2

theorem Fs.Counted.zeroed (sb : Superblock) (block : Nat → Block) (console : Nat → Option Bytes) :
    (Fs.zeroed sb block console).Counted where
  left := ⟨fun _ => (Nat.add_eq_zero_iff.2 ⟨countAt_eq_zero.2 nofun, rfl⟩).symm,
    fun _ => (Nat.add_eq_zero_iff.2 ⟨Nat.add_eq_zero_iff.2 ⟨countAt_eq_zero.2 nofun, countAt_eq_zero.2 nofun⟩,
      rfl⟩).symm,
    fun _ mem => absurd mem (Multiset.notMem_zero _), fun _ _ used => absurd used (Nat.lt_irrefl 0), fun _ _ => rfl,
    fun _ _ => ⟨fun _ => rfl, rfl⟩⟩
  right := ⟨rfl, fun _ _ _ _ is => absurd is.1 (Nat.lt_irrefl 0), nofun, nofun, nofun,
    fun _ _ _ _ is => absurd is.1 (Nat.lt_irrefl 0)⟩

/-- In every state between calls the reference counts are exact, and the next
call does not panic in `filedup` or `fileclose`. -/
theorem references_exact {sb : Superblock} {block : Nat → Block} {console : Nat → Option Bytes} {s t : Fs}
    (boot : userinit (Fs.zeroed sb block console) = .ok ((), s)) (run : ReflTransGen FsStep s t) :
    t.RefsExact ∧ ∀ (p : Fin nproc) (call : FsCall) (e : Stop),
      (t.proc p).Alive → call.PageFree t → call.run p t = .error e → e.Uncounted := by
  have files := Holds.fileDiscipline
  have counted : t.Counted := files.reachable (Fs.Counted.zeroed sb block console) boot run
  exact ⟨counted.exact, fun p call e alive free stopped => wp_error (files.run call counted alive free) stopped⟩

/-- After `userinit` a call of `pipe` opens two files. -/
theorem references_exact_pipe : ∃ s t : Fs,
    userinit (Fs.zeroed ⟨1000, 941, 200, 30, 2, 32, 58⟩ (fun _ _ => 0) fun _ => none) = .ok ((), s) ∧
      ReflTransGen FsStep s t ∧ (t.ftable 0).ref = 1 ∧ (t.ftable 1).ref = 1 ∧ t.RefsExact := by
  obtain ⟨s, boot, alive, t, ended, free, read, write⟩ : ∃ s : Fs,
      userinit (Fs.zeroed ⟨1000, 941, 200, 30, 2, 32, 58⟩ (fun _ _ => 0) fun _ => none) = .ok ((), s) ∧
        (s.proc 0).Alive ∧ ∃ t : Fs, (FsCall.pipe true (some 4096)).run 0 s = .ok (0, t) ∧
          (FsCall.pipe true (some 4096)).PageFree s ∧ (t.ftable 0).ref = 1 ∧ (t.ftable 1).ref = 1 :=
    ⟨_, rfl, ⟨nofun, nofun⟩, _, rfl, rfl, rfl, rfl⟩
  have run := ReflTransGen.single (FsStep.call 0 _ 0 alive free ended)
  exact ⟨s, t, boot, run, read, write, (references_exact boot run).1⟩

end MiniOS
