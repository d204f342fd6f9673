import MiniOS.Fs.SoundFiles
import MiniOS.Fs.ImageCheck

namespace MiniOS

open Lib Relation

variable {sb : Superblock} {block : Nat → Block}

theorem Agrees.zeroed (image : WellFormedImage sb block) (console : Nat → Option Bytes) :
    Agrees 0 (Fs.zeroed sb block console) where
  image := image
  entry _ busy := absurd busy (Nat.lt_irrefl 0)
  cached _ busy := absurd busy (Nat.lt_irrefl 0)
  loaded _ mem := absurd mem (Multiset.notMem_zero _)
  opened _ _ there := absurd (File.inode?_eq_some.1 there).1 (Nat.lt_irrefl 0)

/-- Between the calls of a run the cache agrees with the disk. -/
theorem Sound.reachable {console : Nat → Option Bytes} {s t : Fs}
    (image : WellFormedImage sb block) (boot : userinit (Fs.zeroed sb block console) = .ok ((), s))
    (run : ReflTransGen FsStep s t) :
    Sound 0 t.proc t.proc 0 t :=
  Sound.fileDiscipline.reachable ⟨Fs.Counted.zeroed sb block console, .zeroed image console⟩ boot run

/-- Every valid entry of the inode cache that is in use has the type, numbers, size
and addresses of its inode on the disk. -/
theorem icache_write_through {sb : Superblock} {block : Nat → Block} {console : Nat → Option Bytes} {s t : Fs}
    (image : WellFormedImage sb block) (boot : userinit (Fs.zeroed sb block console) = .ok ((), s))
    (run : ReflTransGen FsStep s t) (k : Fin ninode) (busy : 0 < (t.icache k).ref)
    (valid : (t.icache k).valid = true) :
    (t.icache k).d = dinodeOf t.sb t.block (t.icache k).inum :=
  ((Sound.reachable image boot run).2.cached k busy valid).1

/-- A file is created, and two bytes are written to it. -/
theorem icache_write_through_write : ∃ s t : Fs,
    userinit (Fs.zeroed mkfsSuper emptyRoot fun _ => none) = .ok ((), s) ∧ ReflTransGen FsStep s t ∧
      (t.icache 1).d.size = 2 ∧ (t.icache 1).d = dinodeOf t.sb t.block (t.icache 1).inum := by
  have steps : decide (wp userinit (Fs.zeroed mkfsSuper emptyRoot fun _ => none) (fun _ s => (s.proc 0).Alive ∧
      decide (wp ((FsCall.open (some ([slash, 0x61], 0x202))).run 0) s (fun _ t => (t.proc 0).Alive ∧
        decide (wp ((FsCall.write 0 (some [1, 2])).run 0) t (fun _ u => (u.icache 1).ref = 1 ∧
          (u.icache 1).valid = true ∧ (u.icache 1).d.size = 2) fun _ => False) = true) fun _ => False) = true)
      fun _ => False) = true := by
    decide +kernel
  obtain ⟨_, s, boot, alive, next⟩ := ends_of_decide steps
  obtain ⟨r, t, opened, alive', next⟩ := ends_of_decide next
  obtain ⟨n, u, wrote, ref, valid, size⟩ := ends_of_decide next
  have run := (ReflTransGen.single (FsStep.call 0 (.open (some ([slash, 0x61], 0x202))) r alive trivial opened)).tail
    (FsStep.call 0 (.write 0 (some [1, 2])) n alive' trivial wrote)
  exact ⟨s, u, boot, run, size, icache_write_through emptyRoot_wellFormed boot run 1 (by omega) valid⟩

end MiniOS
