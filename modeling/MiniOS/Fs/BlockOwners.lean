import MiniOS.Fs.WriteThrough

namespace MiniOS

open Lib Relation

/-- In every state between calls the image is well formed: each block has one owner at most,
which the free map knows, and every directory entry is for an inode of the disk. No call frees
a block that is free. -/
theorem blocks_owned_once {sb : Superblock} {block : Nat → Block} {console : Nat → Option Bytes} {s t : Fs}
    (image : WellFormedImage sb block) (boot : userinit (Fs.zeroed sb block console) = .ok ((), s))
    (run : ReflTransGen FsStep s t) : WellFormedImage t.sb t.block ∧ ∀ (p : Fin nproc) (call : FsCall) (e : Stop),
      (t.proc p).Alive → call.PageFree t → call.run p t = .error e → e ≠ .panic "freeing free block" := by
  have right := Sound.reachable image boot run
  refine ⟨right.2.image, fun p call e alive free stopped => ?_⟩
  exact (wp_error (Sound.fileDiscipline.run call right alive free) stopped).2

/-- A file is made in an empty root directory, which gets its first block. -/
theorem blocks_owned_once_create : ∃ s t : Fs,
    userinit (Fs.zeroed mkfsSuper emptyRoot fun _ => none) = .ok ((), s) ∧ ReflTransGen FsStep s t ∧
      inUse t.sb t.block 59 = true ∧ WellFormedImage t.sb t.block := by
  have steps : decide (wp userinit (Fs.zeroed mkfsSuper emptyRoot fun _ => none) (fun _ s => (s.proc 0).Alive ∧
      decide (wp ((FsCall.open (some ([slash, 0x61], 0x202))).run 0) s (fun _ t => inUse t.sb t.block 59 = true)
        fun _ => False) = true)
      fun _ => False) = true := by
    decide +kernel
  obtain ⟨_, s, boot, alive, next⟩ := ends_of_decide steps
  obtain ⟨r, t, ended, used⟩ := ends_of_decide next
  have run := ReflTransGen.single (FsStep.call 0 (.open (some ([slash, 0x61], 0x202))) r alive trivial ended)
  exact ⟨s, t, boot, run, used, (blocks_owned_once emptyRoot_wellFormed boot run).1⟩

/-- A root directory with the entry "x" for inode 208, which would be in the block
of the free map. -/
def strayEntry (b : Nat) : Block := fun x =>
  if b = 58 then if x < 7 then 0xFF else if x = 7 then 0x0F else 0
  else if b = 32 then if x = 64 ∨ x = 70 then 1 else if x = 72 then 16 else if x = 76 then 59 else 0
  else if b = 59 then if x = 0 then 208 else if x = 2 then 0x78 else 0
  else 0

theorem strayEntry_image : Image mkfsSuper strayEntry (dinodeOf mkfsSuper strayEntry) :=
  .of_check mkfsSuper_laid (by decide +kernel) (by decide +kernel) (by decide +kernel) (by decide +kernel)

/-- A call of `link` counts a link of that inode in the free map, which then shows
blocks of the metadata as free. -/
theorem stray_entry_frees_metadata : ∃ s t : Fs,
    Image mkfsSuper strayEntry (dinodeOf mkfsSuper strayEntry) ∧
      userinit (Fs.zeroed mkfsSuper strayEntry fun _ => none) = .ok ((), s) ∧
      (FsCall.link (some [slash, 0x78]) (some [slash, 0x79])).run 0 s = .ok (0, t) ∧
      ¬Image t.sb t.block (dinodeOf t.sb t.block) := by
  have steps : decide (wp userinit (Fs.zeroed mkfsSuper strayEntry fun _ => none) (fun _ s =>
      decide (wp ((FsCall.link (some [slash, 0x78]) (some [slash, 0x79])).run 0) s
        (fun r t => r = 0 ∧ t.sb.dataStart = 59 ∧ inUse t.sb t.block 48 = false) fun _ => False) = true) fun _ =>
          False) = true := by
    decide +kernel
  obtain ⟨_, s, boot, next⟩ := ends_of_decide steps
  obtain ⟨r, t, ended, zero, low, free⟩ := ends_of_decide next
  subst zero
  refine ⟨s, t, strayEntry_image, boot, ended, fun image => ?_⟩
  have used := image.covered 48 (by omega)
  rw [free] at used
  cases used

end MiniOS
