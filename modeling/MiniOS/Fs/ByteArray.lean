import MiniOS.Fs.NodeSpecs
import MiniOS.Fs.ImageCheck
import MiniOS.Fs.Runs

namespace MiniOS

open Lib Function

section ByteArray

variable {s : Fs} {k : Fin ninode} {i off : Nat} {n : Node} {src : Bytes}

/-- The free blocks are enough for the file with `src` written at `off`. -/
def Fs.Room (s : Fs) (n : Node) (off : Nat) (src : Bytes) : Prop :=
  (n.write off src).blocks ≤ spare (inUse s.sb s.block) s.sb.size + n.blocks

end ByteArray

/-- The disk with an empty root directory and an empty file, inode 2. -/
def emptyFile : Nat → Block := putInode mkfsSuper emptyRoot 2 (freshDinode tFile)

theorem emptyFile_disk :
    Disk mkfsSuper emptyFile (update (nodeAt mkfsSuper emptyRoot) 2 (some ⟨tFile, 0, 0, 0, []⟩)) 0 :=
  emptyRoot_wellFormed.disk.alloc (by decide) (by decide +kernel) (by decide)

theorem emptyFile_node : nodeAt mkfsSuper emptyFile 2 = some ⟨tFile, 0, 0, 0, []⟩ :=
  (congrFun emptyFile_disk.nodes 2).symm.trans (update_self ..)

end MiniOS
