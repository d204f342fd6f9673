import MiniOS.Lib.Wp
import MiniOS.Fs.Sysfile

namespace MiniOS

open Lib

/-- What an entry of the inode cache says about references. -/
structure Entry where
  dev : Nat
  inum : Nat
  ref : Nat

/-- The tables that refer to each other: the inode cache, the open files, the
pipes and the processes. -/
structure Tables where
  entry : Fin ninode → Entry
  ftable : Fin nfile → File
  pipe : Nat → Option Pipe
  proc : Fin nproc → ProcFiles

def Fs.tables (s : Fs) : Tables where
  entry k := ⟨(s.icache k).dev, (s.icache k).inum, (s.icache k).ref⟩
  ftable := s.ftable
  pipe := s.pipe
  proc := s.proc

/-- The panics of `filedup` and `fileclose` are the ones about reference counts. -/
def Stop.Uncounted (e : Stop) : Prop := e ≠ .panic "filedup" ∧ e ≠ .panic "fileclose"

instance : DecidablePred Stop.Uncounted := fun _ => inferInstanceAs (Decidable (_ ∧ _))

/-- The function uses no reference. -/
abbrev Frames {α : Type} (m : FsM α) : Prop := Keeps Fs.tables Stop.Uncounted m

theorem Fs.tables_setInode {s : Fs} {ip : Fin ninode} {e : Inode} (dev : e.dev = (s.icache ip).dev)
    (inum : e.inum = (s.icache ip).inum) (ref : e.ref = (s.icache ip).ref) : (s.setInode ip e).tables = s.tables := by
  simp only [Fs.tables, Fs.setInode, Tables.mk.injEq, and_true]
  funext k
  by_cases here : k = ip
  · subst here
    rw [Function.update_self, dev, inum, ref]
  · rw [Function.update_of_ne here]

namespace Frames

variable {message : String}

theorem panicIf {c : Prop} [Decidable c] (other : Stop.Uncounted (.panic message)) :
    Frames (panicIf c message) :=
  .ite (.throw other) (.pure _)

theorem inode (ip : Fin ninode) : Frames (inode ip) := .bind .get fun _ => .pure _

theorem modifyInode {ip : Fin ninode} {f : Inode → Inode} (dev : ∀ e, (f e).dev = e.dev)
    (inum : ∀ e, (f e).inum = e.inum) (ref : ∀ e, (f e).ref = e.ref) : Frames (modifyInode ip f) :=
  .modify fun _ => Fs.tables_setInode (dev _) (inum _) (ref _)

theorem modifyDinode (ip : Fin ninode) (f : Dinode → Dinode) : Frames (modifyDinode ip f) :=
  modifyInode (fun _ => rfl) (fun _ => rfl) fun _ => rfl

theorem bread (dev blockno : Nat) : Frames (bread dev blockno) :=
  .bind (panicIf (by decide)) fun _ => .bind .get fun _ => .pure _

theorem logWrite (blockno : Nat) (data : Block) : Frames (logWrite blockno data) := .modify fun _ => rfl

theorem bzero (dev bno : Nat) : Frames (bzero dev bno) := .bind (bread dev bno) fun _ => logWrite bno _

theorem balloc (dev : Nat) : Frames (balloc dev) := by
  have loop : ∀ bs, Frames (ballocFrom dev bs) := by
    intro bs
    induction bs with
    | nil => exact .throw (by decide)
    | cons b rest ih =>
      refine .bind .get fun s => .bind (bread dev _) fun bp => ?_
      split
      · exact .bind (logWrite _ _) fun _ => .bind (bzero dev _) fun _ => .pure _
      · exact ih
  exact .bind .get fun s => loop _

theorem bfree (dev b : Nat) : Frames (bfree dev b) :=
  .bind .get fun _ => .bind (bread dev _) fun _ => .bind (panicIf (by decide)) fun _ => logWrite _ _

section

variable (ip : Fin ninode)
include ip

theorem iupdate : Frames (iupdate ip) :=
  .bind .get fun _ => .bind (inode ip) fun _ => .bind (bread _ _) fun _ => logWrite _ _

theorem acquiresleep : Frames (acquiresleep ip) :=
  .bind (inode ip) fun _ => .ite (.throw (by decide)) (modifyInode (fun _ => rfl) (fun _ => rfl) fun _ => rfl)

theorem releasesleep : Frames (releasesleep ip) :=
  modifyInode (fun _ => rfl) (fun _ => rfl) fun _ => rfl

theorem ilock : Frames (ilock ip) := by
  have load : Frames (iload ip) :=
    .bind (inode ip) fun _ => .ite (.pure _) <| .bind .get fun _ => .bind (bread _ _) fun _ =>
      .bind (modifyInode (fun _ => rfl) (fun _ => rfl) fun _ => rfl) fun _ => panicIf (by decide)
  exact .bind (inode ip) fun _ => .bind (panicIf (by decide)) fun _ => .bind (acquiresleep ip) fun _ => load

theorem iunlock : Frames (iunlock ip) :=
  .bind (inode ip) fun _ => .bind (panicIf (by decide)) fun _ => releasesleep ip

theorem itrunc : Frames (itrunc ip) := by
  have direct : ∀ ks, Frames (itruncDirect ip ks) := by
    intro ks
    induction ks with
    | nil => exact .pure _
    | cons k rest ih =>
      refine .bind (inode ip) fun _ => .ite ih ?_
      exact .bind (bfree _ _) fun _ => .bind (modifyDinode ip _) fun _ => ih
  have entries : ∀ dev a js, Frames (itruncEntries dev a js) := by
    intro dev a js
    induction js with
    | nil => exact .pure _
    | cons j rest ih => exact .ite ih (.bind (bfree _ _) fun _ => ih)
  have indirect : Frames (itruncIndirect ip) :=
    .bind (inode ip) fun _ => .ite (.pure _) <| .bind (bread _ _) fun _ => .bind (entries _ _ _) fun _ =>
      .bind (bfree _ _) fun _ => modifyDinode ip _
  exact .bind (direct _) fun _ => .bind indirect fun _ => .bind (modifyDinode ip _) fun _ => iupdate ip

theorem iputLocked : Frames (iputLocked ip) := by
  refine .bind (inode ip) fun _ => .ite ?_ (.pure _)
  exact .bind (itrunc ip) fun _ => .bind (modifyDinode ip _) fun _ => .bind (iupdate ip) fun _ =>
    modifyInode (fun _ => rfl) (fun _ => rfl) fun _ => rfl

theorem bmap (bn : Nat) : Frames (bmap ip bn) := by
  have addr : ∀ k, Frames (bmapAddr ip k) := fun k =>
    .bind (inode ip) fun _ => .ite (.bind (balloc _) fun _ => .bind (modifyDinode ip _) fun _ => .pure _) (.pure _)
  have entry : ∀ dev ind j, Frames (bmapEntry dev ind j) := fun dev ind j =>
    .bind (bread dev ind) fun _ => .ite (.bind (balloc dev) fun _ => .bind (logWrite ind _) fun _ =>
      .pure _) (.pure _)
  unfold MiniOS.bmap
  split
  · exact addr _
  · exact .ite (.bind (addr 12) fun _ => .bind (inode ip) fun _ => entry _ _ _) (.throw (by decide))

theorem readi (off n : Nat) : Frames (readi ip off n) := by
  have loop : ∀ rounds off n, Frames (readLoop ip rounds off n) := by
    intro rounds
    induction rounds with
    | zero => exact fun _ _ => .pure _
    | succ rounds ih =>
      refine fun off n => .ite (.pure _) ?_
      exact .bind (bmap ip _) fun _ => .bind (inode ip) fun _ => .bind (bread _ _) fun _ =>
        .bind (ih _ _) fun _ => .pure _
  have console : Frames (consoleread ip n) :=
    .bind (iunlock ip) fun _ => .bind .get fun _ => .bind (.modify fun _ => rfl) fun _ =>
    .bind (ilock ip) fun _ => .pure _
  refine .bind (inode ip) fun _ => .ite (.ite console (.pure _)) (.ite (.pure _) ?_)
  exact .bind (loop _ _ _) fun _ => .pure _

theorem writei (src : Bytes) (off : Nat) : Frames (writei ip src off) := by
  have loop : ∀ rounds off src, Frames (writeLoop ip rounds off src) := by
    intro rounds
    induction rounds with
    | zero => exact fun _ _ => .pure _
    | succ rounds ih =>
      refine fun off src => .ite (.pure _) ?_
      exact .bind (bmap ip _) fun _ => .bind (inode ip) fun _ => .bind (bread _ _) fun _ =>
        .bind (logWrite _ _) fun _ => ih _ _
  have console : Frames (consolewrite ip src.length) :=
    .bind (iunlock ip) fun _ => .bind (ilock ip) fun _ => .pure _
  have last : ∀ n off, Frames (writeEnd ip n off) := fun n off =>
    .bind (inode ip) fun _ => .ite (.bind (modifyDinode ip _) fun _ => iupdate ip) (.pure _)
  refine .bind (inode ip) fun _ => .ite (.ite console (.pure _)) (.ite (.pure _) (.ite (.pure _) ?_))
  exact .bind (loop _ _ _) fun _ => .bind (last _ _) fun _ => .pure _

end

theorem readDirent (dp : Fin ninode) (off : Nat) (other : Stop.Uncounted (.panic message)) :
    Frames (readDirent dp off message) := by
  refine .bind (readi dp off 16) fun bytes => ?_
  split
  · exact .throw other
  · exact .bind (panicIf other) fun _ => .pure _

theorem writeDirent (dp : Fin ninode) (de : Dirent) (off : Nat) (other : Stop.Uncounted (.panic message)) :
    Frames (writeDirent dp de off message) :=
  .bind (writei dp _ off) fun _ => panicIf other

end Frames

end MiniOS
