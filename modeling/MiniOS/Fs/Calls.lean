import MiniOS.Fs.Walk

namespace MiniOS

open Lib Function

namespace View

variable (v : View) (p : Fin nproc)

def setFile (f : Fin nfile) (e : Opened) : View := { v with file := update v.file f e }

def setProc (e : ProcView) : View := { v with proc := update v.proc p e }

/-- What a call makes of an inode that it has to lock. -/
def locked {α : Type} (i : Nat) (f : Node → Except Stop α) : Except Stop α :=
  match v.node i with
  | none => .error (.panic "ilock: no type")
  | some n => f n

/-- The directory `d` with the node `m` gets an entry for inode `i`. -/
def addEntry (d : Nat) (m : Node) (name : Bytes) (i : Nat) : Except Stop View :=
  if 140 * 512 < freeOff m.data + 16 then .error (.panic "dirlink")
  else .ok (v.setNode d (some (m.link name i)))

/-- The rest of `sys_link`, after the link count of inode `i` is increased. `before`
is the view at the start of the call. -/
def linkIn (before : View) (i d : Nat) (name : Bytes) : Except Stop (Int × View) :=
  v.locked d fun m =>
    match lookup m.data name with
    | some (j, _) => if j = d then .error .deadlock else .ok (-1, before)
    | none =>
      match v.addEntry d m name i with
      | .error e => .error e
      | .ok v => .ok (0, (v.drop d).drop i)

def sysLink (old new : Bytes) : Except Stop (Int × View) :=
  match v.namex p old false with
  | .error e => .error e
  | .ok none => .ok (-1, v)
  | .ok (some (i, _)) =>
    v.locked i fun n =>
      if n.type = tDir then .ok (-1, v)
      else
        let v' := v.setNode i (some { n with nlink := n.nlink + 1 })
        match v'.namex p new true with
        | .error e => .error e
        | .ok none => .ok (-1, v)
        | .ok (some (d, name)) => v'.linkIn v i d name

/-- The directory without the entry at `off`, which was inode `n`. -/
def unlinkedFrom (m n : Node) (off : Nat) : Node :=
  { m.write off (Dirent.toBytes
    ⟨0, List.replicate dirsiz 0⟩) with nlink := if n.type = tDir then m.nlink - 1 else m.nlink }

def sysUnlink (path : Bytes) : Except Stop (Int × View) :=
  match v.namex p path true with
  | .error e => .error e
  | .ok none => .ok (-1, v)
  | .ok (some (d, name)) =>
    v.locked d fun m =>
      if namecmp name dot ∨ namecmp name dotdot then .ok (-1, v)
      else match lookup m.data name with
        | none => .ok (-1, v)
        | some (j, off) =>
          if j = d then .error .deadlock
          else v.locked j fun n =>
            if n.nlink.toInt < 1 then .error (.panic "unlink: nlink < 1")
            else if n.type = tDir ∧ isEmptyDir n.data = false then .ok (-1, v)
            else .ok (0, (((v.setNode d (some (unlinkedFrom m n off))).drop d).setNode j
              (some { n with nlink := n.nlink - 1 })).drop j)

/-- The bytes of a new directory `i` in the directory `d`. -/
def dots (i d : Nat) : Bytes :=
  Dirent.toBytes ⟨BitVec.ofNat 16 i, strncpy dot dirsiz⟩ ++ Dirent.toBytes ⟨BitVec.ofNat 16 d, strncpy dotdot dirsiz⟩

/-- A new inode `i` in the directory `d`. -/
def newNode (i d : Nat) (type major minor : BitVec 16) : Node :=
  ⟨type, major, minor, 1, if type = tDir then dots i d else []⟩

/-- `create`, with the inode that it returns locked. -/
def create (path : Bytes) (type major minor : BitVec 16) : Except Stop (Option Nat × View) :=
  match v.namex p path true with
  | .error e => .error e
  | .ok none => .ok (none, v)
  | .ok (some (d, name)) =>
    v.locked d fun m =>
      match lookup m.data name with
      | some (j, _) => v.locked j fun n => .ok (if type = tFile ∧ n.type = tFile then some j else none, v)
      | none =>
        match v.freeInode with
        | none => .error (.panic "ialloc: no inodes")
        | some i =>
          let m' := { m with nlink := if type = tDir then m.nlink + 1 else m.nlink }
          match (v.setNode i (some (newNode i d type major minor))).addEntry d m' name i with
          | .error e => .error e
          | .ok v => .ok (some i, v.drop d)

/-- `sys_mkdir` and `sys_mknod`. -/
def sysCreate (path : Bytes) (type major minor : BitVec 16) : Except Stop (Int × View) :=
  match v.create p path type major minor with
  | .error e => .error e
  | .ok (none, v) => .ok (-1, v)
  | .ok (some _, v) => .ok (0, v)

/-- The inode that `sys_open` opens. -/
def openInode (path : Bytes) (omode : BitVec 32) : Except Stop (Option Nat × View) :=
  if omode &&& oCreate ≠ 0 then v.create p path tFile 0 0
  else match v.namex p path false with
    | .error e => .error e
    | .ok none => .ok (none, v)
    | .ok (some (i, _)) => v.locked i fun n => .ok (if n.type = tDir ∧ omode ≠ 0 then none else some i, v)

/-- The file and the descriptor that `sys_open` finds. -/
def freeFile : Option (Fin nfile) := (List.finRange nfile).find? fun f => (v.file f).ref = 0

def freeFd : Option (Fin nofile) := (List.finRange nofile).find? fun fd => (v.proc p).ofile fd = none

def sysOpen (path : Bytes) (omode : BitVec 32) : Except Stop (Int × View) :=
  match v.openInode p path omode with
  | .error e => .error e
  | .ok (none, v) => .ok (-1, v)
  | .ok (some i, v) =>
    match v.freeFile, v.freeFd p with
    | some f, some fd =>
      .ok (fd, (v.setProc p { v.proc p with ofile := update (v.proc p).ofile fd (some f) }).setFile f
        ⟨.inode, 1, omode &&& oWronly = 0, omode &&& oWronly ≠ 0 ∨ omode &&& oRdwr ≠ 0, (v.file f).pipe, i, 0⟩)
    | _, _ => .ok (-1, v)

def sysChdir (path : Bytes) : Except Stop (Int × View) :=
  match v.namex p path false with
  | .error e => .error e
  | .ok none => .ok (-1, v)
  | .ok (some (i, _)) =>
    v.locked i fun n =>
      if n.type ≠ tDir then .ok (-1, v)
      else .ok (0, (v.setProc p { v.proc p with cwd := some i }).drop ((v.proc p).cwd.getD 0))

end View

/-- The system calls that take the name of a file. -/
inductive NameCall
  | open (args : Option (Bytes × BitVec 32))
  | link (old new : Option Bytes)
  | unlink (path : Option Bytes)
  | mkdir (path : Option Bytes)
  | mknod (args : Option (Bytes × BitVec 16 × BitVec 16))
  | chdir (path : Option Bytes)

def NameCall.call : NameCall → FsCall
  | .open args => .open args
  | .link old new => .link old new
  | .unlink path => .unlink path
  | .mkdir path => .mkdir path
  | .mknod args => .mknod args
  | .chdir path => .chdir path

/-- What a call of process `p` returns and makes of the view. -/
def View.call (v : View) (p : Fin nproc) : NameCall → Except Stop (Int × View)
  | .open (some (path, omode)) => v.sysOpen p path omode
  | .link (some old) (some new) => v.sysLink p old new
  | .unlink (some path) => v.sysUnlink p path
  | .mkdir (some path) => v.sysCreate p path tDir 0 0
  | .mknod (some (path, major, minor)) => v.sysCreate p path tDev major minor
  | .chdir (some path) => v.sysChdir p path
  | _ => .ok (-1, v)

end MiniOS
