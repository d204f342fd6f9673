import MiniOS.Fs.Layout
import MiniOS.Proc.Table

namespace MiniOS

open Function

/-- `NINODE`, `NFILE` and `NOFILE`. -/
abbrev ninode : Nat := 50
abbrev nfile : Nat := 100
abbrev nofile : Nat := 16

instance ninode_neZero : NeZero ninode := ⟨by decide⟩

/-- `ROOTDEV` and `ROOTINO`. -/
abbrev rootdev : Nat := 1
abbrev rootino : Nat := 1

/-- `struct inode`. `locked` is the state of its sleep lock and `d` the copy of
the disk inode. -/
structure Inode where
  dev : Nat
  inum : Nat
  ref : Nat
  locked : Bool
  valid : Bool
  d : Dinode

/-- `FD_NONE`, `FD_PIPE` and `FD_INODE`. -/
inductive FileType
  | none
  | pipe
  | inode
  deriving DecidableEq

/-- `struct file`. `pipe` is the address of the page of a pipe. -/
structure File where
  type : FileType
  ref : Nat
  readable : Bool
  writable : Bool
  pipe : Nat
  ip : Fin ninode
  off : BitVec 32

/-- `struct pipe`. -/
structure Pipe where
  data : Nat → BitVec 8
  nread : BitVec 32
  nwrite : BitVec 32
  readopen : Bool
  writeopen : Bool

/-- The part of `struct proc` that the file system uses. -/
structure ProcFiles where
  state : ProcState
  pid : Nat
  ofile : Fin nofile → Option (Fin nfile)
  cwd : Option (Fin ninode)

/-- The state of the file system while one process runs a system call. `block`
is what the buffer cache and the log make of the disk, `pipe` the pages that
hold a pipe, and `console` the answers that `consoleread` is going to find,
`none` for a process that is killed. -/
structure Fs where
  sb : Superblock
  block : Nat → Block
  icache : Fin ninode → Inode
  ftable : Fin nfile → File
  pipe : Nat → Option Pipe
  proc : Fin nproc → ProcFiles
  nextpid : Nat
  console : Nat → Option Bytes

abbrev FsM := StateT Fs (Except Stop)

def panicIf (c : Prop) [Decidable c] (message : String) : FsM Unit :=
  if c then throw (.panic message) else pure ()

def Fs.setInode (s : Fs) (ip : Fin ninode) (e : Inode) : Fs := { s with icache := update s.icache ip e }

def inode (ip : Fin ninode) : FsM Inode := do
  let s ← get
  pure (s.icache ip)

def modifyInode (ip : Fin ninode) (f : Inode → Inode) : FsM Unit := modify fun s => s.setInode ip (f (s.icache ip))

def modifyDinode (ip : Fin ninode) (f : Dinode → Dinode) : FsM Unit := modifyInode ip fun e => { e with d := f e.d }

/-- The data of the buffer that `bread` returns. All inodes are on `ROOTDEV`, and
the model has no other disk. -/
def bread (_dev blockno : Nat) : FsM Block := do
  panicIf (blockno ≥ fssize) "incorrect blockno"
  let s ← get
  pure (s.block blockno)

def logWrite (blockno : Nat) (data : Block) : FsM Unit :=
  modify fun s => { s with block := update s.block blockno data }

def bzero (dev bno : Nat) : FsM Unit := do
  let bp ← bread dev bno
  logWrite bno (memset bp 0 0 512)

/-- The mask `m` of `balloc` and `bfree`. -/
def bitMask (bi : Nat) : BitVec 8 := 1#8 <<< (bi % 8)

/-- The outer loop of `balloc` over the given values of `b`. -/
def ballocFrom (dev : Nat) : List Nat → FsM (BitVec 32)
  | [] => throw (.panic "balloc: out of blocks")
  | b :: rest => do
    let s ← get
    let bp ← bread dev (s.sb.bblock b)
    match (List.range (min 4096 (s.sb.size - b))).find? fun bi => bp (bi / 8) &&& bitMask bi = 0 with
    | some bi => do
      logWrite (s.sb.bblock b) (update bp (bi / 8) (bp (bi / 8) ||| bitMask bi))
      bzero dev (b + bi)
      pure (BitVec.ofNat 32 (b + bi))
    | none => ballocFrom dev rest

def balloc (dev : Nat) : FsM (BitVec 32) := do
  let s ← get
  ballocFrom dev ((List.range ((s.sb.size + 4095) / 4096)).map (4096 * ·))

def bfree (dev b : Nat) : FsM Unit := do
  let s ← get
  let bp ← bread dev (s.sb.bblock b)
  panicIf (bp (b % 4096 / 8) &&& bitMask (b % 4096) = 0) "freeing free block"
  logWrite (s.sb.bblock b) (update bp (b % 4096 / 8) (bp (b % 4096 / 8) &&& ~~~bitMask (b % 4096)))

def iget (dev inum : Nat) : FsM (Fin ninode) := do
  let s ← get
  match (List.finRange ninode).find? fun ip => (s.icache ip).ref > 0 ∧ (s.icache ip).dev = dev ∧
    (s.icache ip).inum = inum with
  | some ip => do
    modifyInode ip fun e => { e with ref := e.ref + 1 }
    pure ip
  | none =>
    match (List.finRange ninode).find? fun ip => (s.icache ip).ref = 0 with
    | none => throw (.panic "iget: no inodes")
    | some ip => do
      modifyInode ip fun e => { e with dev := dev, inum := inum, ref := 1, valid := false }
      pure ip

/-- The loop of `ialloc` over the given inode numbers. -/
def iallocFrom (dev : Nat) (type : BitVec 16) : List Nat → FsM (Fin ninode)
  | [] => throw (.panic "ialloc: no inodes")
  | inum :: rest => do
    let s ← get
    let bp ← bread dev (s.sb.iblock inum)
    if load16 bp (64 * (inum % 8)) = 0 then do
      logWrite (s.sb.iblock inum) (putDinode bp (64 * (inum % 8)) (freshDinode type))
      iget dev inum
    else iallocFrom dev type rest

def ialloc (dev : Nat) (type : BitVec 16) : FsM (Fin ninode) := do
  let s ← get
  iallocFrom dev type (List.range' 1 (s.sb.ninodes - 1))

def iupdate (ip : Fin ninode) : FsM Unit := do
  let s ← get
  let e ← inode ip
  let bp ← bread e.dev (s.sb.iblock e.inum)
  logWrite (s.sb.iblock e.inum) (putDinode bp (64 * (e.inum % 8)) e.d)

def idup (ip : Fin ninode) : FsM (Fin ninode) := do
  modifyInode ip fun e => { e with ref := e.ref + 1 }
  pure ip

/-- `acquiresleep` of the lock of an inode. The calls run one at a time, so a
lock that is taken is held by the caller. -/
def acquiresleep (ip : Fin ninode) : FsM Unit := do
  let e ← inode ip
  if e.locked then throw .deadlock
  else modifyInode ip fun e => { e with locked := true }

def releasesleep (ip : Fin ninode) : FsM Unit := modifyInode ip fun e => { e with locked := false }

/-- What `ilock` does under the lock. -/
def iload (ip : Fin ninode) : FsM Unit := do
  let e ← inode ip
  if e.valid then pure ()
  else do
    let s ← get
    let bp ← bread e.dev (s.sb.iblock e.inum)
    modifyInode ip fun e => { e with d := getDinode bp (64 * (e.inum % 8)), valid := true }
    panicIf (load16 bp (64 * (e.inum % 8)) = 0) "ilock: no type"

def ilock (ip : Fin ninode) : FsM Unit := do
  let e ← inode ip
  panicIf (e.ref < 1) "ilock"
  acquiresleep ip
  iload ip

def iunlock (ip : Fin ninode) : FsM Unit := do
  let e ← inode ip
  panicIf (e.locked = false ∨ e.ref < 1) "iunlock"
  releasesleep ip

/-- The loop of `itrunc` over the direct blocks. -/
def itruncDirect (ip : Fin ninode) : List (Fin 13) → FsM Unit
  | [] => pure ()
  | i :: rest => do
    let e ← inode ip
    if e.d.addrs i = 0 then itruncDirect ip rest
    else do
      bfree e.dev (e.d.addrs i).toNat
      modifyDinode ip fun d => { d with addrs := update d.addrs i 0 }
      itruncDirect ip rest

/-- The loop of `itrunc` over the entries of the indirect block `a`. -/
def itruncEntries (dev : Nat) (a : Block) : List Nat → FsM Unit
  | [] => pure ()
  | j :: rest =>
    if load32 a (4 * j) = 0 then itruncEntries dev a rest
    else do
      bfree dev (load32 a (4 * j)).toNat
      itruncEntries dev a rest

def itruncIndirect (ip : Fin ninode) : FsM Unit := do
  let e ← inode ip
  if e.d.addrs 12 = 0 then pure ()
  else do
    let a ← bread e.dev (e.d.addrs 12).toNat
    itruncEntries e.dev a (List.range 128)
    bfree e.dev (e.d.addrs 12).toNat
    modifyDinode ip fun d => { d with addrs := update d.addrs 12 0 }

def itrunc (ip : Fin ninode) : FsM Unit := do
  itruncDirect ip ((List.finRange 12).map Fin.castSucc)
  itruncIndirect ip
  modifyDinode ip fun d => { d with size := 0 }
  iupdate ip

/-- What `iput` does to an inode that has no links and no other references. -/
def ifree (ip : Fin ninode) : FsM Unit := do
  itrunc ip
  modifyDinode ip fun d => { d with type := 0 }
  iupdate ip
  modifyInode ip fun e => { e with valid := false }

/-- The part of `iput` under the lock. -/
def iputLocked (ip : Fin ninode) : FsM Unit := do
  let e ← inode ip
  if e.valid ∧ e.d.nlink = 0 ∧ e.ref = 1 then ifree ip else pure ()

def iput (ip : Fin ninode) : FsM Unit := do
  acquiresleep ip
  iputLocked ip
  releasesleep ip
  modifyInode ip fun e => { e with ref := e.ref - 1 }

def iunlockput (ip : Fin ninode) : FsM Unit := do
  iunlock ip
  iput ip

/-- The block `ip->addrs[k]`, allocated if there is none. -/
def bmapAddr (ip : Fin ninode) (k : Fin 13) : FsM Nat := do
  let e ← inode ip
  if e.d.addrs k = 0 then do
    let addr ← balloc e.dev
    modifyDinode ip fun d => { d with addrs := update d.addrs k addr }
    pure addr.toNat
  else pure (e.d.addrs k).toNat

/-- The block of entry `j` of the indirect block `ind`, allocated if there is none. -/
def bmapEntry (dev ind j : Nat) : FsM Nat := do
  let a ← bread dev ind
  if load32 a (4 * j) = 0 then do
    let addr ← balloc dev
    logWrite ind (store32 a (4 * j) addr)
    pure addr.toNat
  else pure (load32 a (4 * j)).toNat

def bmap (ip : Fin ninode) (bn : Nat) : FsM Nat :=
  if direct : bn < 12 then bmapAddr ip ⟨bn, by omega⟩
  else if bn - 12 < 128 then do
    let ind ← bmapAddr ip 12
    let e ← inode ip
    bmapEntry e.dev ind (bn - 12)
  else throw (.panic "bmap: out of range")

/-- `CONSOLE`, the only entry of `devsw` with functions. -/
def devsw (major : BitVec 16) : Bool := 0 ≤ major.toInt ∧ major.toInt < 10 ∧ major.toInt = 1

def consoleread (ip : Fin ninode) (n : Nat) : FsM (Option Bytes) := do
  iunlock ip
  let s ← get
  modify fun s => { s with console := fun i => s.console (i + 1) }
  ilock ip
  pure ((s.console 0).map (List.take n))

def consolewrite (ip : Fin ninode) (n : Nat) : FsM (Option Nat) := do
  iunlock ip
  ilock ip
  pure (some n)

/-- The loop of `readi` for `n` bytes, which takes at most `n` rounds. -/
def readLoop (ip : Fin ninode) : Nat → Nat → Nat → FsM Bytes
  | 0, _, _ => pure []
  | rounds + 1, off, n =>
    if n = 0 then pure []
    else do
      let addr ← bmap ip (off / 512)
      let e ← inode ip
      let bp ← bread e.dev addr
      let rest ← readLoop ip rounds (off + min n (512 - off % 512)) (n - min n (512 - off % 512))
      pure (bytesAt bp (off % 512) (min n (512 - off % 512)) ++ rest)

/-- `readi`, with the bytes that it copies to `dst` or `none` for -1. -/
def readi (ip : Fin ninode) (off n : Nat) : FsM (Option Bytes) := do
  let e ← inode ip
  if e.d.type = tDev then
    if devsw e.d.major then consoleread ip n else pure none
  else if off > e.d.size.toNat ∨ (off + n) % 2 ^ 32 < off then pure none
  else do
    let bytes ← readLoop ip n off (if off + n > e.d.size.toNat then e.d.size.toNat - off else n)
    pure (some bytes)

/-- The loop of `writei`, which takes at most `src.length` rounds. -/
def writeLoop (ip : Fin ninode) : Nat → Nat → Bytes → FsM Unit
  | 0, _, _ => pure ()
  | rounds + 1, off, src =>
    if src = [] then pure ()
    else do
      let addr ← bmap ip (off / 512)
      let e ← inode ip
      let bp ← bread e.dev addr
      logWrite addr (memmove bp (off % 512) (src.take (512 - off % 512)))
      writeLoop ip rounds (off + min src.length (512 - off % 512)) (src.drop (512 - off % 512))

/-- The end of `writei`, with the offset behind the last byte written. -/
def writeEnd (ip : Fin ninode) (n off : Nat) : FsM Unit := do
  let e ← inode ip
  if n > 0 ∧ off > e.d.size.toNat then do
    modifyDinode ip fun d => { d with size := BitVec.ofNat 32 off }
    iupdate ip
  else pure ()

/-- `writei` of the bytes `src`, `none` for -1. -/
def writei (ip : Fin ninode) (src : Bytes) (off : Nat) : FsM (Option Nat) := do
  let e ← inode ip
  if e.d.type = tDev then
    if devsw e.d.major then consolewrite ip src.length else pure none
  else if off > e.d.size.toNat ∨ (off + src.length) % 2 ^ 32 < off then pure none
  else if off + src.length > 140 * 512 then pure none
  else do
    writeLoop ip src.length off src
    writeEnd ip src.length (off + src.length)
    pure (some src.length)

end MiniOS
