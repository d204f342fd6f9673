import MiniOS.Fs.Dir

namespace MiniOS

open Function

section File

def file (f : Fin nfile) : FsM File := do
  let s ← get
  pure (s.ftable f)

def Fs.setFile (s : Fs) (f : Fin nfile) (e : File) : Fs := { s with ftable := update s.ftable f e }

def modifyFile (f : Fin nfile) (g : File → File) : FsM Unit := modify fun s => s.setFile f (g (s.ftable f))

def Fs.setPipe (s : Fs) (page : Nat) (e : Option Pipe) : Fs := { s with pipe := update s.pipe page e }

/-- The pipe in the given page. The model stops at the use of a page that holds none. -/
def pipe (page : Nat) : FsM Pipe := do
  let s ← get
  match s.pipe page with
  | none => throw (.panic "trap")
  | some e => pure e

def filealloc : FsM (Option (Fin nfile)) := do
  let s ← get
  match (List.finRange nfile).find? fun f => (s.ftable f).ref = 0 with
  | none => pure none
  | some f => do
    modifyFile f fun e => { e with ref := 1 }
    pure (some f)

def filedup (f : Fin nfile) : FsM (Fin nfile) := do
  let e ← file f
  panicIf (e.ref < 1) "filedup"
  modifyFile f fun e => { e with ref := e.ref + 1 }
  pure f

def pipeclose (page : Nat) (writable : Bool) : FsM Unit := do
  let e ← pipe page
  let e := if writable then { e with writeopen := false } else { e with readopen := false }
  modify fun s => s.setPipe page (if e.readopen = false ∧ e.writeopen = false then none else some e)

def fileclose (f : Fin nfile) : FsM Unit := do
  let ff ← file f
  panicIf (ff.ref < 1) "fileclose"
  if ff.ref - 1 > 0 then modifyFile f fun e => { e with ref := e.ref - 1 }
  else do
    modifyFile f fun e => { e with ref := 0, type := .none }
    match ff.type with
    | .none => pure ()
    | .pipe => pipeclose ff.pipe ff.writable
    | .inode => iput ff.ip

/-- The loop of `piperead` that copies up to `n` bytes. -/
def pipereadLoop (page : Nat) : Nat → FsM Bytes
  | 0 => pure []
  | n + 1 => do
    let e ← pipe page
    if e.nread = e.nwrite then pure []
    else do
      modify fun s => s.setPipe page (some { e with nread := e.nread + 1 })
      let rest ← pipereadLoop page n
      pure (e.data (e.nread.toNat % 512) :: rest)

/-- `piperead` by a process that is not killed. With one call at a time it waits
for ever for a pipe that is empty. -/
def piperead (page n : Nat) : FsM Bytes := do
  let e ← pipe page
  if e.nread = e.nwrite ∧ e.writeopen then throw .deadlock
  else pipereadLoop page n

/-- `pipewrite` by a process that is not killed, `false` for -1. -/
def pipewrite (page : Nat) : Bytes → FsM Bool
  | [] => pure true
  | c :: rest => do
    let e ← pipe page
    if e.nwrite = e.nread + 512 then if e.readopen then throw .deadlock else pure false
    else do
      modify fun s => s.setPipe page
        (some { e with data := update e.data (e.nwrite.toNat % 512) c, nwrite := e.nwrite + 1 })
      pipewrite page rest

/-- `fileread`, with the bytes that it copies to `addr` or `none` for -1. -/
def fileread (f : Fin nfile) (n : Nat) : FsM (Option Bytes) := do
  let e ← file f
  if e.readable = false then pure none
  else match e.type with
    | .none => throw (.panic "fileread")
    | .pipe => do
      let bytes ← piperead e.pipe n
      pure (some bytes)
    | .inode => do
      ilock e.ip
      let r ← readi e.ip e.off.toNat n
      modifyFile f fun e => { e with off := e.off + BitVec.ofNat 32 (r.getD []).length }
      iunlock e.ip
      pure r

/-- The loop of `filewrite`, which takes at most `src.length` rounds: whether all
bytes are written. -/
def filewriteLoop (f : Fin nfile) (ip : Fin ninode) : Nat → Bytes → FsM Bool
  | 0, _ => pure true
  | rounds + 1, src =>
    if src = [] then pure true
    else do
      ilock ip
      let e ← file f
      let r ← writei ip (src.take (3 * 512)) e.off.toNat
      modifyFile f fun e => { e with off := e.off + BitVec.ofNat 32 (r.getD 0) }
      iunlock ip
      match r with
      | none => pure false
      | some r => do
        panicIf (r ≠ (src.take (3 * 512)).length) "short filewrite"
        filewriteLoop f ip rounds (src.drop (3 * 512))

/-- `filewrite`, `false` for -1. -/
def filewrite (f : Fin nfile) (src : Bytes) : FsM Bool := do
  let e ← file f
  if e.writable = false then pure false
  else match e.type with
    | .none => throw (.panic "filewrite")
    | .pipe => pipewrite e.pipe src
    | .inode => filewriteLoop f e.ip src.length src

/-- `pipealloc` with the answer of `kalloc`. -/
def pipealloc (page : Option Nat) : FsM (Option (Fin nfile × Fin nfile)) := do
  let f0 ← filealloc
  match f0 with
  | none => pure none
  | some f0 => do
    let f1 ← filealloc
    match f1, page with
    | none, _ => do
      fileclose f0
      pure none
    | some f1, none => do
      fileclose f0
      fileclose f1
      pure none
    | some f1, some page => do
      modify fun s => s.setPipe page (some ⟨fun _ => 0, 0, 0, true, true⟩)
      modifyFile f0 fun e => { e with type := .pipe, readable := true, writable := false, pipe := page }
      modifyFile f1 fun e => { e with type := .pipe, readable := false, writable := true, pipe := page }
      pure (some (f0, f1))

end File

section Descriptors

variable (p : Fin nproc)

def Fs.setProc (s : Fs) (e : ProcFiles) : Fs := { s with proc := update s.proc p e }

def modifyProc (g : ProcFiles → ProcFiles) : FsM Unit := modify fun s => s.setProc p (g (s.proc p))

/-- The assignment of `p->ofile[fd]`. -/
def setOfile (fd : Fin nofile) (f : Option (Fin nfile)) : FsM Unit :=
  modifyProc p fun e => { e with ofile := update e.ofile fd f }

def argfd (fd : Int) : FsM (Option (Fin nofile × Fin nfile)) := do
  let s ← get
  if h : 0 ≤ fd ∧ fd < nofile then
    let fd : Fin nofile := ⟨fd.toNat, by omega⟩
    pure (((s.proc p).ofile fd).map fun f => (fd, f))
  else pure none

def fdalloc (f : Fin nfile) : FsM (Option (Fin nofile)) := do
  let s ← get
  match (List.finRange nofile).find? fun fd => (s.proc p).ofile fd = none with
  | none => pure none
  | some fd => do
    setOfile p fd (some f)
    pure (some fd)

def sysDup (fd : Int) : FsM Int := do
  let found ← argfd p fd
  match found with
  | none => pure (-1)
  | some (_, f) => do
    let new ← fdalloc p f
    match new with
    | none => pure (-1)
    | some new => do
      let _ ← filedup f
      pure new

/-- `sys_read`. The buffer is none if `argint` or `argptr` rejects it. -/
def sysRead (fd : Int) (n : Option Nat) : FsM (Option Bytes) := do
  let found ← argfd p fd
  match found, n with
  | some (_, f), some n => fileread f n
  | _, _ => pure none

def sysWrite (fd : Int) (src : Option Bytes) : FsM Int := do
  let found ← argfd p fd
  match found, src with
  | some (_, f), some src => do
    let written ← filewrite f src
    pure (if written then src.length else -1)
  | _, _ => pure (-1)

def sysClose (fd : Int) : FsM Int := do
  let found ← argfd p fd
  match found with
  | none => pure (-1)
  | some (fd, f) => do
    setOfile p fd none
    fileclose f
    pure 0

/-- `sys_pipe`. `arg` says whether `argptr` accepts the array for the descriptors. -/
def sysPipe (arg : Bool) (page : Option Nat) : FsM Int := do
  if arg = false then pure (-1)
  else do
    let files ← pipealloc page
    match files with
    | none => pure (-1)
    | some (rf, wf) => do
      let fd0 ← fdalloc p rf
      match fd0 with
      | none => do
        fileclose rf
        fileclose wf
        pure (-1)
      | some fd0 => do
        let fd1 ← fdalloc p wf
        match fd1 with
        | none => do
          setOfile p fd0 none
          fileclose rf
          fileclose wf
          pure (-1)
        | some _ => pure 0

end Descriptors

section Names

variable (p : Fin nproc)

/-- The end of `sys_link` at the label `bad`. -/
def linkBad (ip : Fin ninode) : FsM Int := do
  ilock ip
  modifyDinode ip fun d => { d with nlink := d.nlink - 1 }
  iupdate ip
  iunlockput ip
  pure (-1)

/-- The new entry of `sys_link` in `dp`. -/
def linkEntry (dp ip : Fin ninode) (name : Bytes) : FsM Int := do
  let d ← inode dp
  let e ← inode ip
  if d.dev ≠ e.dev then pure (-1) else dirlink dp name e.inum

/-- `sys_link`. A path is none if `argstr` rejects it. -/
def sysLink (old new : Option Bytes) : FsM Int := do
  match old, new with
  | some old, some new => do
    let ip ← namei p old
    match ip with
    | none => pure (-1)
    | some ip => do
      ilock ip
      let e ← inode ip
      if e.d.type = tDir then do
        iunlockput ip
        pure (-1)
      else do
        modifyDinode ip fun d => { d with nlink := d.nlink + 1 }
        iupdate ip
        iunlock ip
        let found ← nameiparent p new
        match found with
        | none => linkBad ip
        | some (dp, name) => do
          ilock dp
          let r ← linkEntry dp ip name
          if r < 0 then do
            iunlockput dp
            linkBad ip
          else do
            iunlockput dp
            iput ip
            pure 0
  | _, _ => pure (-1)

/-- The loop of `isdirempty` over the given offsets. -/
def isdiremptyFrom (dp : Fin ninode) : List Nat → FsM Bool
  | [] => pure true
  | off :: rest => do
    let de ← readDirent dp off "isdirempty: readi"
    if de.inum ≠ 0 then pure false else isdiremptyFrom dp rest

def isdirempty (dp : Fin ninode) : FsM Bool := do
  let e ← inode dp
  isdiremptyFrom dp (direntOffs e.d.size.toNat 2)

/-- The checks of `sys_unlink` on the inode that it finds: `false` for a
directory that is not empty. -/
def unlinkable (ip : Fin ninode) : FsM Bool := do
  let e ← inode ip
  panicIf (e.d.nlink.toInt < 1) "unlink: nlink < 1"
  if e.d.type = tDir then isdirempty ip else pure true

/-- The link of ".." in a directory `ip` that `sys_unlink` removes from `dp`. -/
def unlinkDotdot (dp ip : Fin ninode) : FsM Unit := do
  let e ← inode ip
  if e.d.type = tDir then do
    modifyDinode dp fun d => { d with nlink := d.nlink - 1 }
    iupdate dp
  else pure ()

/-- What `sys_unlink` does to the entry at `off` of `dp` and its inode `ip`. -/
def unlinkEntry (dp ip : Fin ninode) (off : Nat) : FsM Int := do
  writeDirent dp ⟨0, List.replicate dirsiz 0⟩ off "unlink: writei"
  unlinkDotdot dp ip
  iunlockput dp
  modifyDinode ip fun d => { d with nlink := d.nlink - 1 }
  iupdate ip
  iunlockput ip
  pure 0

def sysUnlink (path : Option Bytes) : FsM Int := do
  match path with
  | none => pure (-1)
  | some path => do
    let found ← nameiparent p path
    match found with
    | none => pure (-1)
    | some (dp, name) => do
      ilock dp
      if namecmp name dot ∨ namecmp name dotdot then do
        iunlockput dp
        pure (-1)
      else do
        let found ← dirlookup dp name
        match found with
        | none => do
          iunlockput dp
          pure (-1)
        | some (ip, off) => do
          ilock ip
          let empty ← unlinkable ip
          if empty = false then do
            iunlockput ip
            iunlockput dp
            pure (-1)
          else unlinkEntry dp ip off

/-- The entries "." and ".." of a new directory `ip` in `dp`. -/
def createDots (dp ip : Fin ninode) (type : BitVec 16) : FsM Unit := do
  let d ← inode dp
  let e ← inode ip
  if type = tDir then do
    modifyDinode dp fun d => { d with nlink := d.nlink + 1 }
    iupdate dp
    let r ← dirlink ip dot e.inum
    panicIf (r < 0) "create dots"
    let r ← dirlink ip dotdot d.inum
    panicIf (r < 0) "create dots"
  else pure ()

/-- The part of `create` that makes a new inode `name` in the directory `dp`. -/
def createIn (dp : Fin ninode) (name : Bytes) (type major minor : BitVec 16) : FsM (Fin ninode) := do
  let d ← inode dp
  let ip ← ialloc d.dev type
  ilock ip
  modifyDinode ip fun d => { d with major := major, minor := minor, nlink := 1 }
  iupdate ip
  createDots dp ip type
  let e ← inode ip
  let r ← dirlink dp name e.inum
  panicIf (r < 0) "create: dirlink"
  iunlockput dp
  pure ip

def create (path : Bytes) (type major minor : BitVec 16) : FsM (Option (Fin ninode)) := do
  let found ← nameiparent p path
  match found with
  | none => pure none
  | some (dp, name) => do
    ilock dp
    let found ← dirlookup dp name
    match found with
    | some (ip, _) => do
      iunlockput dp
      ilock ip
      let e ← inode ip
      if type = tFile ∧ e.d.type = tFile then pure (some ip)
      else do
        iunlockput ip
        pure none
    | none => do
      let ip ← createIn dp name type major minor
      pure (some ip)

/-- `O_WRONLY`, `O_RDWR` and `O_CREATE`. -/
def oWronly : BitVec 32 := 1
def oRdwr : BitVec 32 := 2
def oCreate : BitVec 32 := 0x200

/-- The inode that `sys_open` opens, locked. -/
def openInode (path : Bytes) (omode : BitVec 32) : FsM (Option (Fin ninode)) := do
  if omode &&& oCreate ≠ 0 then create p path tFile 0 0
  else do
    let ip ← namei p path
    match ip with
    | none => pure none
    | some ip => do
      ilock ip
      let e ← inode ip
      if e.d.type = tDir ∧ omode ≠ 0 then do
        iunlockput ip
        pure none
      else pure (some ip)

/-- `sys_open`. The arguments are none if `argstr` or `argint` rejects one. -/
def sysOpen (args : Option (Bytes × BitVec 32)) : FsM Int := do
  match args with
  | none => pure (-1)
  | some (path, omode) => do
    let ip ← openInode p path omode
    match ip with
    | none => pure (-1)
    | some ip => do
      let f ← filealloc
      match f with
      | none => do
        iunlockput ip
        pure (-1)
      | some f => do
        let fd ← fdalloc p f
        match fd with
        | none => do
          fileclose f
          iunlockput ip
          pure (-1)
        | some fd => do
          iunlock ip
          modifyFile f fun e => { e with
            type := .inode
            ip := ip
            off := 0
            readable := omode &&& oWronly = 0
            writable := omode &&& oWronly ≠ 0 ∨ omode &&& oRdwr ≠ 0 }
          pure fd

/-- `sys_mkdir` and `sys_mknod` behind their arguments. -/
def sysCreate (path : Bytes) (type major minor : BitVec 16) : FsM Int := do
  let ip ← create p path type major minor
  match ip with
  | none => pure (-1)
  | some ip => do
    iunlockput ip
    pure 0

def sysMkdir (path : Option Bytes) : FsM Int := do
  match path with
  | none => pure (-1)
  | some path => sysCreate p path tDir 0 0

/-- `sys_mknod`, with the numbers that `create` gets as `short`. -/
def sysMknod (args : Option (Bytes × BitVec 16 × BitVec 16)) : FsM Int := do
  match args with
  | none => pure (-1)
  | some (path, major, minor) => sysCreate p path tDev major minor

def sysChdir (path : Option Bytes) : FsM Int := do
  match path with
  | none => pure (-1)
  | some path => do
    let ip ← namei p path
    match ip with
    | none => pure (-1)
    | some ip => do
      ilock ip
      let e ← inode ip
      if e.d.type ≠ tDir then do
        iunlockput ip
        pure (-1)
      else do
        iunlock ip
        let old ← cwd p
        iput old
        modifyProc p fun e => { e with cwd := some ip }
        pure 0

end Names

section Processes

variable (p : Fin nproc)

/-- The loop of `loaduvm` over the given values of `i`, `false` for -1. -/
def loaduvmFrom (ip : Fin ninode) (offset sz : Nat) : List Nat → FsM Bool
  | [] => pure true
  | i :: rest => do
    let n := min (sz - i) pgsize
    let bytes ← readi ip ((offset + i) % 2 ^ 32) n
    if (bytes.map List.length) ≠ some n then pure false else loaduvmFrom ip offset sz rest

def loaduvm (ip : Fin ninode) (offset sz : Nat) : FsM Bool :=
  loaduvmFrom ip offset sz ((List.range ((sz + (pgsize - 1)) / pgsize)).map (pgsize * ·))

/-- The size that `allocuvm` returns. `room` says whether there is memory. -/
def allocuvm (room : Bool) (oldsz newsz : Nat) : Nat :=
  if newsz ≥ kernbase then 0 else if newsz < oldsz then oldsz else if room then newsz else 0

/-- A word of a structure that was read from a file. -/
def wordAt (bytes : Bytes) (a : Nat) : Nat := (load32 (fun x => bytes.getD x 0) a).toNat

/-- The loop of `exec` over the program headers at the given offsets, `none` for
the label `bad`. `room` says whether the request for memory at an offset is met. -/
def execLoad (ip : Fin ninode) (room : Nat → Bool) : List Nat → Nat → FsM (Option Nat)
  | [], sz => pure (some sz)
  | off :: rest, sz => do
    let ph ← readi ip off 32
    match ph with
    | none => pure none
    | some ph =>
      if ph.length ≠ 32 then pure none
      else if wordAt ph 0 ≠ 1 then execLoad ip room rest sz
      else if wordAt ph 20 < wordAt ph 16 ∨ (wordAt ph 8 + wordAt ph 20) % 2 ^ 32 < wordAt ph 8 then pure none
      else do
        let sz := allocuvm (room off) sz (wordAt ph 8 + wordAt ph 20)
        if sz = 0 ∨ wordAt ph 8 % pgsize ≠ 0 then pure none
        else do
          let loaded ← loaduvm ip (wordAt ph 4) (wordAt ph 16)
          if loaded then execLoad ip room rest sz else pure none

/-- The offsets of the program headers of the file with the given ELF header. -/
def programHeaders (elf : Bytes) : List Nat :=
  (List.range (wordAt elf 44 % 2 ^ 16)).map fun i => (wordAt elf 28 + 32 * i) % 2 ^ 32

/-- What `exec` does with the locked file, `none` for the label `bad`. -/
def execFile (ip : Fin ninode) (kvm : Bool) (room : Nat → Bool) : FsM (Option Nat) := do
  let elf ← readi ip 0 52
  match elf with
  | none => pure none
  | some elf =>
    if elf.length ≠ 52 ∨ wordAt elf 0 ≠ 0x464C457F ∨ kvm = false then pure none
    else execLoad ip room (programHeaders elf) 0

/-- `exec`, without the address space that it builds. `kvm`, `room` and `stack`
say whether `setupkvm`, the requests for memory, and the last part with the
arguments succeed. -/
def exec (path : Bytes) (kvm : Bool) (room : Nat → Bool) (stack : Bool) : FsM Int := do
  let ip ← namei p path
  match ip with
  | none => pure (-1)
  | some ip => do
    ilock ip
    let sz ← execFile ip kvm room
    iunlockput ip
    pure (if sz.isSome ∧ stack then 0 else -1)

/-- The loop of `fork` over the given descriptors. -/
def forkFiles (np : Fin nproc) : List (Fin nofile) → FsM Unit
  | [] => pure ()
  | fd :: rest => do
    let s ← get
    match (s.proc p).ofile fd with
    | none => forkFiles np rest
    | some f => do
      let f ← filedup f
      setOfile np fd (some f)
      forkFiles np rest

/-- `fork`. `memory` says whether the kernel stack and the copy of the address
space find memory. -/
def fork (memory : Bool) : FsM Int := do
  let s ← get
  match (List.finRange nproc).find? fun np => (s.proc np).state = .unused with
  | none => pure (-1)
  | some np => do
    modify fun s => { s with nextpid := s.nextpid + 1 }
    modifyProc np fun e => { e with pid := s.nextpid }
    if memory = false then pure (-1)
    else do
      modifyProc np fun e => { e with state := .embryo }
      forkFiles p np (List.finRange nofile)
      let ip ← cwd p
      let ip ← idup ip
      modifyProc np fun e => { e with cwd := some ip, state := .runnable }
      pure s.nextpid

/-- The loop of `exit` over the given descriptors. -/
def exitFiles : List (Fin nofile) → FsM Unit
  | [] => pure ()
  | fd :: rest => do
    let s ← get
    match (s.proc p).ofile fd with
    | none => exitFiles rest
    | some f => do
      fileclose f
      setOfile p fd none
      exitFiles rest

def exit : FsM Unit := do
  panicIf (p = 0) "init exiting"
  exitFiles p (List.finRange nofile)
  let ip ← cwd p
  iput ip
  modifyProc p fun e => { e with cwd := none, state := .zombie }

end Processes

/-- The system calls on files, with their arguments and the answers that they
get from the rest of the kernel. -/
inductive FsCall
  | open (args : Option (Bytes × BitVec 32))
  | dup (fd : Int)
  | read (fd : Int) (n : Option Nat)
  | write (fd : Int) (src : Option Bytes)
  | close (fd : Int)
  | pipe (arg : Bool) (page : Option Nat)
  | link (old new : Option Bytes)
  | unlink (path : Option Bytes)
  | mkdir (path : Option Bytes)
  | mknod (args : Option (Bytes × BitVec 16 × BitVec 16))
  | chdir (path : Option Bytes)
  | exec (path : Bytes) (kvm : Bool) (room : Nat → Bool) (stack : Bool)
  | fork (memory : Bool)
  | exit

/-- A system call of process `p`, with the value that it returns. -/
def FsCall.run (p : Fin nproc) : FsCall → FsM Int
  | .open args => sysOpen p args
  | .dup fd => sysDup p fd
  | .read fd n => do
    let bytes ← sysRead p fd n
    pure (match bytes with | none => -1 | some bytes => bytes.length)
  | .write fd src => sysWrite p fd src
  | .close fd => sysClose p fd
  | .pipe arg page => sysPipe p arg page
  | .link old new => sysLink p old new
  | .unlink path => sysUnlink p path
  | .mkdir path => sysMkdir p path
  | .mknod args => sysMknod p args
  | .chdir path => sysChdir p path
  | .exec path kvm room stack => MiniOS.exec p path kvm room stack
  | .fork memory => MiniOS.fork p memory
  | .exit => do
    MiniOS.exit p
    pure 0

end MiniOS
