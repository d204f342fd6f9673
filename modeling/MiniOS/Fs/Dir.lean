import MiniOS.Fs.Code

namespace MiniOS

/-- `DIRSIZ`. -/
abbrev dirsiz : Nat := 14

/-- `struct dirent`. -/
structure Dirent where
  inum : BitVec 16
  name : Bytes
  deriving DecidableEq

/-- The entry that 16 bytes of a directory stand for. -/
def Dirent.ofBytes (bytes : Bytes) : Dirent where
  inum := bytes.getD 1 0 ++ bytes.getD 0 0
  name := bytes.drop 2

def Dirent.toBytes (de : Dirent) : Bytes := de.inum.extractLsb' 0 8 :: de.inum.extractLsb' 8 8 :: de.name

/-- `strncmp(p, q, n) == 0`. A string ends at a zero byte or at the end of the list. -/
def strncmp : Bytes → Bytes → Nat → Bool
  | _, _, 0 => true
  | p, q, n + 1 =>
    if p.headD 0 ≠ 0 ∧ p.headD 0 = q.headD 0 then strncmp p.tail q.tail n else p.headD 0 = q.headD 0

/-- The `n` bytes that `strncpy` writes. -/
def strncpy : Bytes → Nat → Bytes
  | _, 0 => []
  | t, n + 1 => if t.headD 0 = 0 then List.replicate (n + 1) 0 else t.headD 0 :: strncpy t.tail n

def namecmp (s t : Bytes) : Bool := strncmp s t dirsiz

/-- The names "." and "..", with '.' = 0x2e. -/
def dot : Bytes := [0x2e]
def dotdot : Bytes := [0x2e, 0x2e]

/-- '/'. -/
def slash : BitVec 8 := 0x2f

/-- Reads the entry at offset `off`. -/
def readDirent (dp : Fin ninode) (off : Nat) (message : String) : FsM Dirent := do
  let bytes ← readi dp off 16
  match bytes with
  | none => throw (.panic message)
  | some bytes => do
    panicIf (bytes.length ≠ 16) message
    pure (.ofBytes bytes)

/-- The offsets of the entries of a directory, from entry `first` on. -/
def direntOffs (size first : Nat) : List Nat := (List.range' first ((size + 15) / 16 - first)).map (16 * ·)

/-- The loop of `dirlookup` over the given offsets. -/
def dirlookupFrom (dp : Fin ninode) (name : Bytes) : List Nat → FsM (Option (Fin ninode × Nat))
  | [] => pure none
  | off :: rest => do
    let de ← readDirent dp off "dirlookup read"
    if de.inum = 0 then dirlookupFrom dp name rest
    else if namecmp name de.name then do
      let e ← inode dp
      let ip ← iget e.dev de.inum.toNat
      pure (some (ip, off))
    else dirlookupFrom dp name rest

/-- `dirlookup`, with the offset for `*poff`. -/
def dirlookup (dp : Fin ninode) (name : Bytes) : FsM (Option (Fin ninode × Nat)) := do
  let e ← inode dp
  panicIf (e.d.type ≠ tDir) "dirlookup not DIR"
  dirlookupFrom dp name (direntOffs e.d.size.toNat 0)

/-- The offset of the first free entry among the given ones, or `size`. -/
def dirlinkFrom (dp : Fin ninode) (size : Nat) : List Nat → FsM Nat
  | [] => pure size
  | off :: rest => do
    let de ← readDirent dp off "dirlink read"
    if de.inum = 0 then pure off else dirlinkFrom dp size rest

/-- `writei` of an entry. -/
def writeDirent (dp : Fin ninode) (de : Dirent) (off : Nat) (message : String) : FsM Unit := do
  let n ← writei dp de.toBytes off
  panicIf (n ≠ some 16) message

def dirlink (dp : Fin ninode) (name : Bytes) (inum : Nat) : FsM Int := do
  let found ← dirlookup dp name
  match found with
  | some (ip, _) => do
    iput ip
    pure (-1)
  | none => do
    let e ← inode dp
    let off ← dirlinkFrom dp (16 * ((e.d.size.toNat + 15) / 16)) (direntOffs e.d.size.toNat 0)
    writeDirent dp ⟨BitVec.ofNat 16 inum, strncpy name dirsiz⟩ off "dirlink"
    pure 0

/-- `skipelem`, with the path element that it copies to `name`. -/
def skipelem (path : Bytes) : Option (Bytes × Bytes) :=
  let path := path.dropWhile (· = slash)
  if path.headD 0 = 0 then none
  else
    let elem := path.takeWhile fun c => c ≠ slash ∧ c ≠ 0
    some (elem.take dirsiz, (path.dropWhile fun c => c ≠ slash ∧ c ≠ 0).dropWhile (· = slash))

/-- The loop of `namex`. Every round takes an element off the path, so
`path.length + 1` rounds are enough. `some (ip, name)` is the inode and the last
element for `nameiparent`. -/
def namexLoop (nameiparent : Bool) : Nat → Fin ninode → Bytes → FsM (Option (Fin ninode × Bytes))
  | 0, _, _ => throw .endlessLoop
  | rounds + 1, ip, path =>
    match skipelem path with
    | none =>
      if nameiparent then do
        iput ip
        pure none
      else pure (some (ip, []))
    | some (name, path) => do
      ilock ip
      let e ← inode ip
      if e.d.type ≠ tDir then do
        iunlockput ip
        pure none
      else if nameiparent ∧ path.headD 0 = 0 then do
        iunlock ip
        pure (some (ip, name))
      else do
        let next ← dirlookup ip name
        iunlockput ip
        match next with
        | none => pure none
        | some (next, _) => namexLoop nameiparent rounds next path

/-- The current directory of the process. -/
def cwd (p : Fin nproc) : FsM (Fin ninode) := do
  let s ← get
  match (s.proc p).cwd with
  | none => throw (.panic "trap")
  | some ip => pure ip

/-- The inode where `namex` starts. -/
def namexStart (p : Fin nproc) (path : Bytes) : FsM (Fin ninode) :=
  if path.headD 0 = slash then iget rootdev rootino
  else do
    let ip ← cwd p
    idup ip

def namex (p : Fin nproc) (path : Bytes) (nameiparent : Bool) : FsM (Option (Fin ninode × Bytes)) := do
  let ip ← namexStart p path
  namexLoop nameiparent (path.length + 1) ip path

def namei (p : Fin nproc) (path : Bytes) : FsM (Option (Fin ninode)) := do
  let found ← namex p path false
  pure (found.map Prod.fst)

def nameiparent (p : Fin nproc) (path : Bytes) : FsM (Option (Fin ninode × Bytes)) := namex p path true

end MiniOS
