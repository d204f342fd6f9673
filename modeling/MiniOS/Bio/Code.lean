import MiniOS.Log.Header

namespace MiniOS

/-- `NBUF`, the number of buffers. -/
abbrev nbuf : Nat := 30

/-- `struct buf`. `valid` and `dirty` are the flags `B_VALID` and `B_DIRTY`,
and `holder` is the process that has the sleep lock. -/
structure Buf where
  dev : BitVec 32
  blockno : BitVec 32
  valid : Bool
  dirty : Bool
  refcnt : Nat
  holder : Option Nat
  data : Block

/-- `bcache`. The list is that of the buffers from `head.next` on. -/
structure Bcache where
  buf : Fin nbuf → Buf
  list : List (Fin nbuf)

/-- The cache after `binit`, which puts each buffer in front of the ones before. -/
def Bcache.binit : Bcache where
  buf _ := ⟨0, 0, false, false, 0, none, fun _ => 0⟩
  list := (List.finRange nbuf).reverse

def Bcache.set (c : Bcache) (i : Fin nbuf) (b : Buf) : Bcache := { c with buf := Function.update c.buf i b }

/-- The section of `bget` under `bcache.lock`. -/
def bget (c : Bcache) (dev blockno : BitVec 32) : Except Stop (Bcache × Fin nbuf) :=
  match c.list.find? fun i => (c.buf i).dev = dev ∧ (c.buf i).blockno = blockno with
  | some i => .ok (c.set i { c.buf i with refcnt := (c.buf i).refcnt + 1 }, i)
  | none =>
    match c.list.reverse.find? fun i => (c.buf i).refcnt = 0 ∧ (c.buf i).dirty = false with
    | some i =>
      .ok (c.set i { c.buf i with dev := dev, blockno := blockno, valid := false, dirty := false, refcnt := 1 }, i)
    | none => .error (.panic "bget: no buffers")

/-- `iderw` called by process `pid`, for a disk of `disksize` blocks. -/
def iderw (disksize pid : Nat) (disk : Nat → Block) (b : Buf) : Except Stop ((Nat → Block) × Buf) :=
  if b.holder ≠ some pid then .error (.panic "iderw: buf not locked")
  else if b.valid ∧ ¬b.dirty then .error (.panic "iderw: nothing to do")
  else if b.dev ≠ 1 then .error (.panic "iderw: request not for disk 1")
  else if b.blockno.toNat ≥ disksize then .error (.panic "iderw: block out of range")
  else if b.dirty then .ok (Function.update disk b.blockno.toNat b.data, { b with dirty := false, valid := true })
  else .ok (disk, { b with data := disk b.blockno.toNat, valid := true })

/-- What is left of `bread` once `acquiresleep` finds the lock free. -/
def breadLocked (disksize pid : Nat) (disk : Nat → Block) (b : Buf) : Except Stop ((Nat → Block) × Buf) :=
  if b.valid then .ok (disk, { b with holder := some pid })
  else iderw disksize pid disk { b with holder := some pid }

def bwrite (disksize pid : Nat) (disk : Nat → Block) (b : Buf) : Except Stop ((Nat → Block) × Buf) :=
  if b.holder ≠ some pid then .error (.panic "bwrite")
  else iderw disksize pid disk { b with dirty := true }

/-- The first half of `brelse`, up to `releasesleep`. -/
def brelseUnlock (pid : Nat) (b : Buf) : Except Stop Buf :=
  if b.holder ≠ some pid then .error (.panic "brelse")
  else .ok { b with holder := none }

/-- The section of `brelse` under `bcache.lock`. -/
def brelseLocked (c : Bcache) (i : Fin nbuf) : Bcache :=
  let refcnt := (c.buf i).refcnt - 1
  let c := c.set i { c.buf i with refcnt := refcnt }
  if refcnt = 0 then { c with list := i :: c.list.erase i } else c

end MiniOS
