import MiniOS.Kalloc
import MiniOS.Lib.Scan

namespace MiniOS

open Lib

def nslab : Nat := 9
def maxPagesPerSlab : Int := 100

/-- The members of `struct slab`. Each is one word, and so is each entry of
the array `page`. -/
inductive Field
  | size
  | numPages
  | numFreeObjects
  | numUsedObjects
  | numObjectsPerPage
  | bitmap
  | page (i : Int)
  deriving DecidableEq, Repr

/-- Where a member lies inside `struct slab`. Nothing bounds the index into
`page`, just as in C. -/
def Field.offset : Field → Int
  | .size => 0
  | .numPages => 1
  | .numFreeObjects => 2
  | .numUsedObjects => 3
  | .numObjectsPerPage => 4
  | .bitmap => 5
  | .page i => 6 + i

/-- `sizeof(struct slab)` in words: six members and `MAX_PAGES_PER_SLAB` pointers. -/
def slabWords : Int := 106

/-- The word that a member of the descriptor of a class occupies. -/
def Field.word (slabIdx : Int) (f : Field) : Int := slabWords * slabIdx + f.offset

namespace Kernel

def field (k : Kernel) (slabIdx : Int) (f : Field) : BitVec 32 := k.words (f.word slabIdx)

def int (k : Kernel) (slabIdx : Int) (f : Field) : Int := (k.field slabIdx f).toInt

def ptr (k : Kernel) (slabIdx : Int) (f : Field) : Nat := (k.field slabIdx f).toNat

def setField (k : Kernel) (slabIdx : Int) (f : Field) (v : BitVec 32) : Kernel :=
  { k with words := Function.update k.words (f.word slabIdx) v }

def setInt (k : Kernel) (slabIdx : Int) (f : Field) (v : Int) : Kernel :=
  k.setField slabIdx f (BitVec.ofInt 32 v)

def setPtr (k : Kernel) (slabIdx : Int) (f : Field) (v : Nat) : Kernel :=
  k.setField slabIdx f (BitVec.ofNat 32 v)

/-- `s->bitmap[j]` as the signed `char` it is, widened to an `int`. -/
def bitmapAt (k : Kernel) (slabIdx j : Int) : BitVec 32 :=
  (k.mem (k.ptr slabIdx .bitmap + j).toNat).signExtend 32

def setBitmapAt (k : Kernel) (slabIdx j : Int) (v : BitVec 32) : Kernel :=
  k.withMem (Function.update k.mem (k.ptr slabIdx .bitmap + j).toNat (v.setWidth 8))

end Kernel

/-- Division and remainder of C integers; dividing by zero is a trap. -/
def cdiv (a b : Int) : Except Stop Int := if b = 0 then .error .divideError else .ok (a.tdiv b)

def cmod (a b : Int) : Except Stop Int := if b = 0 then .error .divideError else .ok (a.tmod b)

/-- The difference of two pointers, a 32-bit signed number. -/
def ptrdiff (a b : Nat) : Int := ((a : Int) - b).bmod (2 ^ 32)

def setBit (num : BitVec 32) (i : Nat) : BitVec 32 := num ||| (1#32 <<< i)

def getBit (num : BitVec 32) (i : Nat) : Bool := (num &&& (1#32 <<< i)) != 0

def clearBit (num : BitVec 32) (i : Nat) : BitVec 32 := num &&& ~~~(1#32 <<< i)

/-- The loop of `getnumofBits`; a 32-bit number is zero after 32 shifts. -/
def getnumofBitsLoop : Nat → Nat → Nat
  | 0, _ => 0
  | rounds + 1, n => if n = 0 then 0 else getnumofBitsLoop rounds (n >>> 1) + 1

def getnumofBits (n : Nat) : Nat := getnumofBitsLoop 32 n

/-- Without the 32 bits of the shift, which no size up to 2048 leaves; `kmalloc` passes no other. -/
def nextPowerOf2 (n : Nat) : Nat :=
  if n < 8 then 8
  else if n ≠ 0 ∧ n &&& (n - 1) = 0 then n
  else 1 <<< getnumofBits n

/-- `getnumofBits(n)-4`. The unsigned result is stored in an `int` by every caller. -/
def getslabIdx (n : Nat) : Int := getnumofBits n - 4

def returnOffset (row column : Int) : Int := 8 * row + column

def setBitmap (k : Kernel) (slabIdx : Int) : Kernel × Int :=
  match (cells pgsize 8).find? fun (j, i) =>
    k.bitmapAt slabIdx j != 0xFF && !getBit (k.bitmapAt slabIdx j) i with
  | some (j, i) => (k.setBitmapAt slabIdx j (setBit (k.bitmapAt slabIdx j) i), returnOffset j i)
  | none => (k, 0)

def getRow (offset : Int) : Int := offset.tdiv 8

def getColumn (offset : Int) : Int := offset.tmod 8

/-- A negative column, for which C shifts by a negative count, is taken as bit 0. -/
def clearBitmap (k : Kernel) (slabIdx offset : Int) : Kernel × Bool :=
  let row := getRow offset
  let column := (getColumn offset).toNat
  if getBit (k.bitmapAt slabIdx row) column then
    (k.setBitmapAt slabIdx row (clearBit (k.bitmapAt slabIdx row) column), true)
  else (k, false)

/-- The values of `for(i = lo; i <= hi; i++)`. -/
def upTo (lo hi : Int) : List Int := (List.range (hi + 1 - lo).toNat).map fun i : Nat => lo + i

/-- Negative columns are taken as bit 0 here too. Rows from 4096 on are memory behind the bitmap. The
model reads what is there, while the code faults if the bitmap is the last page of memory. -/
def checkEmpty (k : Kernel) (startOffset endOffset slabIdx : Int) : Bool :=
  !(upTo (getRow startOffset) (getRow endOffset)).any fun i =>
    (upTo (getColumn startOffset) (getColumn endOffset)).any fun j =>
      getBit (k.bitmapAt slabIdx i) j.toNat

def checkNewpage (k : Kernel) (slabIdx : Int) : Except Stop Int := do
  let cnt := ((cells pgsize 8).takeWhile fun (i, j) => getBit (k.bitmapAt slabIdx i) j).length
  if (← cmod cnt (k.int slabIdx .numObjectsPerPage)) = 0 then
    let startOffset := (← cdiv cnt (k.int slabIdx .numObjectsPerPage)) * k.int slabIdx .numObjectsPerPage
    let endOffset := startOffset + k.int slabIdx .numObjectsPerPage - 1
    if checkEmpty k startOffset endOffset slabIdx then
      return startOffset
  return 0

/-- The values of `for(i = 0; i < n; i += step)`, a loop that a step of zero
never ends. -/
def strided (n : Nat) (step : Int) : Except Stop (List Nat) :=
  if step ≤ 0 then .error .endlessLoop
  else .ok ((List.range ((n + step.toNat - 1) / step.toNat)).map fun i => i * step.toNat)

def getpageNum (k : Kernel) (slabIdx : Int) : Except Stop Int := do
  if slabIdx ≥ 7 then
    let width ← cdiv pgsize (k.int slabIdx .size)
    let columns ← strided 8 width
    return ((List.range pgsize).flatMap fun i => columns.map fun j => (i, j)).countP fun (i, j) =>
      (List.range' j width.toNat).any fun b => getBit (k.bitmapAt slabIdx i) b
  else
    let width ← cdiv 512 (k.int slabIdx .size)
    let rows ← strided pgsize width
    return rows.countP fun i => (List.range' i width.toNat).any fun j => k.bitmapAt slabIdx j != 0

def slabinitCounters (k : Kernel) (i size pages : Int) : Kernel :=
  let k := k.setInt i .size size
  let k := k.setInt i .numObjectsPerPage ((pgsize : Int).tdiv (k.int i .size))
  let k := k.setInt i .numUsedObjects 0
  k.setInt i .numFreeObjects (k.int i .numObjectsPerPage * pages)

def slabinitPages (k : Kernel) (i : Int) : Kernel :=
  let k := k.setField i .bitmap (k.field i (.page 0))
  let (k, pg) := kalloc (.bitmapOf i) k
  let k := k.setPtr i .bitmap pg
  let k := k.withMem (memset k.mem (k.ptr i .bitmap) 0 pgsize)
  let (k, pg) := kalloc (.objectsOf i) k
  let k := k.setPtr i (.page 1) pg
  k.setInt i .numPages 1

/-- What `slabinit` does for one class: the class of 8 bytes first, with 64
pages, and the other classes in its loop. -/
def slabinitClass (k : Kernel) (i size pages : Int) : Kernel := slabinitPages (slabinitCounters k i size pages) i

def slabinit (k : Kernel) : Kernel :=
  (List.range' 1 (nslab - 1)).foldl
    (fun k (i : Nat) => slabinitClass k i (k.int (i - 1) .size * 2) maxPagesPerSlab)
    (slabinitClass k 0 8 64)

/-- The tests that `kmalloc` makes before it takes the lock. -/
def kmallocRefuses (k : Kernel) (slabIdx : Int) : Bool :=
  k.int slabIdx .numUsedObjects == k.int slabIdx .numObjectsPerPage * maxPagesPerSlab ||
    k.int 0 .numUsedObjects == k.int 0 .numObjectsPerPage * 64

/-- Whether `kmalloc` asks `kalloc` for a page, and the index into `page` at
which it stores the answer. -/
def newPageIndex (k : Kernel) (slabIdx : Int) : Except Stop (Option Int) := do
  let startOffset ← checkNewpage k slabIdx
  if startOffset ≠ 0 ∧ k.int slabIdx .numUsedObjects ≠ 0 then
    return some ((← cdiv startOffset (k.int slabIdx .numObjectsPerPage)) + 1)
  else return none

def openPage (k : Kernel) (slabIdx : Int) : Except Stop Kernel := do
  match ← newPageIndex k slabIdx with
  | some i =>
    let (k, pg) := kalloc (.objectsOf slabIdx) k
    return k.setPtr slabIdx (.page i) pg
  | none => return k

def countAlloc (k : Kernel) (slabIdx pages : Int) : Kernel :=
  let k := k.setInt slabIdx .numPages pages
  let k := k.setInt slabIdx .numFreeObjects (k.int slabIdx .numFreeObjects - 1)
  k.setInt slabIdx .numUsedObjects (k.int slabIdx .numUsedObjects + 1)

def nowpage (k : Kernel) (slabIdx bitOffset : Int) : Except Stop Int := do
  return (← cdiv bitOffset (k.int slabIdx .numObjectsPerPage)) + 1

def slotAddr (k : Kernel) (slabIdx bitOffset : Int) : Except Stop Nat := do
  let i ← nowpage k slabIdx bitOffset
  let pageOffset := (← cmod bitOffset (k.int slabIdx .numObjectsPerPage)) * (1 <<< (slabIdx + 3).toNat : Nat)
  return (k.ptr slabIdx (.page i) + pageOffset.toNat) % 2 ^ 32

/-- The part of `kmalloc` between `acquire` and `release`. -/
def kmallocLocked (k : Kernel) (slabIdx size : Int) : Except Stop (Kernel × Nat) := do
  let k ← openPage k slabIdx
  let (k, bitOffset) := setBitmap k slabIdx
  let k := countAlloc k slabIdx (← getpageNum k slabIdx)
  let p ← slotAddr k slabIdx bitOffset
  return (k.withMem (memset k.mem p 0 size.toNat), p)

def kmallocIdx (size : Int) : Int := getslabIdx (nextPowerOf2 size.toNat)

def kmalloc (k : Kernel) (size : Int) : Except Stop (Kernel × Nat) :=
  if size > 2048 ∨ size ≤ 0 then .ok (k, 0)
  else if kmallocRefuses k (kmallocIdx size) then .ok (k, 0)
  else kmallocLocked k (kmallocIdx size) size

/-- The loop of `kmfree` over `page[1..100]`; zero when no page matches. -/
def findPage (k : Kernel) (slabIdx : Int) (addr : Nat) : Int :=
  ((upTo 1 100).find? fun i =>
    let d := ptrdiff addr (k.ptr slabIdx (.page i))
    decide (d ≥ 0 ∧ d < pgsize)).getD 0

def kmfreeOffset (k : Kernel) (slabIdx : Int) (addr : Nat) : Except Stop Int := do
  let pageNum := findPage k slabIdx addr
  let q ← cdiv (ptrdiff addr (k.ptr slabIdx (.page pageNum))) (k.int slabIdx .size)
  return (pageNum - 1) * k.int slabIdx .numObjectsPerPage + q

def countFree (k : Kernel) (slabIdx : Int) : Kernel :=
  let k := k.setInt slabIdx .numFreeObjects (k.int slabIdx .numFreeObjects + 1)
  k.setInt slabIdx .numUsedObjects (k.int slabIdx .numUsedObjects - 1)

def clearSlot (k : Kernel) (slabIdx offset : Int) : Kernel :=
  let (k, checkbit) := clearBitmap k slabIdx offset
  if checkbit then countFree k slabIdx else k

def releasePage (k : Kernel) (slabIdx pageNum : Int) : Except Stop Kernel := do
  let startOffset := (pageNum - 1) * k.int slabIdx .numObjectsPerPage
  let endOffset := startOffset + k.int slabIdx .numObjectsPerPage - 1
  if pageNum ≠ 1 ∧ checkEmpty k startOffset endOffset slabIdx then
    let k ← kfree (k.ptr slabIdx (.page pageNum)) k
    return k.setInt slabIdx .numPages (k.int slabIdx .numPages - 1)
  else return k

/-- The class `kmfree` derives from its argument, an `int` passed as `unsigned`. -/
def kmfreeIdx (size : Int) : Int := getslabIdx (size % 2 ^ 32).toNat

def kmfree (k : Kernel) (addr : Nat) (size : Int) : Except Stop Kernel := do
  let slabIdx := kmfreeIdx size
  if k.int slabIdx .numUsedObjects = 0 then return k
  let k := k.withMem (memset k.mem addr 1 (size % 2 ^ 32).toNat)
  let offset ← kmfreeOffset k slabIdx addr
  releasePage (clearSlot k slabIdx offset) slabIdx (findPage k slabIdx addr)

end MiniOS
