import MiniOS.Lib.Count
import MiniOS.Fs.Nodes

namespace MiniOS

open Lib

/-- An open file, with the number of its inode in place of the cache entry. -/
structure Opened where
  type : FileType
  ref : Nat
  readable : Bool
  writable : Bool
  pipe : Nat
  inum : Nat
  off : BitVec 32

def File.opened (e : File) (inum : Nat) : Opened := ⟨e.type, e.ref, e.readable, e.writable, e.pipe, inum, e.off⟩

/-- The inode that an open file refers to. -/
def Opened.target (e : Opened) : Option Nat := if 0 < e.ref ∧ e.type = .inode then some e.inum else none

/-- A process, with the number of its current directory. -/
structure ProcView where
  state : ProcState
  pid : Nat
  ofile : Fin nofile → Option (Fin nfile)
  cwd : Option Nat

/-- The file system without the caches and the layout of the disk. -/
structure View where
  ninodes : Nat
  room : Nat
  node : Nat → Option Node
  file : Fin nfile → Opened
  pipe : Nat → Option Pipe
  proc : Fin nproc → ProcView
  nextpid : Nat

namespace View

/-- How many open files and current directories refer to inode `i`. -/
def uses (v : View) (i : Nat) : Nat := countAt (fun f => (v.file f).target) i + countAt (fun p => (v.proc p).cwd) i

def setNode (v : View) (i : Nat) (n : Option Node) : View := { v with node := Function.update v.node i n }

/-- The inode is allocated and has no links. -/
def Dead (v : View) (i : Nat) : Prop := ∃ n, v.node i = some n ∧ n.nlink = 0

instance (v : View) (i : Nat) : Decidable (v.Dead i) :=
  match h : v.node i with
  | none => isFalse fun ⟨_, here, _⟩ => nomatch h.symm.trans here
  | some n =>
    if zero : n.nlink = 0 then isTrue ⟨n, h, zero⟩
    else isFalse fun ⟨_, here, gone⟩ => zero (Option.some.inj (h.symm.trans here) ▸ gone)

/-- The number of blocks that the files need. -/
def blocks (v : View) : Nat := totalBlocks v.ninodes v.node

/-- The inode that `ialloc` finds. -/
def freeInode (v : View) : Option Nat := (List.range' 1 (v.ninodes - 1)).find? fun i => v.node i = none

/-- With `m` more references the cache may have no free entry. -/
def Crowded (v : View) (m : Nat) : Prop := ∃ S : Finset Nat, ninode ≤ S.card + m ∧ ∀ i ∈ S, 0 < v.uses i

theorem Crowded.mono {v : View} {m m' : Nat} (crowded : v.Crowded m) (le : m ≤ m') : v.Crowded m' := by
  obtain ⟨S, many, used⟩ := crowded
  exact ⟨S, by omega, used⟩

/-- The last reference to inode `i` is dropped: it is freed if it has no links. -/
def drop (v : View) (i : Nat) : View := if v.Dead i ∧ v.uses i = 0 then v.setNode i none else v

end View

/-- What an entry of the inode cache has to be. -/
structure Inode.Fits (e : Inode) (v : View) (X : Multiset Handle) (L : Finset Nat) (sb : Superblock)
    (block : Nat → Block) : Prop where
  number : 0 < e.ref → e.dev = rootdev ∧ e.inum < v.ninodes
  count : 0 < e.ref → e.ref = v.uses e.inum + (X.map Handle.inum).count e.inum
  cached : 0 < e.ref → e.valid = true → e.d = dinodeOf sb block e.inum ∧ e.d.type ≠ 0
  live : 0 < e.ref → 0 < v.uses e.inum → v.Dead e.inum → e.valid = true
  locked : e.locked = true ↔ 0 < e.ref ∧ e.inum ∈ L

/-- Entry `k` of the inode cache holds inode `i`. -/
def Fs.Caches (s : Fs) (k : Fin ninode) (i : Nat) : Prop := 0 < (s.icache k).ref ∧ (s.icache k).inum = i

/-- The state has the given view. The running call holds the references `X` and the
locks `L`. -/
structure Good (v : View) (X : Multiset Handle) (L : Finset Nat) (s : Fs) : Prop where
  disk : Disk s.sb s.block v.node v.room
  ninodes : s.sb.ninodes = v.ninodes
  entry : ∀ k, (s.icache k).Fits v X L s.sb s.block
  unique : ∀ {k l i}, s.Caches k i → s.Caches l i → k = l
  handle : ∀ h ∈ X, s.Caches h.ip h.inum ∧ (h.loaded = true → (s.icache h.ip).valid = true)
  held : ∀ i ∈ L, ∃ k, s.Caches k i
  used : ∀ i, 0 < v.uses i → (v.node i).isSome
  file : ∀ f, v.file f = (s.ftable f).opened (v.file f).inum
  target : ∀ f i, (v.file f).target = some i → s.Caches (s.ftable f).ip i
  pipe : s.pipe = v.pipe
  proc : ∀ p, (v.proc p).state = (s.proc p).state ∧ (v.proc p).pid = (s.proc p).pid ∧
    (v.proc p).ofile = (s.proc p).ofile
  cwd : ∀ p i, (v.proc p).cwd = some i → ∃ k, (s.proc p).cwd = some k ∧ s.Caches k i
  nextpid : s.nextpid = v.nextpid

end MiniOS
