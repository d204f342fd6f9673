import Mathlib.Algebra.Group.Nat.Defs
import Mathlib.Logic.Function.Basic
import Mathlib.Data.Nat.Init

namespace MiniOS

open Function

variable {mem : Nat → BitVec 8} {dst a n x : Nat} {c : BitVec 8} {v : BitVec 32}

def pgsize : Nat := 4096
def kernbase : Nat := 0x80000000
def phystop : Nat := 0xE000000

/-- Why a kernel function does not return to its caller. `deadlock` is the wait
of a process for a sleep lock that it holds itself. -/
inductive Stop
  | panic (message : String)
  | divideError
  | endlessLoop
  | deadlock
  deriving DecidableEq, Repr

/-- What a page handed out by `kalloc` is used for. No kernel function reads
this; the model writes it down to say who holds a page. -/
inductive Holder
  | bitmapOf (slabIdx : Int)
  | objectsOf (slabIdx : Int)
  | other
  deriving DecidableEq, Repr

/-- The part of the kernel state that the page and slab allocators use.
`words` is the kernel's static data in units of four bytes, counted from
`stable.slab[0]`, and `mem` the memory that `kalloc` hands out. -/
structure Kernel where
  words : Int → BitVec 32
  mem : Nat → BitVec 8
  freelist : Nat
  holder : Nat → Option Holder
  kend : Nat

def Kernel.withMem (k : Kernel) (mem : Nat → BitVec 8) : Kernel := { k with mem := mem }

def memset (mem : Nat → BitVec 8) (dst : Nat) (c : BitVec 8) (n : Nat) : Nat → BitVec 8 :=
  fun a => if dst ≤ a ∧ a < dst + n then c else mem a

/-- A little-endian 32-bit load. -/
def load32 (mem : Nat → BitVec 8) (a : Nat) : BitVec 32 :=
  mem (a + 3) ++ mem (a + 2) ++ mem (a + 1) ++ mem a

def store32 (mem : Nat → BitVec 8) (a : Nat) (v : BitVec 32) : Nat → BitVec 8 :=
  fun x => if x = a then v.extractLsb' 0 8 else if x = a + 1 then v.extractLsb' 8 8
    else if x = a + 2 then v.extractLsb' 16 8 else if x = a + 3 then v.extractLsb' 24 8 else mem x

/-- `V2P`, in 32-bit arithmetic. -/
def v2p (v : Nat) : Nat := (v + (2 ^ 32 - kernbase)) % 2 ^ 32

def kfree (v : Nat) (k : Kernel) : Except Stop Kernel :=
  if v % pgsize ≠ 0 ∨ v < k.kend ∨ v2p v ≥ phystop then .error (.panic "kfree")
  else
    let mem := memset k.mem v 1 pgsize
    .ok { k with
      mem := store32 mem v (BitVec.ofNat 32 k.freelist)
      freelist := v
      holder := update k.holder v none }

def kalloc (h : Holder) (k : Kernel) : Kernel × Nat :=
  let r := k.freelist
  if r = 0 then (k, 0)
  else ({ k with
    freelist := (load32 k.mem r).toNat
    holder := update k.holder r (some h) }, r)

def pgroundup (sz : Nat) : Nat := (sz + pgsize - 1) / pgsize * pgsize

/-- `freerange`, which is all that `kinit2` does to the free list. -/
def freerange (vstart vend : Nat) (k : Kernel) : Except Stop Kernel :=
  ((List.range ((vend - pgroundup vstart) / pgsize)).map fun i : Nat => pgroundup vstart + pgsize * i).foldlM
    (fun k p => kfree p k) k

/-- A page that `kfree` accepts: aligned, behind the kernel image and below
the top of physical memory. -/
structure Kernel.IsPage (k : Kernel) (pg : Nat) : Prop where
  aligned : pg % 4096 = 0
  behindKernel : k.kend ≤ pg
  lower : kernbase ≤ pg
  upper : pg + 4096 ≤ kernbase + phystop

namespace Kernel.IsPage

variable {k : Kernel} {pg qg a : Nat}

theorem low (page : k.IsPage pg) : 0x80000000 ≤ pg := page.lower

theorem high (page : k.IsPage pg) : pg + 4096 ≤ 0x8E000000 := page.upper

theorem same_of_mem (left : k.IsPage pg) (right : k.IsPage qg) (inLeft : pg ≤ a ∧ a < pg + 4096)
    (inRight : qg ≤ a ∧ a < qg + 4096) : pg = qg := by
  have := left.aligned
  have := right.aligned
  omega

/-- Pages do not share an address. -/
theorem apart (left : k.IsPage pg) (right : k.IsPage qg) (different : pg ≠ qg)
    (inLeft : pg ≤ a ∧ a < pg + 4096) : a < qg ∨ qg + 4096 ≤ a := by
  by_contra inside
  exact different (left.same_of_mem right inLeft (by omega))

theorem congr {k' : Kernel} (kend : k'.kend = k.kend) : k'.IsPage pg ↔ k.IsPage pg := by
  refine ⟨fun page => ⟨page.aligned, ?_, page.lower, page.upper⟩,
    fun page => ⟨page.aligned, ?_, page.lower, page.upper⟩⟩
  · rw [← kend]
    exact page.behindKernel
  · rw [kend]
    exact page.behindKernel

theorem v2p_eq (page : k.IsPage pg) : v2p pg = pg - kernbase := by
  have := page.low
  have := page.high
  simp only [v2p, kernbase]
  omega

end Kernel.IsPage

theorem memset_of_mem (inside : dst ≤ a ∧ a < dst + n) : memset mem dst c n a = c := if_pos inside

theorem memset_of_not_mem (outside : a < dst ∨ dst + n ≤ a) : memset mem dst c n a = mem a :=
  if_neg (by omega)

theorem store32_of_not_mem (outside : x < a ∨ a + 4 ≤ x) : store32 mem a v x = mem x := by
  simp only [store32]
  rw [if_neg (by omega), if_neg (by omega), if_neg (by omega), if_neg (by omega)]

theorem load32_congr {mem' : Nat → BitVec 8} (same : ∀ x, a ≤ x → x < a + 4 → mem' x = mem x) :
    load32 mem' a = load32 mem a := by
  simp only [load32]
  rw [same (a + 3) (by omega) (by omega), same (a + 2) (by omega) (by omega), same (a + 1) (by omega) (by omega),
    same a (by omega) (by omega)]

theorem load32_store32 (mem : Nat → BitVec 8) (a : Nat) (v : BitVec 32) : load32 (store32 mem a v) a = v := by
  have bytes : load32 (store32 mem a v) a =
      v.extractLsb' 24 8 ++ v.extractLsb' 16 8 ++ v.extractLsb' 8 8 ++ v.extractLsb' 0 8 := by
    simp [load32, store32]
  rw [bytes]
  refine BitVec.eq_of_getLsbD_eq fun i bound => ?_
  simp only [BitVec.getLsbD_append, BitVec.getLsbD_extractLsb']
  by_cases first : i < 8
  · simp [first]
  by_cases second : i - 8 < 8
  · simp [first, second, show 8 + (i - 8) = i by omega]
  by_cases third : i - 8 - 8 < 8
  · simp [first, second, third, show 16 + (i - 8 - 8) = i by omega]
  · simp [first, second, third, show i - 8 - 8 - 8 < 8 by omega, show 24 + (i - 8 - 8 - 8) = i by omega]

theorem load32_store32_ne (apart : x + 4 ≤ a ∨ a + 4 ≤ x) :
    load32 (store32 mem a v) x = load32 mem x := by
  simp only [load32]
  rw [store32_of_not_mem (by omega), store32_of_not_mem (by omega), store32_of_not_mem (by omega),
    store32_of_not_mem (by omega)]

/-- Giving back a page succeeds, it is linked to what was the free list, and
outside of that page memory is what it was. -/
theorem kfree_spec {k : Kernel} {v : Nat} (page : k.IsPage v) :
    ∃ mem, kfree v k = .ok { k with mem := mem, freelist := v, holder := update k.holder v none } ∧
      (∀ a, a < v ∨ v + 4096 ≤ a → mem a = k.mem a) ∧ load32 mem v = BitVec.ofNat 32 k.freelist := by
  have aligned := page.aligned
  have behind := page.behindKernel
  have physical : ¬v2p v ≥ phystop := by
    have := page.high
    have := page.low
    rw [page.v2p_eq]
    simp only [kernbase, phystop]
    omega
  refine ⟨store32 (memset k.mem v 1 pgsize) v (BitVec.ofNat 32 k.freelist), ?_, ?_, load32_store32 _ _ _⟩
  · simp only [kfree]
    rw [if_neg]
    simp only [pgsize, not_or, not_not]
    exact ⟨aligned, by omega, physical⟩
  · intro a outside
    rw [store32_of_not_mem (by omega), memset_of_not_mem (by simp only [pgsize]; omega)]

end MiniOS
