import MiniOS.Kalloc

namespace MiniOS.Vm

/-- The bytes of a page, of which only the first `PGSIZE` are ever used. -/
abbrev Page := Nat → BitVec 8

/-- `EXTMEM` and `DEVSPACE`. -/
def extmem : Nat := 0x100000
def devspace : Nat := 0xFE000000

/-- `PTE_P`, `PTE_W` and `PTE_U`. -/
def pteP : BitVec 32 := 1
def pteW : BitVec 32 := 2
def pteU : BitVec 32 := 4

/-- The addresses that the linker chooses, as numbers of physical pages: that of
`data`, and that of the first page behind `end`. -/
class KernelImage where
  data : Nat
  stop : Nat
  text : 256 < data
  order : data ≤ stop
  low : stop ≤ 1024

/-- The physical pages, the free list of `kalloc` and, for each of the next calls of
`kalloc`, whether the other processes leave it a page. No function reads `missed`, in
which the model counts the calls of `kalloc` that returned 0. -/
structure Mem where
  page : Nat → Page
  free : List Nat
  grant : Nat → Bool
  missed : Nat

abbrev VmM := StateT Mem (Except Stop)

/-- `PDX` and `PTX`. -/
def pdx (va : Nat) : Nat := va / 2 ^ 22 % 1024
def ptx (va : Nat) : Nat := va / 2 ^ 12 % 1024

/-- `PGROUNDUP` and `PGROUNDDOWN`, in 32-bit arithmetic. -/
def pgroundup (sz : Nat) : Nat := (sz + 4095) % 2 ^ 32 / 4096 * 4096
def pgrounddown (a : Nat) : Nat := a / 4096 * 4096

/-- `PTE_P` is set. -/
def Present (pte : BitVec 32) : Prop := pte &&& pteP ≠ 0

instance (pte : BitVec 32) : Decidable (Present pte) := inferInstanceAs (Decidable (_ ≠ _))

/-- The page that `P2V(PTE_ADDR(pte))` points to. -/
def frameOf (pte : BitVec 32) : Nat := pte.toNat / 4096

/-- `PTE_FLAGS`. -/
def flagsOf (pte : BitVec 32) : BitVec 32 := pte &&& 0xFFF

/-- Entry `i` of the page directory or page table in page `f`. -/
def entry (page : Nat → Page) (f i : Nat) : BitVec 32 := load32 (page f) (4 * i)

def Mem.setPage (m : Mem) (f : Nat) (p : Page) : Mem := { m with page := Function.update m.page f p }

def setEntry (f i : Nat) (w : BitVec 32) : VmM Unit := modify fun m => m.setPage f (store32 (m.page f) (4 * i) w)

/-- `memset` and `memmove` of a whole page. -/
def setPage (f : Nat) (p : Page) : VmM Unit := modify fun m => m.setPage f p

/-- `kalloc` takes a page from the free list, or returns 0. -/
def Mem.take (m : Mem) (rest : List Nat) : Mem := { m with free := rest, grant := fun n => m.grant (n + 1) }

def Mem.refuse (m : Mem) : Mem := { m with grant := fun n => m.grant (n + 1), missed := m.missed + 1 }

/-- `kfree` fills the page with 1 and puts it back. -/
def Mem.give (m : Mem) (f : Nat) : Mem := { m.setPage f (fun _ => 1) with free := f :: m.free }

def kalloc : VmM (Option Nat) := do
  let m ← get
  match m.free with
  | f :: rest =>
    if m.grant 0 then do
      set (m.take rest)
      pure (some f)
    else do
      set m.refuse
      pure none
  | [] => do
    set m.refuse
    pure none

section Functions

variable [KernelImage]

def kfree (f : Nat) : VmM Unit := do
  if f < KernelImage.stop ∨ phystop / pgsize ≤ f then throw (.panic "kfree")
  else modify fun m => m.give f

/-- `walkpgdir`, with the page table and the index that the result points to. -/
def walkpgdir (pgdir va : Nat) (alloc : Bool) : VmM (Option (Nat × Nat)) := do
  let m ← get
  if Present (entry m.page pgdir (pdx va)) then pure (some (frameOf (entry m.page pgdir (pdx va)), ptx va))
  else if alloc = false then pure none
  else do
    let pgtab ← kalloc
    match pgtab with
    | none => pure none
    | some pgtab => do
      setPage pgtab fun _ => 0
      setEntry pgdir (pdx va) (BitVec.ofNat 32 (4096 * pgtab) ||| pteP ||| pteW ||| pteU)
      pure (some (pgtab, ptx va))

/-- The loop of `mappages`. -/
def mappagesFrom (pgdir last : Nat) (perm : BitVec 32) : Nat → Nat → Nat → VmM Int
  | 0, _, _ => throw .endlessLoop
  | rounds + 1, a, pa => do
    let pte ← walkpgdir pgdir a true
    match pte with
    | none => pure (-1)
    | some (t, j) => do
      let m ← get
      if Present (entry m.page t j) then throw (.panic "remap")
      else do
        setEntry t j (BitVec.ofNat 32 pa ||| perm ||| pteP)
        if a = last then pure 0
        else mappagesFrom pgdir last perm rounds ((a + pgsize) % 2 ^ 32) ((pa + pgsize) % 2 ^ 32)

/-- The number of pages of the address space. -/
def npages : Nat := 2 ^ 20

def mappages (pgdir va size pa : Nat) (perm : BitVec 32) : VmM Int :=
  mappagesFrom pgdir (pgrounddown ((va + size + (2 ^ 32 - 1)) % 2 ^ 32)) perm npages (pgrounddown va) pa

/-- The loop of `deallocuvm`. -/
def deallocuvmFrom (pgdir oldsz : Nat) : Nat → Nat → VmM Unit
  | 0, _ => throw .endlessLoop
  | rounds + 1, a =>
    if a < oldsz then do
      let pte ← walkpgdir pgdir a false
      match pte with
      | none => deallocuvmFrom pgdir oldsz rounds ((pdx a + 1) * 2 ^ 22 % 2 ^ 32)
      | some (t, j) => do
        let m ← get
        if Present (entry m.page t j) then do
          if frameOf (entry m.page t j) = 0 then throw (.panic "kfree")
          else do
            kfree (frameOf (entry m.page t j))
            setEntry t j 0
            deallocuvmFrom pgdir oldsz rounds ((a + pgsize) % 2 ^ 32)
        else deallocuvmFrom pgdir oldsz rounds ((a + pgsize) % 2 ^ 32)
    else pure ()

def deallocuvm (pgdir oldsz newsz : Nat) : VmM Nat := do
  if newsz ≥ oldsz then pure oldsz
  else do
    deallocuvmFrom pgdir oldsz npages (pgroundup newsz)
    pure newsz

/-- The loop of `allocuvm`, `false` if it runs out of memory. -/
def allocuvmFrom (pgdir oldsz newsz : Nat) : Nat → Nat → VmM Bool
  | 0, _ => throw .endlessLoop
  | rounds + 1, a =>
    if a < newsz then do
      let mem ← kalloc
      match mem with
      | none => do
        let _ ← deallocuvm pgdir newsz oldsz
        pure false
      | some mem => do
        setPage mem fun _ => 0
        let r ← mappages pgdir a pgsize (4096 * mem) (pteW ||| pteU)
        if r < 0 then do
          let _ ← deallocuvm pgdir newsz oldsz
          kfree mem
          pure false
        else allocuvmFrom pgdir oldsz newsz rounds ((a + pgsize) % 2 ^ 32)
    else pure true

def allocuvm (pgdir oldsz newsz : Nat) : VmM Nat := do
  if newsz ≥ kernbase then pure 0
  else if newsz < oldsz then pure oldsz
  else do
    let done ← allocuvmFrom pgdir oldsz newsz npages (pgroundup oldsz)
    pure (if done then newsz else 0)

/-- The loop of `freevm` over the page tables, with the number of rounds left. -/
def freeTables (pgdir : Nat) : Nat → Nat → VmM Unit
  | 0, _ => pure ()
  | rounds + 1, i => do
    let m ← get
    if Present (entry m.page pgdir i) then kfree (frameOf (entry m.page pgdir i)) else pure ()
    freeTables pgdir rounds (i + 1)

/-- `freevm` of a directory that is not null. -/
def freevm (pgdir : Nat) : VmM Unit := do
  let _ ← deallocuvm pgdir kernbase 0
  freeTables pgdir 1024 0
  kfree pgdir

/-- An entry of `kmap`. -/
structure Kmap where
  virt : Nat
  physStart : Nat
  physEnd : Nat
  perm : BitVec 32

def kmap : List Kmap :=
  [⟨kernbase, 0, extmem, pteW⟩,
   ⟨kernbase + extmem, extmem, 4096 * KernelImage.data, 0⟩,
   ⟨kernbase + 4096 * KernelImage.data, 4096 * KernelImage.data, phystop, pteW⟩,
   ⟨devspace, devspace, 0, pteW⟩]

/-- The loop of `setupkvm`, `false` if it runs out of memory. -/
def mapKernel (pgdir : Nat) : List Kmap → VmM Bool
  | [] => pure true
  | k :: rest => do
    let r ← mappages pgdir k.virt ((k.physEnd + (2 ^ 32 - k.physStart)) % 2 ^ 32) k.physStart k.perm
    if r < 0 then pure false else mapKernel pgdir rest

def setupkvm : VmM (Option Nat) := do
  let pgdir ← kalloc
  match pgdir with
  | none => pure none
  | some pgdir => do
    setPage pgdir fun _ => 0
    if kernbase + phystop > devspace then throw (.panic "PHYSTOP too high")
    else do
      let done ← mapKernel pgdir kmap
      if done then pure (some pgdir)
      else do
        freevm pgdir
        pure none

/-- The loop of `copyuvm`, `false` for `goto bad`. -/
def copyuvmFrom (pgdir d sz : Nat) : Nat → Nat → VmM Bool
  | 0, _ => throw .endlessLoop
  | rounds + 1, i =>
    if i < sz then do
      let pte ← walkpgdir pgdir i false
      match pte with
      | none => throw (.panic "copyuvm: pte should exist")
      | some (t, j) => do
        let m ← get
        if ¬Present (entry m.page t j) then throw (.panic "copyuvm: page not present")
        else do
          let mem ← kalloc
          match mem with
          | none => pure false
          | some mem => do
            setPage mem (m.page (frameOf (entry m.page t j)))
            let r ← mappages d i pgsize (4096 * mem) (flagsOf (entry m.page t j))
            if r < 0 then do
              kfree mem
              pure false
            else copyuvmFrom pgdir d sz rounds ((i + pgsize) % 2 ^ 32)
    else pure true

def copyuvm (pgdir sz : Nat) : VmM (Option Nat) := do
  let d ← setupkvm
  match d with
  | none => pure none
  | some d => do
    let done ← copyuvmFrom pgdir d sz npages 0
    if done then pure (some d)
    else do
      freevm d
      pure none

/-- `growproc` of a process of size `sz`, with the size that it leaves. What `switchuvm`
loads into the processor is no part of the model. -/
def growproc (pgdir sz : Nat) (n : BitVec 32) : VmM (Int × Nat) := do
  if 0 < n.toInt then do
    let newsz ← allocuvm pgdir sz ((sz + n.toNat) % 2 ^ 32)
    pure (if newsz = 0 then (-1, sz) else (0, newsz))
  else if n.toInt < 0 then do
    let newsz ← deallocuvm pgdir sz ((sz + n.toNat) % 2 ^ 32)
    pure (if newsz = 0 then (-1, sz) else (0, newsz))
  else pure (0, sz)

/-- `sys_sbrk`, with the size that it leaves. -/
def sysSbrk (pgdir sz : Nat) (n : BitVec 32) : VmM (Int × Nat) := do
  let addr : Int := sz
  let r ← growproc pgdir sz n
  pure (if r.1 < 0 then (-1, r.2) else (addr, r.2))

end Functions

end MiniOS.Vm
