import MiniOS.Kalloc

namespace MiniOS

/-- What the argument checks of a system call read of `myproc()`: the size of its
memory, the saved stack pointer and the memory as the current page table shows it. -/
structure Caller where
  sz : BitVec 32
  esp : BitVec 32
  mem : Nat → BitVec 8

namespace Caller

/-- `fetchint`, with what `*ip` is before and after the call. -/
def fetchint (p : Caller) (addr ip : BitVec 32) : Int × BitVec 32 :=
  if addr ≥ p.sz ∨ addr + 4 > p.sz then (-1, ip) else (0, load32 p.mem addr.toNat)

/-- The loop of `fetchstr`, as far as the first nul byte in the given number of bytes. -/
def nulFrom (mem : Nat → BitVec 8) : Nat → Nat → Option Nat
  | 0, _ => none
  | rounds + 1, s => if mem s = 0 then some s else nulFrom mem rounds (s + 1)

/-- `fetchstr`, with what `*pp` is before and after the call. -/
def fetchstr (p : Caller) (addr pp : BitVec 32) : Int × BitVec 32 :=
  if addr ≥ p.sz then (-1, pp)
  else match nulFrom p.mem (p.sz.toNat - addr.toNat) addr.toNat with
    | some s => ((BitVec.ofNat 32 (s - addr.toNat)).toInt, addr)
    | none => (-1, addr)

/-- The address of the `n`th argument. -/
def argAddr (p : Caller) (n : BitVec 32) : BitVec 32 := p.esp + 4 + 4 * n

def argint (p : Caller) (n ip : BitVec 32) : Int × BitVec 32 := p.fetchint (p.argAddr n) ip

def argptr (p : Caller) (n pp size : BitVec 32) : Int × BitVec 32 :=
  let i := p.argint n 0
  if i.1 < 0 then (-1, pp)
  else if size.toInt < 0 ∨ i.2 ≥ p.sz ∨ i.2 + size > p.sz then (-1, pp)
  else (0, i.2)

def argstr (p : Caller) (n pp : BitVec 32) : Int × BitVec 32 :=
  let addr := p.argint n 0
  if addr.1 < 0 then (-1, pp) else p.fetchstr addr.2 pp

/-- A sum that does not pass `sz` has not wrapped if one part is below `sz` and
the other below `2^31`. -/
theorem add_le_of_small {i size sz : BitVec 32} (user : sz.toNat ≤ kernbase) (below : ¬i ≥ sz)
    (small : size.toNat < 2 ^ 31) (fits : ¬i + size > sz) : i.toNat + size.toNat ≤ sz.toNat := by
  simp only [kernbase] at user
  simp only [ge_iff_le, BitVec.not_le, BitVec.lt_def] at below
  simp only [gt_iff_lt, BitVec.not_lt, BitVec.le_def, BitVec.toNat_add] at fits
  omega

theorem fetchint_inside (p : Caller) (user : p.sz.toNat ≤ kernbase) {addr ip : BitVec 32}
    (success : 0 ≤ (p.fetchint addr ip).1) :
    addr.toNat + 4 ≤ p.sz.toNat ∧ (p.fetchint addr ip).2 = load32 p.mem addr.toNat := by
  unfold fetchint at success ⊢
  split at success
  · exact absurd success (by simp)
  · rename_i accepted
    rw [if_neg accepted]
    obtain ⟨below, fits⟩ := not_or.1 accepted
    exact ⟨add_le_of_small user below (by decide) fits, rfl⟩

theorem argptr_inside (p : Caller) (user : p.sz.toNat ≤ kernbase) {n pp size : BitVec 32}
    (success : 0 ≤ (p.argptr n pp size).1) :
    0 ≤ size.toInt ∧ (p.argptr n pp size).2.toNat + size.toNat ≤ p.sz.toNat := by
  simp only [argptr] at success ⊢
  split at success
  · exact absurd success (by simp)
  · split at success
    · exact absurd success (by simp)
    · rename_i fetched accepted
      rw [if_neg fetched, if_neg accepted]
      obtain ⟨signed, unsigned⟩ := not_or.1 accepted
      obtain ⟨below, fits⟩ := not_or.1 unsigned
      have positive : 0 ≤ size.toInt := Int.not_lt.1 signed
      have small : size.toNat < 2 ^ 31 := by
        rw [BitVec.toInt_eq_toNat_cond] at positive
        split at positive <;> omega
      exact ⟨positive, add_le_of_small user below small fits⟩

/-- The loop finds the first nul byte. -/
theorem nulFrom_spec (mem : Nat → BitVec 8) {rounds s e : Nat} (found : nulFrom mem rounds s = some e) :
    s ≤ e ∧ e < s + rounds ∧ mem e = 0 ∧ ∀ a, s ≤ a → a < e → mem a ≠ 0 := by
  induction rounds generalizing s with
  | zero => cases found
  | succ rounds ih =>
    rw [nulFrom] at found
    split at found
    · rename_i nul
      cases found
      exact ⟨Nat.le_refl _, by omega, nul, fun a low high => by omega⟩
    · rename_i visible
      obtain ⟨low, high, nul, earlier⟩ := ih found
      refine ⟨by omega, by omega, nul, fun a after before => ?_⟩
      by_cases first : a = s
      · rw [first]
        exact visible
      · exact earlier a (by omega) before

theorem fetchstr_inside (p : Caller) (user : p.sz.toNat ≤ kernbase) {addr pp : BitVec 32}
    (success : 0 ≤ (p.fetchstr addr pp).1) :
    (p.fetchstr addr pp).2.toNat + (p.fetchstr addr pp).1.toNat < p.sz.toNat ∧
      p.mem ((p.fetchstr addr pp).2.toNat + (p.fetchstr addr pp).1.toNat) = 0 ∧
      ∀ k < (p.fetchstr addr pp).1.toNat, p.mem ((p.fetchstr addr pp).2.toNat + k) ≠ 0 := by
  simp only [kernbase] at user
  simp only [fetchstr] at success ⊢
  split at success
  · exact absurd success (by simp)
  · rename_i below
    rw [if_neg below]
    split at success
    · rename_i e found
      obtain ⟨low, high, nul, earlier⟩ := nulFrom_spec p.mem found
      have length : (BitVec.ofNat 32 (e - addr.toNat)).toInt = (e - addr.toNat : Nat) := by
        rw [BitVec.toInt_eq_toNat_of_lt] <;> rw [BitVec.toNat_ofNat] <;> omega
      simp only [length, Int.toNat_natCast]
      have there : addr.toNat + (e - addr.toNat) = e := by omega
      rw [there]
      exact ⟨by omega, nul, fun k before => earlier _ (by omega) (by omega)⟩
    · exact absurd success (by simp)

/-- The argument checks of a system call accept memory of the caller only. -/
theorem arguments_in_user_memory (p : Caller) (user : p.sz.toNat ≤ kernbase) (n : BitVec 32) :
    (∀ ip, 0 ≤ (p.argint n ip).1 →
      (p.argAddr n).toNat + 4 ≤ p.sz.toNat ∧ (p.argint n ip).2 = load32 p.mem (p.argAddr n).toNat) ∧
    (∀ pp size, 0 ≤ (p.argptr n pp size).1 →
      0 ≤ size.toInt ∧ (p.argptr n pp size).2.toNat + size.toNat ≤ p.sz.toNat) ∧
    (∀ pp, 0 ≤ (p.argstr n pp).1 →
      (p.argstr n pp).2.toNat + (p.argstr n pp).1.toNat < p.sz.toNat ∧
      p.mem ((p.argstr n pp).2.toNat + (p.argstr n pp).1.toNat) = 0 ∧
      ∀ k < (p.argstr n pp).1.toNat, p.mem ((p.argstr n pp).2.toNat + k) ≠ 0) := by
  refine ⟨fun ip success => p.fetchint_inside user success, fun pp size success => p.argptr_inside user success, ?_⟩
  intro pp success
  simp only [argstr] at success ⊢
  split at success
  · exact absurd success (by simp)
  · rename_i fetched
    rw [if_neg fetched]
    exact p.fetchstr_inside user success

/-- A process of one page that starts with three letters, and whose arguments are zeros. -/
def onePage : Caller := ⟨4096, 4088, fun a => if a < 3 then 97 else 0⟩

/-- Its first argument is taken as a number, as the address of 16 bytes and as that of a string. -/
theorem arguments_of_one_page : onePage.sz.toNat ≤ kernbase ∧ (onePage.argAddr 0).toNat + 4 ≤ onePage.sz.toNat ∧
    (onePage.argptr 0 5 16).2.toNat + 16 ≤ onePage.sz.toNat ∧ (onePage.argstr 0 5).1 = 3 ∧
    (onePage.argstr 0 5).2.toNat + 3 < onePage.sz.toNat ∧
    ∀ k < 3, onePage.mem ((onePage.argstr 0 5).2.toNat + k) ≠ 0 := by
  obtain ⟨int, ptr, str⟩ := onePage.arguments_in_user_memory (by decide) 0
  have length : (onePage.argstr 0 5).1 = 3 := by decide
  have string := str 5 (by rw [length]; decide)
  rw [length] at string
  exact ⟨by decide, (int 5 (by decide)).1, (ptr 5 16 (by decide)).2, length, string.1, string.2.2⟩

end Caller

end MiniOS
