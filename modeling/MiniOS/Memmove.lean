import Mathlib.Algebra.Group.Nat.Defs
import Mathlib.Logic.Function.Basic

namespace MiniOS

open Function

variable {n s d : Nat}

/-- `while(n-- > 0) *d++ = *s++`. -/
def copyUp : Nat → Nat → Nat → (Nat → BitVec 8) → Nat → BitVec 8
  | 0, _, _, mem => mem
  | n + 1, s, d, mem => copyUp n (s + 1) (d + 1) (update mem d (mem s))

/-- `while(n-- > 0) *--d = *--s`. -/
def copyDown : Nat → Nat → Nat → (Nat → BitVec 8) → Nat → BitVec 8
  | 0, _, _, mem => mem
  | n + 1, s, d, mem => copyDown n (s - 1) (d - 1) (update mem (d - 1) (mem (s - 1)))

/-- The `memmove` of `string.c`, which the kernel uses. -/
def StringC.memmove (dst src n : BitVec 32) (mem : Nat → BitVec 8) : Nat → BitVec 8 :=
  if src < dst ∧ src + n > dst then copyDown n.toNat (src.toNat + n.toNat) (dst.toNat + n.toNat) mem
  else copyUp n.toNat src.toNat dst.toNat mem

/-- The `memmove` of `ulib.c`, which user programs are linked with. Its `n` is an `int`. -/
def Ulib.memmove (dst src n : BitVec 32) (mem : Nat → BitVec 8) : Nat → BitVec 8 :=
  copyUp n.toInt.toNat src.toNat dst.toNat mem

/-- The memory in which the `n` bytes at `d` are the bytes that were at `s`. -/
def moved (n s d : Nat) (mem : Nat → BitVec 8) : Nat → BitVec 8 :=
  fun a => if d ≤ a ∧ a < d + n then mem (s + (a - d)) else mem a

theorem copyUp_eq (safe : ¬(s < d ∧ d < s + n)) (mem : Nat → BitVec 8) :
    copyUp n s d mem = moved n s d mem := by
  induction n generalizing s d mem with
  | zero =>
    funext a
    rw [copyUp, moved, if_neg (by omega)]
  | succ n ih =>
    rw [copyUp, ih (by omega)]
    funext a
    simp only [moved]
    by_cases first : a = d
    · subst first
      rw [if_neg (by omega), if_pos (by omega), update_self, Nat.sub_self, Nat.add_zero]
    · by_cases inside : d + 1 ≤ a ∧ a < d + 1 + n
      · rw [if_pos inside, if_pos (by omega), update_of_ne (by omega)]
        congr 1
        omega
      · rw [if_neg inside, if_neg (by omega), update_of_ne first]

theorem copyDown_eq (later : s < d) (mem : Nat → BitVec 8) :
    copyDown n (s + n) (d + n) mem = moved n s d mem := by
  induction n generalizing mem with
  | zero =>
    funext a
    rw [copyDown, moved, if_neg (by omega)]
  | succ n ih =>
    rw [copyDown, show s + (n + 1) - 1 = s + n by omega, show d + (n + 1) - 1 = d + n by omega, ih]
    funext a
    simp only [moved]
    by_cases last : a = d + n
    · subst last
      rw [if_neg (by omega), if_pos (by omega), update_self, Nat.add_sub_cancel_left]
    · by_cases inside : d ≤ a ∧ a < d + n
      · rw [if_pos inside, if_pos (by omega), update_of_ne (by omega)]
      · rw [if_neg inside, if_neg (by omega), update_of_ne last]

/-- The upward loop writes nothing below its destination. -/
theorem copyUp_below (n s : Nat) {a : Nat} (below : a < d) (mem : Nat → BitVec 8) : copyUp n s d mem a = mem a := by
  induction n generalizing s d mem with
  | zero => rfl
  | succ n ih => rw [copyUp, ih (s + 1) (by omega), update_of_ne (by omega)]

/-- If the source lies below the destination then each byte that the upward loop
writes is the one that it leaves at the place it was read from. -/
theorem copyUp_repeats {j : Nat} (later : s < d) (inside : j < n) (mem : Nat → BitVec 8) :
    copyUp n s d mem (d + j) = copyUp n s d mem (s + j) := by
  induction n generalizing s d j mem with
  | zero => omega
  | succ n ih =>
    rw [copyUp]
    cases j with
    | zero =>
      simp only [Nat.add_zero]
      rw [copyUp_below n _ (by omega), copyUp_below n _ (by omega), update_self, update_of_ne (by omega)]
    | succ j =>
      have next := ih (s := s + 1) (d := d + 1) (j := j) (by omega) (by omega) (update mem d (mem s))
      rwa [show d + 1 + j = d + (j + 1) by omega, show s + 1 + j = s + (j + 1) by omega] at next

/-- The upward loop loses the byte at `d` if `d` lies inside the source. -/
theorem copyUp_overlap (later : s < d) (inside : d < s + n) :
    copyUp n s d (fun a => if a = s then 1 else 0) ≠ moved n s d (fun a => if a = s then 1 else 0) := by
  intro same
  have shortage : d - s < n := by omega
  have nonempty : 0 < n := by omega
  have copied := copyUp_repeats later shortage fun a => if a = s then 1 else 0
  have start := copyUp_repeats later nonempty fun a => if a = s then 1 else 0
  simp only [Nat.add_zero] at start
  rw [show s + (d - s) = d by omega, start, copyUp_below n s later, if_pos rfl, same, moved,
    if_pos (by omega), if_neg (by omega)] at copied
  exact absurd copied (by decide)

theorem StringC.memmove_eq {dst src n : BitVec 32} (high : dst.toNat + n.toNat ≤ 2 ^ 32) (mem : Nat → BitVec 8) :
    StringC.memmove dst src n mem = moved n.toNat src.toNat dst.toNat mem := by
  unfold StringC.memmove
  split
  · rename_i overlap
    exact copyDown_eq (BitVec.lt_def.1 overlap.1) mem
  · rename_i safe
    refine copyUp_eq (fun overlap => safe ⟨BitVec.lt_def.2 overlap.1, ?_⟩) mem
    rw [gt_iff_lt, BitVec.lt_def, BitVec.toNat_add]
    omega

/-- The two functions agree, and do what `memmove` is for, exactly if the
destination does not start inside the source behind its first byte. -/
theorem memmoves_agree_iff (dst src n : BitVec 32) (signed : 0 ≤ n.toInt) (_inSource : src.toNat + n.toNat ≤ 2 ^ 32)
    (inTarget : dst.toNat + n.toNat ≤ 2 ^ 32) :
    (∀ mem, Ulib.memmove dst src n mem = StringC.memmove dst src n mem ∧
      StringC.memmove dst src n mem = moved n.toNat src.toNat dst.toNat mem) ↔
    ¬(src.toNat < dst.toNat ∧ dst.toNat < src.toNat + n.toNat) := by
  have count : n.toInt.toNat = n.toNat := by
    rw [BitVec.toInt_eq_toNat_cond] at signed ⊢
    split at signed <;> omega
  constructor
  · intro agree overlap
    have same := (agree fun a => if a = src.toNat then 1 else 0).1
    rw [Ulib.memmove, count, StringC.memmove_eq inTarget] at same
    exact copyUp_overlap overlap.1 overlap.2 same
  · intro safe mem
    rw [Ulib.memmove, count, copyUp_eq safe, StringC.memmove_eq inTarget]
    exact ⟨rfl, rfl⟩

/-- Three bytes moved down by one. -/
theorem memmoves_agree_downwards : Ulib.memmove 0 1 3 = StringC.memmove 0 1 3 := by
  funext mem
  exact ((memmoves_agree_iff 0 1 3 (by decide) (by decide) (by decide)).2 (by decide) mem).1

/-- Two bytes moved up by one: the library repeats the first. -/
theorem memmoves_differ_upwards :
    Ulib.memmove 1 0 2 (fun a => BitVec.ofNat 8 (a + 7)) 2 = 7 ∧
      StringC.memmove 1 0 2 (fun a => BitVec.ofNat 8 (a + 7)) 2 = 8 := by
  decide

end MiniOS
