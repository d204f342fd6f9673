import MiniOS.Lib.Partition
import MiniOS.Vm.Code

namespace MiniOS.Vm

open Lib Function

section Entries

variable {page : Nat → Page} {f g i j : Nat} {w perm : BitVec 32}

theorem present_iff : Present w ↔ w.getLsbD 0 = true := by
  constructor
  · intro present
    by_contra clear
    refine present (BitVec.eq_of_getLsbD_eq fun k bound => ?_)
    rw [BitVec.getLsbD_and]
    by_cases first : k = 0
    · rw [first, Bool.eq_false_iff.2 clear]
      rfl
    · simp [pteP, first]
  · intro set zero
    have bit : (w &&& pteP).getLsbD 0 = true := by rw [BitVec.getLsbD_and, set]; rfl
    rw [zero] at bit
    cases bit

theorem not_present_zero : ¬Present 0 := by decide

theorem toNat_or_frame (fits : f < 2 ^ 20) (small : perm.toNat < 4096) :
    (BitVec.ofNat 32 (4096 * f) ||| perm).toNat = 4096 * f + perm.toNat := by
  rw [BitVec.toNat_or, BitVec.toNat_ofNat, Nat.mod_eq_of_lt (by omega)]
  exact (Nat.two_pow_add_eq_or_of_lt (i := 12) (by simpa using small) f).symm

theorem frameOf_or (fits : f < 2 ^ 20) (small : perm.toNat < 4096) :
    frameOf (BitVec.ofNat 32 (4096 * f) ||| perm) = f := by
  rw [frameOf, toNat_or_frame fits small]
  omega

theorem flagsOf_lt (w : BitVec 32) : (flagsOf w).toNat < 4096 := by
  rw [flagsOf, BitVec.toNat_and]
  exact Nat.lt_of_le_of_lt Nat.and_le_right (by decide)

theorem flagsOf_or (fits : f < 2 ^ 20) (small : perm.toNat < 4096) :
    flagsOf (BitVec.ofNat 32 (4096 * f) ||| perm) = perm := by
  apply BitVec.eq_of_toNat_eq
  rw [flagsOf, BitVec.toNat_and, toNat_or_frame fits small]
  have mask : (0xFFF : BitVec 32).toNat = 2 ^ 12 - 1 := by decide
  rw [mask, Nat.and_two_pow_sub_one_eq_mod]
  omega

theorem flagsOf_present {w : BitVec 32} (present : Present w) : flagsOf w ||| pteP = flagsOf w := by
  apply BitVec.eq_of_getLsbD_eq
  intro k bound
  rw [BitVec.getLsbD_or]
  by_cases first : k = 0
  · subst first
    rw [flagsOf, BitVec.getLsbD_and, present_iff.1 present]
    rfl
  · simp [pteP, first]

/-- The entry for a page with the given flags. -/
def pteFor (f : Nat) (perm : BitVec 32) : BitVec 32 := BitVec.ofNat 32 (4096 * f) ||| perm ||| pteP

theorem present_pteFor (f : Nat) (perm : BitVec 32) : Present (pteFor f perm) := by
  rw [present_iff, pteFor, BitVec.getLsbD_or]
  simp [pteP]

theorem small_or (small : perm.toNat < 4096) : (perm ||| pteP).toNat < 4096 := by
  rw [BitVec.toNat_or]
  exact Nat.or_lt_two_pow (n := 12) small (by decide)

theorem frameOf_pteFor (fits : f < 2 ^ 20) (small : perm.toNat < 4096) : frameOf (pteFor f perm) = f := by
  rw [pteFor, BitVec.or_assoc, frameOf_or fits (small_or small)]

theorem flagsOf_pteFor (fits : f < 2 ^ 20) (small : perm.toNat < 4096) : flagsOf (pteFor f perm) = perm ||| pteP := by
  rw [pteFor, BitVec.or_assoc, flagsOf_or fits (small_or small)]

theorem entry_of_ne {p : Page} (other : g ≠ f) : entry (update page f p) g i = entry page g i := by
  rw [entry, update_of_ne other, entry]

theorem entry_store (page : Nat → Page) (f i j : Nat) (w : BitVec 32) :
    entry (update page f (store32 (page f) (4 * i) w)) f j = if j = i then w else entry page f j := by
  rw [entry, update_self]
  by_cases here : j = i
  · rw [if_pos here, here, load32_store32]
  · rw [if_neg here, load32_store32_ne (by omega), entry]

theorem entry_zero (f i : Nat) : entry (update page f fun _ => 0) f i = 0 := by
  rw [entry, update_self, load32]
  decide

end Entries

/-- The page table for entry `i` of a page directory. -/
def tableOf (page : Nat → Page) (d i : Nat) : Option Nat :=
  if i < 1024 ∧ Present (entry page d i) then some (frameOf (entry page d i)) else none

/-- The entry for the virtual page `n`, 0 where the page table is missing. -/
def pteOf (page : Nat → Page) (d n : Nat) : BitVec 32 :=
  match tableOf page d (n / 1024) with
  | none => 0
  | some t => entry page t (n % 1024)

/-- What a page directory shows: its page tables, and the entries in them by the number
of the virtual page. -/
structure Space where
  table : Nat → Option Nat
  pte : Nat → BitVec 32

def Mem.space (m : Mem) (d : Nat) : Space := ⟨tableOf m.page d, pteOf m.page d⟩

namespace Space

/-- A new page table, which is empty, and a new entry. -/
def link (sp : Space) (i f : Nat) : Space := { sp with table := update sp.table i (some f) }

def set (sp : Space) (n : Nat) (w : BitVec 32) : Space := { sp with pte := update sp.pte n w }

@[simp]
theorem link_table (sp : Space) (i f : Nat) : (sp.link i f).table = update sp.table i (some f) := rfl

@[simp]
theorem link_pte (sp : Space) (i f : Nat) : (sp.link i f).pte = sp.pte := rfl

@[simp]
theorem set_table (sp : Space) (n : Nat) (w : BitVec 32) : (sp.set n w).table = sp.table := rfl

@[simp]
theorem set_pte (sp : Space) (n : Nat) (w : BitVec 32) : (sp.set n w).pte = update sp.pte n w := rfl

/-- The pages of the directory and of its page tables. -/
def tree (sp : Space) (d : Nat) : Option Nat → Option Nat
  | none => some d
  | some i => sp.table i

end Space

section Writes

variable {m : Mem} {d : Nat} {i t n f : Nat} {m' : Mem}

theorem table_lt (here : (m.space d).table i = some t) : i < 1024 := by
  simp only [Mem.space, tableOf] at here
  split at here
  · rename_i found
    exact found.1
  · cases here

theorem pte_none (missing : (m.space d).table (n / 1024) = none) : (m.space d).pte n = 0 := by
  simp only [Mem.space] at missing ⊢
  rw [pteOf, missing]

theorem pte_some (here : (m.space d).table (n / 1024) = some t) : (m.space d).pte n = entry m.page t (n % 1024) := by
  simp only [Mem.space] at here ⊢
  rw [pteOf, here]

theorem table_congr (dir : m'.page d = m.page d) : (m'.space d).table = (m.space d).table := by
  funext i
  have same : entry m'.page d i = entry m.page d i := congrArg (load32 · _) dir
  simp only [Mem.space, tableOf, same]

/-- The directory and its tables are all that matters for what it shows. -/
theorem space_congr (dir : m'.page d = m.page d)
    (tables : ∀ i t, (m.space d).table i = some t → m'.page t = m.page t) : m'.space d = m.space d := by
  have table : tableOf m'.page d = tableOf m.page d := table_congr dir
  have pte : ∀ n, pteOf m'.page d n = pteOf m.page d n := by
    intro n
    rw [pteOf, pteOf, table]
    cases here : tableOf m.page d (n / 1024) with
    | none => rfl
    | some t => exact congrArg (load32 · _) (tables _ t here)
  simp only [Mem.space]
  rw [table, funext pte]

/-- Pages outside the directory may be written. -/
theorem space_setPage (outside : f ∉ holdings ((m.space d).tree d)) (p : Page) :
    (m.setPage f p).space d = m.space d := by
  refine space_congr (update_of_ne ?_ ..) fun i t here => update_of_ne ?_ ..
  · rintro rfl
    exact outside ⟨none, rfl⟩
  · rintro rfl
    exact outside ⟨some i, here⟩

theorem table_ne (injects : Injects ((m.space d).tree d)) (here : (m.space d).table i = some t) : t ≠ d := by
  rintro rfl
  cases injects (x := some i) (y := none) here rfl

theorem table_of_present (bound : i < 1024) (present : Present (entry m.page d i)) :
    (m.space d).table i = some (frameOf (entry m.page d i)) :=
  if_pos ⟨bound, present⟩

theorem table_of_absent (absent : ¬Present (entry m.page d i)) : (m.space d).table i = none :=
  if_neg fun found => absent found.2

/-- A page table, which is empty, is linked to the directory. -/
theorem space_link (injects : Injects ((m.space d).tree d)) (bound : i < 1024) (missing : (m.space d).table i = none)
    (other : f ≠ d) (small : f < 2 ^ 20) (zero : ∀ j, entry m.page f j = 0) :
    (m.setPage d (store32 (m.page d) (4 * i) (pteFor f (pteW ||| pteU)))).space d = (m.space d).link i f := by
  have table : ∀ k, tableOf (update m.page d (store32 (m.page d) (4 * i) (pteFor f (pteW ||| pteU)))) d k =
      update (m.space d).table i (some f) k := by
    intro k
    rw [tableOf, entry_store]
    by_cases here : k = i
    · subst here
      rw [if_pos rfl, update_self, if_pos ⟨bound, present_pteFor _ _⟩, frameOf_pteFor small (by decide)]
    · rw [if_neg here, update_of_ne here]
      rfl
  have pte : ∀ n, pteOf (update m.page d (store32 (m.page d) (4 * i) (pteFor f (pteW ||| pteU)))) d n =
      (m.space d).pte n := by
    intro n
    rw [pteOf, table]
    by_cases here : n / 1024 = i
    · rw [here, update_self, pte_none (here ▸ missing)]
      exact (entry_of_ne other).trans (zero _)
    · rw [update_of_ne here]
      cases there : (m.space d).table (n / 1024) with
      | none => exact (pte_none there).symm
      | some t => exact (entry_of_ne (table_ne injects there)).trans (pte_some there).symm
  simp only [Mem.space, Mem.setPage, Space.link]
  rw [funext table, funext pte]
  rfl

/-- An entry of a page table is written. -/
theorem space_set (injects : Injects ((m.space d).tree d)) (here : (m.space d).table i = some t)
    {j : Nat} (bound : j < 1024) (w : BitVec 32) :
    (m.setPage t (store32 (m.page t) (4 * j) w)).space d = (m.space d).set (1024 * i + j) w := by
  have table : ∀ k, tableOf (update m.page t (store32 (m.page t) (4 * j) w)) d k = (m.space d).table k := by
    intro k
    rw [tableOf, entry_of_ne (table_ne injects here).symm]
    rfl
  have pte : ∀ n, pteOf (update m.page t (store32 (m.page t) (4 * j) w)) d n =
      update (m.space d).pte (1024 * i + j) w n := by
    intro n
    rw [pteOf, table]
    cases there : (m.space d).table (n / 1024) with
    | none =>
      rw [update_of_ne, pte_none there]
      rintro rfl
      rw [show (1024 * i + j) / 1024 = i by omega, here] at there
      cases there
    | some t' =>
      by_cases same : t' = t
      · subst same
        have index : n / 1024 = i := Option.some.inj (injects (x := some _) (y := some _) there here)
        simp only [entry_store]
        by_cases at' : n % 1024 = j
        · rw [if_pos at', show n = 1024 * i + j by omega, update_self]
        · rw [if_neg at', update_of_ne (by omega), pte_some there]
      · rw [update_of_ne, pte_some there]
        · exact entry_of_ne same
        · rintro rfl
          rw [show (1024 * i + j) / 1024 = i by omega, here] at there
          exact same (Option.some.inj there).symm
  simp only [Mem.space, Mem.setPage, Space.set]
  rw [funext table, funext pte]
  rfl

end Writes

end MiniOS.Vm
