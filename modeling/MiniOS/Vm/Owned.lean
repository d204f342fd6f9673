import MiniOS.Vm.Map

namespace MiniOS.Vm

open Lib Function

namespace Space

variable {f d : Nat}

/-- The page that a user page is mapped to. -/
def user (sp : Space) (v : Nat) : Option Nat := if v < 2 ^ 19 ∧
    Present (sp.pte v) then some (frameOf (sp.pte v)) else none

/-- The pages that belong to a directory: its own, its page tables and the user pages. -/
def frame (sp : Space) (d : Nat) : Option Nat ⊕ Nat → Option Nat := Sum.elim (sp.tree d) sp.user

variable {sp : Space} {v : Nat} {w : BitVec 32}

theorem user_of_present (low : v < 2 ^ 19) (present : Present (sp.pte v)) : sp.user v = some (frameOf (sp.pte v)) :=
  if_pos ⟨low, present⟩

theorem user_of_absent (absent : ¬Present (sp.pte v)) : sp.user v = none := if_neg fun found => absent found.2

theorem user_of_high (high : 2 ^ 19 ≤ v) : sp.user v = none := if_neg fun found => Nat.not_lt.2 high found.1

theorem user_some (here : sp.user v = some f) : v < 2 ^ 19 ∧ Present (sp.pte v) ∧ frameOf (sp.pte v) = f := by
  unfold user at here
  split at here
  · rename_i found
    exact ⟨found.1, found.2, Option.some.inj here⟩
  · cases here

theorem tree_owned {x : Option Nat} (here : sp.tree d x = some f) : f ∈ holdings (sp.frame d) := ⟨.inl x, here⟩

theorem user_owned (here : sp.user v = some f) : f ∈ holdings (sp.frame d) := ⟨.inr v, here⟩

theorem user_congr {sp' : Space} (same : sp'.pte v = sp.pte v) : sp'.user v = sp.user v := by
  unfold user
  rw [same]

theorem user_set (sp : Space) (v : Nat) (w : BitVec 32) :
    (sp.set v w).user = update sp.user v (if v < 2 ^ 19 ∧ Present w then some (frameOf w) else none) := by
  funext u
  by_cases here : u = v
  · subst here
    rw [update_self]
    simp only [user, set, update_self]
  · rw [update_of_ne here]
    exact user_congr (update_of_ne here ..)

theorem frame_clear (sp : Space) (d v : Nat) : (sp.set v 0).frame d = update (sp.frame d) (.inr v) none := by
  rw [frame, tree_set, user_set, if_neg fun found => not_present_zero found.2, ← Sum.update_elim_inr]
  rfl

end Space

/-- The pages that `kinit1` and `kinit2` give to the allocator. -/
def pool [KernelImage] : Set Nat := {f | KernelImage.stop ≤ f ∧ f < phystop / pgsize}

/-- Each page of the pool is free, or belongs to others, or belongs to the directory `d`,
which has no page twice. -/
structure Holds [KernelImage] (m : Mem) (others : Set Nat) (d : Nat) : Prop where
  injects : Injects ((m.space d).frame d)
  parts : Parts pool m.free others (holdings ((m.space d).frame d))

section Holds

variable [KernelImage] {m m' : Mem} {others : Set Nat} {d f v : Nat}

theorem pool_lt (inside : f ∈ pool) : f < 2 ^ 20 := Nat.lt_of_lt_of_le inside.2 (by decide)

theorem kfree_eq (inside : f ∈ pool) : kfree f m = .ok ((), m.give f) := by
  refine wp_eq_ok ?_
  unfold kfree
  rw [if_neg]
  · exact ⟨rfl, rfl⟩
  · rintro (low | high)
    · exact Nat.not_lt.2 inside.1 low
    · exact Nat.not_lt.2 high inside.2

namespace Holds

variable {P : Nat → Prop}

theorem tree (holds : Holds m others d) : Injects ((m.space d).tree d) := holds.injects.comp Sum.inl_injective

theorem dir (holds : Holds m others d) : Dir m d := by
  refine ⟨holds.tree, holds.parts.nodup, ?_, fun f member => pool_lt (holds.parts.free_pool member)⟩
  rintro f member ⟨x, here⟩
  exact holds.parts.freeOwned f member (Space.tree_owned here)

/-- A page that was handed out and zeroed is a directory. -/
theorem of_zero (zero : m.page d = fun _ => 0) (parts : Parts pool m.free others {d}) : Holds m others d := by
  have only : ∀ {x g}, (m.space d).frame d x = some g → x = .inl none ∧ g = d := by
    intro x g here
    rw [space_zero zero] at here
    rcases x with (_ | i) | v
    · exact ⟨rfl, (Option.some.inj here).symm⟩
    · cases here
    · rw [Space.frame, Sum.elim_inr, Space.user_of_absent not_present_zero] at here
      cases here
  have frames : holdings ((m.space d).frame d) = {d} := by
    ext g
    constructor
    · rintro ⟨x, here⟩
      exact (only here).2
    · rintro rfl
      exact ⟨.inl none, rfl⟩
  refine ⟨fun x y g here there => ?_, frames ▸ parts⟩
  rw [(only here).1, (only there).1]

/-- A user page is no page table. -/
theorem user_not_tree (holds : Holds m others d) (here : (m.space d).user v = some f) :
    f ∉ holdings ((m.space d).tree d) := by
  rintro ⟨x, there⟩
  cases holds.injects (x := .inr v) (y := .inl x) here there

/-- The space and the free list are all that matters. -/
theorem congr (holds : Holds m others d) (space : m'.space d = m.space d) (free : m'.free = m.free) :
    Holds m' others d := by
  refine ⟨?_, ?_⟩
  · rw [space]
    exact holds.injects
  · rw [space, free]
    exact holds.parts

theorem not_tree (holds : Holds m others d) (other : f ∈ others) : f ∉ holdings ((m.space d).tree d) := by
  rintro ⟨x, here⟩
  exact holds.parts.apart f other (Space.tree_owned here)

/-- `kalloc` hands out a page, which `kfree` may take back. -/
theorem take {rest : List Nat} (holds : Holds m others d) (frees : m.free = f :: rest) :
    Holds (m.take rest) (insert f others) d := by
  have parts := holds.parts
  rw [frees] at parts
  exact ⟨holds.injects, parts.take⟩

theorem give (holds : Holds m (insert f others) d) (new : f ∉ others) : Holds (m.give f) others d := by
  have space : (m.give f).space d = m.space d := space_setPage (holds.not_tree (Set.mem_insert f others)) _
  refine ⟨?_, ?_⟩
  · rw [space]
    exact holds.injects
  · rw [space]
    exact holds.parts.give new

/-- A user page is freed, and its entry cleared. -/
theorem unmap {t : Nat} (holds : Holds m others d) (here : (m.space d).table (v / 1024) = some t)
    (mapped : (m.space d).user v = some f) :
    let freed := (m.give f).setPage t (store32 ((m.give f).page t) (4 * (v % 1024)) 0)
    freed.space d = (m.space d).set v 0 ∧ Holds freed others d := by
  intro freed
  have same : (m.give f).space d = m.space d := space_setPage (holds.user_not_tree mapped) _
  have space : freed.space d = (m.space d).set v 0 := by
    have set := space_set (m := m.give f) (d := d) (same ▸ holds.tree) (same ▸ here) (Nat.mod_lt v (by decide)) 0
    rwa [Nat.div_add_mod, same] at set
  have held : (m.space d).frame d (.inr v) = some f := mapped
  refine ⟨space, ?_, ?_⟩
  · rw [space, Space.frame_clear]
    exact holds.injects.release
  · rw [space, Space.frame_clear, holdings_release holds.injects held]
    exact (holds.parts.disown (Space.user_owned mapped)).give fun other => holds.parts.apart f other
      (Space.user_owned mapped)

variable {first p n k : Nat} {perm : BitVec 32} {new : List Nat}

/-- Page tables are added. -/
theorem grow (holds : Holds m others d) (grown : Extends d P new m m') (user : (m'.space d).user = (m.space d).user) :
    Holds m' others d := by
  have parts := holds.parts
  rw [grown.free] at parts
  obtain ⟨injects, parts⟩ := parts.claims holds.injects (Acquired.elim grown.claims)
  rw [← user] at injects parts
  exact ⟨injects, parts⟩

/-- A page that was handed out is mapped. -/
theorem map (holds : Holds m (insert f others) d) (outside : f ∉ others) (grown : Extends d P new m m')
    (vacant : (m.space d).user v = none) (user : (m'.space d).user = update (m.space d).user v (some f)) :
    Holds m' others d := by
  have parts := holds.parts
  rw [grown.free] at parts
  obtain ⟨injects, parts⟩ := parts.claims holds.injects (Acquired.elim grown.claims)
  have frame : (m'.space d).frame d =
      update (Sum.elim ((m'.space d).tree d) (m.space d).user) (.inr v) (some f) := by
    rw [Sum.update_elim_inr, ← user]
    rfl
  have free : Sum.elim ((m'.space d).tree d) (m.space d).user (.inr v) = none := vacant
  refine ⟨?_, ?_⟩
  · rw [frame]
    exact injects.claim fun owned => parts.apart f (Set.mem_insert f others) owned
  · rw [frame, holdings_claim free]
    exact parts.own outside

end Holds

end Holds

end MiniOS.Vm
