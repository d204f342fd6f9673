import MiniOS.FreeList
import MiniOS.Lib.Run
import Mathlib.Data.Set.Insert

namespace MiniOS

open Lib Relation Function

variable {k k' : Kernel} {pool : Set Nat} {free : List Nat}

/-- The free list starts at `head`, goes through the given pages and ends there. -/
def Chain (mem : Nat → BitVec 8) : Nat → List Nat → Prop
  | head, [] => head = 0
  | head, pg :: rest => head = pg ∧ Chain mem (load32 mem pg).toNat rest

theorem Chain.congr {mem mem' : Nat → BitVec 8} {head : Nat} {pages : List Nat} (chain : Chain mem head pages)
    (same : ∀ pg ∈ pages, ∀ a, pg ≤ a → a < pg + 4096 → mem' a = mem a) : Chain mem' head pages := by
  induction pages generalizing head with
  | nil => exact chain
  | cons pg rest ih =>
    refine ⟨chain.1, ?_⟩
    rw [load32_congr fun a low high => same pg List.mem_cons_self a low (by omega)]
    exact ih chain.2 fun qg member => same qg (.tail _ member)

theorem Kernel.IsPage.of_kend {pg : Nat} (page : k.IsPage pg) (kend : k'.kend = k.kend) :
    k'.IsPage pg :=
  (Kernel.IsPage.congr kend).2 page

namespace Kernel

/-- The page is handed out. -/
def Held (k : Kernel) (pg : Nat) : Prop := k.holder pg ≠ none

/-- The free list goes through the pages of `free`, each of them once, and the
pages of `pool` are these and, apart from them, the pages that are handed out. -/
structure Pool (k : Kernel) (pool : Set Nat) (free : List Nat) : Prop where
  chain : Chain k.mem k.freelist free
  nodup : free.Nodup
  isPage : ∀ pg ∈ pool, k.IsPage pg
  parts : ∀ pg, pg ∈ pool ↔ pg ∈ free ∨ k.Held pg
  apart : ∀ pg ∈ free, ¬k.Held pg

namespace Pool

variable {k k' : Kernel} {pool : Set Nat} {free : List Nat} {v : Nat}

theorem free_isPage (here : k.Pool pool free) {pg : Nat} (member : pg ∈ free) : k.IsPage pg :=
  here.isPage pg ((here.parts pg).2 (.inl member))

theorem held_isPage (here : k.Pool pool free) (held : k.Held v) : k.IsPage v :=
  here.isPage v ((here.parts v).2 (.inr held))

theorem not_free (here : k.Pool pool free) (held : k.Held v) : v ∉ free := fun member => here.apart v member held

/-- A page that is not on the free list comes to its front. -/
theorem kfree (here : k.Pool pool free) (page : k.IsPage v) (new : v ∉ free) :
    ∃ k', kfree v k = .ok k' ∧ k'.Pool (insert v pool) (v :: free) ∧ k'.kend = k.kend := by
  obtain ⟨mem, result, outside, link⟩ := kfree_spec page
  refine ⟨_, result, ⟨⟨rfl, ?_⟩, List.nodup_cons.2 ⟨new, here.nodup⟩, ?_, fun pg => ?_,
    fun pg member held => ?_⟩, rfl⟩
  · change Chain mem (load32 mem v).toNat free
    have small : k.freelist < 2 ^ 32 := by
      match free, here with
      | [], here => exact here.chain ▸ (by decide)
      | pg :: rest, here =>
        have := (here.free_isPage (.head _)).high
        have := here.chain.1
        omega
    rw [link, BitVec.toNat_ofNat, Nat.mod_eq_of_lt small]
    refine here.chain.congr fun pg member a low high => outside a ?_
    have different : pg ≠ v := fun same => new (same ▸ member)
    have := (here.free_isPage member).apart page different ⟨low, high⟩
    omega
  · rintro pg (rfl | member)
    · exact page.of_kend rfl
    · exact (here.isPage pg member).of_kend rfl
  · rw [Set.mem_insert_iff, here.parts, List.mem_cons, or_assoc]
    simp only [Held]
    by_cases same : pg = v
    · simp [same]
    · rw [update_of_ne same]
  · rcases List.mem_cons.1 member with same | member
    · rw [same] at held
      exact held (update_self ..)
    · have different : pg ≠ v := fun same => new (same ▸ member)
      simp only [Held, update_of_ne different] at held
      exact here.apart pg member held

/-- The next page of the free list is handed out. -/
theorem kalloc (here : k.Pool pool (v :: free)) (h : Holder) :
    kalloc h k = ({ k with
      freelist := (load32 k.mem v).toNat
      holder := update k.holder v (some h) }, v) ∧ (kalloc h k).1.Pool pool free := by
  have page := here.free_isPage (.head _)
  have head : k.freelist = v := here.chain.1
  have nonzero : v ≠ 0 := by
    have := page.low
    omega
  have result : MiniOS.kalloc h k = ({ k with
      freelist := (load32 k.mem v).toNat
      holder := update k.holder v (some h) }, v) := by
    simp only [MiniOS.kalloc, head]
    rw [if_neg nonzero]
  obtain ⟨new, nodup⟩ := List.nodup_cons.1 here.nodup
  refine ⟨result, ?_⟩
  rw [result]
  refine ⟨here.chain.2, nodup, fun pg member => (here.isPage pg member).of_kend rfl, fun pg => ?_,
    fun pg member => ?_⟩
  · rw [here.parts, List.mem_cons]
    simp only [Held]
    by_cases same : pg = v
    · simp [same]
    · simp [same]
  · have different : pg ≠ v := fun same => new (same ▸ member)
    simp only [Held, update_of_ne different]
    exact here.apart pg (.tail _ member)

theorem kalloc_nil (here : k.Pool pool []) (h : Holder) : MiniOS.kalloc h k = (k, 0) := by
  have head : k.freelist = 0 := here.chain
  simp only [MiniOS.kalloc, head]
  rfl

end Pool

end Kernel

/-- What may happen to the page allocator: a page is handed out, a page that is
handed out is given back, and what is in the pages that are handed out changes. -/
inductive PageStep : Kernel → Kernel → Prop
  | kalloc (k : Kernel) (h : Holder) : PageStep k (kalloc h k).1
  | kfree {k k' : Kernel} {v : Nat} (held : k.Held v) (freed : kfree v k = .ok k') : PageStep k k'
  | write {k : Kernel} {mem : Nat → BitVec 8}
      (others : ∀ a, (∀ pg, k.Held pg → ¬(pg ≤ a ∧ a < pg + 4096)) → mem a = k.mem a) : PageStep k (k.withMem mem)

theorem Kernel.Pool.step (here : k.Pool pool free)
    (step : PageStep k k') : (∃ free', k'.Pool pool free') ∧ k'.kend = k.kend := by
  cases step with
  | kalloc h =>
    cases free with
    | nil =>
      rw [here.kalloc_nil]
      exact ⟨⟨[], here⟩, rfl⟩
    | cons v rest =>
      refine ⟨⟨rest, (here.kalloc h).2⟩, ?_⟩
      rw [(here.kalloc h).1]
  | @kfree _ v held freed =>
    obtain ⟨_, result, there, kend⟩ := here.kfree (here.held_isPage held) (here.not_free held)
    cases result.symm.trans freed
    rw [Set.insert_eq_of_mem ((here.parts v).2 (.inr held))] at there
    exact ⟨⟨_, there⟩, kend⟩
  | write others =>
    refine ⟨⟨free, ⟨here.chain.congr fun pg member a low high => ?_, here.nodup,
      fun pg member => (here.isPage pg member).of_kend rfl, here.parts, here.apart⟩⟩, rfl⟩
    refine others a fun qg held inside => ?_
    have same := (here.free_isPage member).same_of_mem (here.held_isPage held) ⟨low, high⟩ inside
    exact here.apart pg member (same ▸ held)

theorem Kernel.Pool.run (here : k.Pool pool free)
    (run : ReflTransGen PageStep k k') : (∃ free', k'.Pool pool free') ∧ k'.kend = k.kend := by
  induction run with
  | refl => exact ⟨⟨free, here⟩, rfl⟩
  | tail _ last ih =>
    obtain ⟨⟨free', before⟩, kend⟩ := ih
    obtain ⟨after, kend'⟩ := before.step last
    exact ⟨after, kend'.trans kend⟩

/-- The pages that lie between two addresses. -/
def pagesIn (low high : Nat) : Set Nat := {pg | pg % 4096 = 0 ∧ low ≤ pg ∧ pg + 4096 ≤ high}

/-- `freerange` adds the pages of the range. -/
theorem Kernel.Pool.freerange (here : k.Pool pool free) (vstart vend : Nat)
    (behind : k.kend ≤ pgroundup vstart) (lower : kernbase ≤ pgroundup vstart) (upper : vend ≤ kernbase + phystop)
    (new : ∀ pg ∈ pagesIn (pgroundup vstart) vend, pg ∉ pool) :
    ∃ k' free', freerange vstart vend k = .ok k' ∧ k'.Pool (pool ∪ pagesIn (pgroundup vstart) vend) free' ∧
      k'.kend = k.kend := by
  unfold MiniOS.freerange
  have aligned : pgroundup vstart % 4096 = 0 := Nat.mul_mod_left _ _
  generalize pgroundup vstart = start at *
  have last : pgsize * ((vend - start) / pgsize) ≤ vend - start := Nat.mul_div_le _ _
  have whole : pagesIn start vend = pagesIn start (start + pgsize * ((vend - start) / pgsize)) := by
    ext pg
    simp only [pagesIn, Set.mem_ofPred_eq, pgsize]
    omega
  rw [whole] at new ⊢
  clear whole
  generalize (vend - start) / pgsize = n at *
  simp only [pgsize, kernbase, phystop] at *
  -- the loop has put the first `n` pages of the range on the list
  induction n with
  | zero =>
    refine ⟨k, free, rfl, ?_, rfl⟩
    have empty : pagesIn start (start + 4096 * 0) = ∅ := by
      ext pg
      simp only [pagesIn, Set.mem_ofPred_eq, Set.mem_empty_iff_false, iff_false]
      omega
    rwa [empty, Set.union_empty]
  | succ n ih =>
    have grown : pagesIn start (start + 4096 * (n + 1)) = insert (start + 4096 * n)
        (pagesIn start (start + 4096 * n)) := by
      ext pg
      simp only [pagesIn, Set.mem_ofPred_eq, Set.mem_insert_iff]
      omega
    rw [grown] at new ⊢
    obtain ⟨k', free', result, there, kend⟩ :=
      ih (fun pg member => new pg (Set.mem_insert_of_mem _ member)) (by omega)
    have page : k'.IsPage (start + 4096 * n) := by
      refine ⟨by omega, by omega, ?_, ?_⟩
      · simp only [kernbase]
        omega
      · simp only [kernbase, phystop]
        omega
    have fresh : start + 4096 * n ∉ free' := by
      intro member
      rcases (there.parts _).2 (.inl member) with old | ⟨_, _, below⟩
      · exact new _ (Set.mem_insert _ _) old
      · omega
    obtain ⟨k'', freed, there', kend'⟩ := there.kfree page fresh
    refine ⟨k'', (start + 4096 * n) :: free', ?_, ?_, kend'.trans kend⟩
    · rw [List.range_succ, List.map_append, List.foldlM_append, result]
      simp [freed]
    · rwa [Set.union_insert]

/-- The kernel before `kinit1`, with its end at the given physical address. -/
structure Kernel.Fresh (k : Kernel) (physEnd : Nat) : Prop where
  freelist : k.freelist = 0
  holder : ∀ pg, k.holder pg = none
  kend : k.kend = kernbase + physEnd

end MiniOS
