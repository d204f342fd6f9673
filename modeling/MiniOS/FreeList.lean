import MiniOS.Kalloc
import MiniOS.Lib.Outcome

namespace MiniOS

open Lib Function

variable {pages : List Nat} {k : Kernel}

/-- The free list starts at `head` and goes through the given pages. -/
def Linked (mem : Nat → BitVec 8) : Nat → List Nat → Prop
  | _, [] => True
  | head, pg :: rest => head = pg ∧ Linked mem (load32 mem pg).toNat rest

/-- `kalloc` will hand out these pages next, and nobody holds one of them. -/
structure Spare (k : Kernel) (pages : List Nat) : Prop where
  linked : Linked k.mem k.freelist pages
  isPage : ∀ pg ∈ pages, k.IsPage pg
  unheld : ∀ pg ∈ pages, k.holder pg = none
  nodup : pages.Nodup

theorem Linked.congr {mem mem' : Nat → BitVec 8} {head : Nat} (linked : Linked mem head pages)
    (same : ∀ pg ∈ pages, ∀ a, pg ≤ a → a < pg + 4096 → mem' a = mem a) : Linked mem' head pages := by
  induction pages generalizing head with
  | nil => trivial
  | cons pg rest ih =>
    refine ⟨linked.1, ?_⟩
    rw [load32_congr fun a low high => same pg List.mem_cons_self a low (by omega)]
    exact ih linked.2 fun qg member => same qg (.tail _ member)

/-- A page given back is the next that `kalloc` hands out. -/
theorem Spare.kfree {v : Nat} (spare : Spare k pages) (page : k.IsPage v)
    (new : v ∉ pages) : ∃ k', kfree v k = .ok k' ∧ Spare k' (v :: pages) ∧ k'.kend = k.kend ∧
      k'.holder = update k.holder v none := by
  obtain ⟨mem, result, outside, link⟩ := kfree_spec page
  have kend : ({ k with mem := mem, freelist := v, holder := update k.holder v none } : Kernel).kend =
    k.kend := rfl
  refine ⟨_, result, ⟨⟨rfl, ?_⟩, fun pg member => ?_, fun pg member => ?_, List.nodup_cons.2 ⟨new, spare.nodup⟩⟩,
    rfl, rfl⟩
  · have linked : Linked mem k.freelist pages := by
      refine spare.linked.congr fun pg member a low high => outside a ?_
      have := page.aligned
      have := (spare.isPage pg member).aligned
      have : pg ≠ v := fun same => new (same ▸ member)
      omega
    change Linked mem (load32 mem v).toNat pages
    rw [link, BitVec.toNat_ofNat]
    match pages, spare, linked with
    | [], _, _ => trivial
    | pg :: rest, spare, linked =>
      have high := (spare.isPage pg (.head _)).high
      have head := linked.1
      rwa [Nat.mod_eq_of_lt (by omega)]
  · rw [Kernel.IsPage.congr kend]
    rcases List.mem_cons.1 member with rfl | member
    · exact page
    · exact spare.isPage pg member
  · by_cases same : pg = v
    · subst same
      exact update_self ..
    · exact (update_of_ne same _ _).trans (spare.unheld pg ((List.mem_cons.1 member).resolve_left same))

/-- `freerange` puts every page of the range on the free list. -/
theorem freerange_spare {vstart vend : Nat} (behind : k.kend ≤ pgroundup vstart)
    (lower : kernbase ≤ pgroundup vstart) (upper : vend ≤ kernbase + phystop) :
    ∃ k' pages, freerange vstart vend k = .ok k' ∧ Spare k' pages ∧
      pages.length = (vend - pgroundup vstart) / pgsize ∧
      ∀ pg, k'.holder pg = none ∨ k'.holder pg = k.holder pg := by
  unfold freerange
  have aligned : pgroundup vstart % 4096 = 0 := Nat.mul_mod_left _ _
  generalize pgroundup vstart = start at *
  have last : pgsize * ((vend - start) / pgsize) ≤ vend - start := Nat.mul_div_le _ _
  generalize (vend - start) / pgsize = n at *
  suffices ∃ k' pages, ((List.range n).map fun i : Nat => start + pgsize * i).foldlM (fun k p => kfree p k) k =
      .ok k' ∧ Spare k' pages ∧ pages.length = n ∧ (∀ pg ∈ pages, pg < start + pgsize * n) ∧ k'.kend = k.kend ∧
      ∀ pg, k'.holder pg = none ∨ k'.holder pg = k.holder pg by
    obtain ⟨k', pages, result, spare, length, _, _, holder⟩ := this
    exact ⟨k', pages, result, spare, length, holder⟩
  induction n with
  | zero =>
    have spare : Spare k [] := ⟨trivial, by simp, by simp, List.nodup_nil⟩
    exact ⟨k, [], rfl, spare, rfl, fun pg member => absurd member List.not_mem_nil, rfl, fun _ => .inr rfl⟩
  | succ n ih =>
    simp only [pgsize, kernbase, phystop] at *
    obtain ⟨k', pages, result, spare, length, below, kend, holder⟩ := ih (by omega)
    have page : k'.IsPage (start + 4096 * n) := by
      refine ⟨by omega, by omega, ?_, ?_⟩
      · simp only [kernbase]
        omega
      · simp only [kernbase, phystop]
        omega
    obtain ⟨k'', freed, spare', kend', holder'⟩ := spare.kfree page fun member => absurd (below _ member) (by omega)
    refine ⟨k'', _, ?_, spare', by simp [length], ?_, kend'.trans kend, fun pg => ?_⟩
    · rw [List.range_succ, List.map_append, List.foldlM_append, result]
      simp [freed]
    · intro pg member
      rcases List.mem_cons.1 member with same | member
      · omega
      · have := below pg member
        omega
    · rw [holder']
      by_cases same : pg = start + 4096 * n
      · rw [same, update_self]
        exact .inl rfl
      · rw [update_of_ne same]
        exact holder pg

end MiniOS
