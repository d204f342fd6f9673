import MiniOS.Vm.Owned

namespace MiniOS.Vm

open Lib Function

/-- The pages from `lo` on that start below the address `hi` are no longer mapped. -/
def unmapped (pte : Nat → BitVec 32) (lo hi v : Nat) : BitVec 32 :=
  if lo ≤ v ∧ 4096 * v < hi ∧ Present (pte v) then 0 else pte v

section Unmapped

variable {pte : Nat → BitVec 32} {lo hi : Nat}

theorem unmapped_none (empty : hi ≤ 4096 * lo) : unmapped pte lo hi = pte := by
  funext v
  exact if_neg (by omega)

theorem unmapped_skip {next : Nat} (order : lo ≤ next) (absent : ∀ v, lo ≤ v → v < next → ¬Present (pte v)) :
    unmapped pte next hi = unmapped pte lo hi := by
  funext v
  simp only [unmapped]
  by_cases early : lo ≤ v ∧ v < next
  · rw [if_neg (by omega), if_neg fun found => absent v early.1 early.2 found.2.2]
  · have same : next ≤ v ↔ lo ≤ v := by omega
    simp only [same]

theorem unmapped_clear (below : 4096 * lo < hi) (present : Present (pte lo)) :
    unmapped (update pte lo 0) (lo + 1) hi = unmapped pte lo hi := by
  funext v
  simp only [unmapped]
  by_cases here : v = lo
  · subst here
    rw [if_neg (by omega), if_pos ⟨Nat.le_refl _, below, present⟩, update_self]
  · have same : lo + 1 ≤ v ↔ lo ≤ v := by omega
    simp only [update_of_ne here, same]

end Unmapped

/-- What `deallocuvm` does to the pages between `lo` and the address `hi`. -/
structure Shrunk (d lo hi : Nat) (m m' : Mem) : Prop where
  table : (m'.space d).table = (m.space d).table
  pte : (m'.space d).pte = unmapped (m.space d).pte lo hi
  pages : ∀ f, f ∉ holdings ((m.space d).tree d) → (∀ v, lo ≤ v → 4096 * v < hi → (m.space d).user v ≠ some f) →
    m'.page f = m.page f
  missed : m'.missed = m.missed

theorem Space.tree_congr {sp sp' : Space} (same : sp'.table = sp.table) (d : Nat) : sp'.tree d = sp.tree d := by
  funext x
  cases x with
  | none => rfl
  | some i => exact congrFun same i

namespace Shrunk

variable {d lo hi : Nat} {m m' : Mem}

theorem refl (d : Nat) (m : Mem) (empty : hi ≤ 4096 * lo) : Shrunk d lo hi m m :=
  ⟨rfl, (unmapped_none empty).symm, fun _ _ _ => rfl, rfl⟩

theorem skip {next : Nat} (rest : Shrunk d next hi m m') (order : lo ≤ next)
    (absent : ∀ v, lo ≤ v → v < next → ¬Present ((m.space d).pte v)) : Shrunk d lo hi m m' := by
  refine ⟨rest.table, ?_, fun f outside unused => rest.pages f outside fun v above below => ?_, rest.missed⟩
  · rw [rest.pte, unmapped_skip order absent]
  · exact unused v (Nat.le_trans order above) below

theorem clear [KernelImage] {others : Set Nat} {f t : Nat} (holds : Holds m others d)
    (here : (m.space d).table (lo / 1024) = some t) (mapped : (m.space d).user lo = some f) (below : 4096 * lo < hi)
    (rest : Shrunk d (lo + 1) hi ((m.give f).setPage t (store32 ((m.give f).page t) (4 * (lo % 1024)) 0)) m') :
    Shrunk d lo hi m m' := by
  obtain ⟨space, holds'⟩ := holds.unmap here mapped
  obtain ⟨_, present, _⟩ := Space.user_some mapped
  refine ⟨?_, ?_, fun g outside unused => ?_, rest.missed⟩
  · rw [rest.table, space]
    rfl
  · rw [rest.pte, space, ← unmapped_clear below present]
    rfl
  · have notTable : g ≠ t := by
      rintro rfl
      exact outside ⟨some _, here⟩
    have notFreed : g ≠ f := by
      rintro rfl
      exact unused lo Nat.le.refl below mapped
    rw [rest.pages g]
    · exact (update_of_ne notTable ..).trans (update_of_ne notFreed ..)
    · rwa [space, tree_set]
    · intro v above early
      have other : v ≠ lo := by omega
      rw [space, Space.user_set, update_of_ne other]
      exact unused v (by omega) early

end Shrunk

section Dealloc

variable [KernelImage] {others : Set Nat} {d hi : Nat}

theorem deallocuvmFrom_spec (low : hi ≤ 2 ^ 31) : ∀ (rounds lo : Nat) (m : Mem), 2 ^ 19 - lo < rounds →
    lo ≤ 2 ^ 19 → Holds m others d →
    wp (deallocuvmFrom d hi rounds (4096 * lo)) m (fun _ m' => Holds m' others d ∧ Shrunk d lo hi m m')
    fun _ => False := by
  intro rounds
  induction rounds with
  | zero => exact fun lo _ enough => absurd enough (Nat.not_lt_zero _)
  | succ rounds ih =>
    intro lo m enough bound holds
    unfold deallocuvmFrom
    refine wp_ite (fun below => ?_) fun done => ⟨holds, .refl d m (Nat.not_lt.1 done)⟩
    have next : (4096 * lo + pgsize) % 2 ^ 32 = 4096 * (lo + 1) := by
      simp only [pgsize]
      omega
    have index : pdx (4096 * lo) = lo / 1024 := pdx_page (by omega)
    cases here : (m.space d).table (lo / 1024) with
    | none =>
      -- the jump to the next entry of the directory passes pages that have no page table
      rw [wp_bind, wp, walkpgdir_none (index ▸ here)]
      have jump : (pdx (4096 * lo) + 1) * 2 ^ 22 % 2 ^ 32 = 4096 * (1024 * (lo / 1024 + 1)) := by
        rw [index]
        omega
      simp only [jump]
      refine wp_mono (ih _ m (by omega) (by omega) holds) ?_ fun _ => id
      rintro _ m' ⟨holds', shrunk⟩
      refine ⟨holds', shrunk.skip (by omega) fun v above early => ?_⟩
      rw [pte_none (by rwa [show v / 1024 = lo / 1024 by omega])]
      exact not_present_zero
    | some t =>
      rw [wp_bind, wp, walkpgdir_some false (index ▸ here)]
      refine wp_get_seq ?_
      have value : entry m.page t (ptx (4096 * lo)) = (m.space d).pte lo := by rw [ptx_page, pte_some here]
      rw [value, next]
      refine wp_ite (fun present => ?_) fun absent => ?_
      · have mapped : (m.space d).user lo = some (frameOf ((m.space d).pte lo)) :=
          Space.user_of_present (by omega) present
        have inside := holds.parts.owned_pool (Space.user_owned mapped)
        have positive : frameOf ((m.space d).pte lo) ≠ 0 := by
          have low := inside.1
          have text := KernelImage.text
          have order := KernelImage.order
          omega
        rw [if_neg positive, wp_bind, wp, kfree_eq inside]
        refine wp_modify_seq ?_
        rw [ptx_page]
        obtain ⟨space, holds'⟩ := holds.unmap here mapped
        refine wp_mono (ih (lo + 1) _ (by omega) (by omega) holds') ?_ fun _ => id
        rintro _ m' ⟨holds'', shrunk⟩
        exact ⟨holds'', shrunk.clear holds here mapped below⟩
      · refine wp_mono (ih (lo + 1) m (by omega) (by omega) holds) ?_ fun _ => id
        rintro _ m' ⟨holds', shrunk⟩
        refine ⟨holds', shrunk.skip (Nat.le_succ lo) fun v above early => ?_⟩
        rwa [show v = lo by omega]

/-- `deallocuvm` unmaps and frees the pages behind the new size. -/
theorem deallocuvm_spec {m : Mem} {oldsz newsz : Nat} (holds : Holds m others d) (low : oldsz ≤ kernbase)
    (less : newsz < oldsz) :
    wp (deallocuvm d oldsz newsz) m (fun r m' => r = newsz ∧ Holds m' others d ∧
      Shrunk d ((newsz + 4095) / 4096) oldsz m m')
      fun _ => False := by
  simp only [kernbase] at low
  have start : pgroundup newsz = 4096 * ((newsz + 4095) / 4096) := by
    rw [pgroundup]
    omega
  unfold deallocuvm
  rw [if_neg (Nat.not_le.2 less), start]
  refine wp_seq (deallocuvmFrom_spec (by omega) npages _ m ?_ (by omega) holds) fun _ m' after => ⟨rfl, after⟩
  simp only [npages]
  omega

end Dealloc

end MiniOS.Vm
