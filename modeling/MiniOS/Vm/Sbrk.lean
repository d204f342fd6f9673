import Mathlib.Algebra.Group.Int.Defs
import MiniOS.Vm.Kernel

namespace MiniOS.Vm

open Lib

/-- Exactly the user pages that start below the size are present. -/
def Space.Sized (sp : Space) (sz : Nat) : Prop := ∀ v < 2 ^ 19, Present (sp.pte v) ↔ 4096 * v < sz

section Sized

variable {m m' : Mem} {d sz newsz : Nat}

theorem Filled.sized (filled : Zeroed d ((sz + 4095) / 4096) newsz m m') (sized : (m.space d).Sized sz)
    (order : sz ≤ newsz) :
    (m'.space d).Sized newsz := by
  intro v low
  rcases Nat.lt_or_ge (4096 * v) newsz with below | above
  · rcases Nat.lt_or_ge v ((sz + 4095) / 4096) with old | new
    · rw [filled.outside v (.inl old), sized v low]
      omega
    · obtain ⟨f, _, value, _⟩ := filled.inside v new below
      rw [value]
      exact ⟨fun _ => below, fun _ => present_pteFor _ _⟩
  · rw [filled.outside v (.inr above), sized v low]
    omega

theorem Shrunk.sized (shrunk : Shrunk d ((newsz + 4095) / 4096) sz m m') (sized : (m.space d).Sized sz)
    (order : newsz ≤ sz) :
    (m'.space d).Sized newsz := by
  intro v low
  have before := sized v low
  rw [shrunk.pte, unmapped]
  split
  · rename_i gone
    refine ⟨fun present => absurd present not_present_zero, fun below => ?_⟩
    omega
  · rename_i stays
    rw [before]
    refine ⟨fun below => ?_, fun below => by omega⟩
    by_contra above
    exact stays ⟨by omega, below, before.2 below⟩

end Sized

theorem toInt_cases (n : BitVec 32) : (n.toInt = n.toNat ∧ n.toNat < 2 ^ 31) ∨
    (n.toInt = (n.toNat : Int) - 2 ^ 32 ∧ 2 ^ 31 ≤ n.toNat) := by
  rw [BitVec.toInt_eq_toNat_cond]
  split <;> omega

section Sbrk

variable [KernelImage] {m : Mem} {others : Set Nat} {d sz n' : Nat} {n : BitVec 32}

/-- `sbrk` has returned the old size and then done what it was asked for, or it has
returned -1 and changed nothing. -/
def SbrkTells (m : Mem) (d sz : Nat) (n : BitVec 32) (r : Int) (sz' : Nat) (m' : Mem) : Prop :=
  (r = sz ∧ (sz' : Int) = sz + n.toInt ∧ (m'.space d).Sized sz' ∧
    ∀ v, sz ≤ 4096 * v → 4096 * v < sz' → ∃ f, (m'.space d).user v = some f ∧ m'.page f = fun _ => 0) ∨
  (r = -1 ∧ sz' = sz ∧ (∀ v, (m'.space d).translate v = (m.space d).translate v) ∧
    ∀ v f, (m.space d).user v = some f → m'.page f = m.page f)

/-- Growing does what it says, and succeeds if there are enough pages. -/
theorem sbrk_grows (holds : Holds m others d) (sized : (m.space d).Sized sz) (low : sz < kernbase)
    (positive : 0 < n.toInt) :
    wp (sysSbrk d sz n) m
      (fun r m' => SbrkTells m d sz n r.1 r.2 m' ∧ (sz + n.toNat < kernbase →
        Stocked d (.range 1024) ((sz + n.toNat + 4095) / 4096 - (sz + 4095) / 4096) m → r.1 = sz))
      fun _ => False := by
  have value := toInt_cases n
  have size : (sz + n.toNat) % 2 ^ 32 = sz + n.toNat := by
    simp only [kernbase] at low
    omega
  unfold sysSbrk growproc
  rw [if_pos positive, size, wp_bind, wp_bind]
  by_cases high : kernbase ≤ sz + n.toNat
  · unfold allocuvm
    rw [if_pos high]
    exact ⟨.inr ⟨rfl, rfl, fun _ => rfl, fun _ _ _ => rfl⟩, fun fits => absurd high (Nat.not_le.2 fits)⟩
  · have absent : ∀ v, (sz + 4095) / 4096 ≤ v → 4096 * v < sz + n.toNat →
        ¬Present ((m.space d).pte v) ∧ v / 1024 ∈ Finset.range 1024 := by
      intro v above below
      have user : v < 2 ^ 19 := by
        simp only [kernbase] at high
        omega
      rw [sized v user, Finset.mem_range]
      omega
    refine wp_mono (allocuvm_spec holds (Nat.not_le.1 high) (Nat.le_add_right ..) absent) ?_ fun _ => id
    rintro r m' ⟨after, adds, ends⟩
    rcases ends with ⟨rfl, filled, _⟩ | ⟨rfl, same, refused⟩
    · have nonzero : ¬sz + n.toNat = 0 := by omega
      simp only [wp_pure, if_neg nonzero, Int.lt_irrefl, if_false]
      refine ⟨.inl ⟨rfl, ?_, filled.sized sized (Nat.le_add_right ..), fun v above below => ?_⟩, fun _ _ => trivial⟩
      · omega
      · obtain ⟨f, member, pte, zero⟩ := filled.inside v (by omega) below
        refine ⟨f, ?_, zero⟩
        rw [Space.user_of_present (by simp only [kernbase] at high; omega) (pte ▸ present_pteFor _ _), pte,
          frameOf_pteFor (holds.dir.small f member) (by decide)]
    · simp only [wp_pure]
      refine ⟨.inr ⟨rfl, rfl, same, fun v f mapped => adds.pages f ?_ (holds.user_not_tree mapped)⟩,
        fun _ stocked => absurd stocked refused.stock⟩
      exact fun free => holds.parts.freeOwned f free (Space.user_owned mapped)

/-- Shrinking frees the pages behind the new size, also if that is 0 and the call fails. -/
theorem sbrk_shrinks (holds : Holds m others d) (low : sz < kernbase) (negative : n.toInt < 0)
    (left : 0 ≤ sz + n.toInt) :
    wp (sysSbrk d sz n) m
      (fun r m' => Shrunk d (((sz + n.toInt).toNat + 4095) / 4096) sz m m' ∧
        r = if sz + n.toInt = 0 then (-1, sz) else ((sz : Int), (sz + n.toInt).toNat))
      fun _ => False := by
  have value := toInt_cases n
  have size : (sz + n.toNat) % 2 ^ 32 = (sz + n.toInt).toNat := by
    simp only [kernbase] at low
    omega
  unfold sysSbrk growproc
  rw [if_neg (by omega), if_pos negative, size, wp_bind, wp_bind]
  refine wp_mono (deallocuvm_spec holds (Nat.le_of_lt low) (by omega)) ?_ fun _ => id
  rintro r m' ⟨rfl, _, shrunk⟩
  rw [wp_pure, wp_pure]
  refine ⟨shrunk, ?_⟩
  by_cases zero : sz + n.toInt = 0
  · have empty : (sz + n.toInt).toNat = 0 := by omega
    simp only [if_pos zero, if_pos empty]
    rfl
  · have nonzero : ¬(sz + n.toInt).toNat = 0 := by omega
    simp only [if_neg zero, if_neg nonzero]
    rfl

/-- Shrinking by more than the size does nothing, and fails only if the size is 0. -/
theorem sbrk_below_zero (low : sz < kernbase) (below : sz + n.toInt < 0) :
    sysSbrk d sz n m = .ok ((if sz = 0 then -1 else (sz : Int), sz), m) := by
  have value := toInt_cases n
  have size : sz ≤ (sz + n.toNat) % 2 ^ 32 := by
    simp only [kernbase] at low
    omega
  refine wp_eq_ok ?_
  unfold sysSbrk growproc deallocuvm
  rw [if_neg (by omega), if_pos (by omega), if_pos size, wp_bind, wp_bind, wp_pure, wp_pure]
  by_cases zero : sz = 0
  · simp only [if_pos zero]
    exact ⟨rfl, rfl⟩
  · simp only [if_neg zero]
    exact ⟨rfl, rfl⟩

theorem sbrk_zero (zero : n.toInt = 0) : sysSbrk d sz n m = .ok (((sz : Int), sz), m) := by
  refine wp_eq_ok ?_
  unfold sysSbrk growproc
  rw [if_neg (by omega), if_neg (by omega)]
  exact ⟨rfl, rfl⟩

/-- A process with memory that gives back all of it is told that nothing happened. -/
theorem sbrk_to_zero (holds : Holds m others d) (sized : (m.space d).Sized sz) (low : sz < kernbase)
    (negative : n.toInt < 0) (empty : sz + n.toInt = 0) :
    ∃ m', sysSbrk d sz n m = .ok ((-1, sz), m') ∧ (m'.space d).translate 0 ≠ (m.space d).translate 0 := by
  obtain ⟨r, m', ended, shrunk, result⟩ := wp_ends (sbrk_shrinks holds low negative (Int.le_of_eq empty.symm))
  rw [if_pos empty] at result
  subst result
  refine ⟨m', ended, ?_⟩
  have present : Present ((m.space d).pte 0) := (sized 0 (by decide)).2 (by omega)
  have gone : (m'.space d).pte 0 = 0 := by
    rw [shrunk.pte, unmapped, if_pos ⟨by omega, by omega, present⟩]
  rw [Space.translate, Space.translate, gone, if_neg not_present_zero, if_pos present]
  intro wrong
  cases wrong

/-- Whatever `kalloc` returns, `sbrk` tells the truth exactly if it does not shrink a process
that has memory to nothing or below. -/
theorem sbrk_tells_iff (m : Mem) (others : Set Nat) (d sz : Nat) (n : BitVec 32) (holds : Holds m others d)
    (sized : (m.space d).Sized sz) (low : sz < kernbase) :
    (∃ r sz' m', sysSbrk d sz n m = .ok ((r, sz'), m') ∧ SbrkTells m d sz n r sz' m') ↔
      0 ≤ n.toInt ∨ 0 < sz + n.toInt ∨ sz = 0 := by
  rcases Int.lt_trichotomy n.toInt 0 with negative | zero | positive
  · rcases Int.lt_trichotomy (sz + n.toInt) 0 with below | empty | left
    · have ended := sbrk_below_zero (m := m) (d := d) low below
      constructor
      · rintro ⟨r, sz', m', ended', tells⟩
        cases ended.symm.trans ended'
        rcases tells with ⟨_, size, _⟩ | ⟨failed, _⟩
        · omega
        · refine Or.inr (Or.inr ?_)
          by_contra nonzero
          rw [if_neg nonzero] at failed
          omega
      · rintro (nonneg | more | empty)
        · omega
        · omega
        · rw [if_pos empty] at ended
          exact ⟨-1, sz, m, ended, Or.inr ⟨rfl, rfl, fun _ => rfl, fun _ _ _ => rfl⟩⟩
    · obtain ⟨m', ended, changed⟩ := sbrk_to_zero holds sized low negative empty
      constructor
      · rintro ⟨r, sz', m'', ended', tells⟩
        cases ended.symm.trans ended'
        rcases tells with ⟨returned, _⟩ | ⟨_, _, same, _⟩
        · omega
        · exact absurd (same 0) changed
      · rintro (nonneg | more | empty) <;> omega
    · refine ⟨fun _ => Or.inr (Or.inl left), fun _ => ?_⟩
      obtain ⟨r, m', ended, shrunk, result⟩ := wp_ends (sbrk_shrinks holds low negative (Int.le_of_lt left))
      rw [if_neg (by omega)] at result
      subst result
      refine ⟨_, _, m', ended, Or.inl ⟨rfl, by omega, shrunk.sized sized (by omega), fun v above below => ?_⟩⟩
      omega
  · refine ⟨fun _ => Or.inl (Int.le_of_eq zero.symm), fun _ =>
      ⟨sz, sz, m, sbrk_zero zero, Or.inl ⟨rfl, ?_, sized, fun v above below => ?_⟩⟩⟩
    · omega
    · omega
  · refine ⟨fun _ => Or.inl (Int.le_of_lt positive), fun _ => ?_⟩
    obtain ⟨⟨r, sz'⟩, m', ended, tells, _⟩ := wp_ends (sbrk_grows holds sized low positive)
    exact ⟨r, sz', m', ended, tells⟩

/-- Memory before the first call: all pages are free. -/
def fresh : Mem :=
  ⟨fun _ _ => 0, List.range' KernelImage.stop (phystop / pgsize - KernelImage.stop), fun _ => true, 0⟩

theorem fresh_ample (few : n' ≤ 0xDC00) : fresh.Ample n' := by
  have low := KernelImage.low
  have top : phystop / pgsize = 0xE000 := by decide
  refine ⟨?_, fun _ _ => rfl⟩
  rw [fresh, List.length_range', top]
  omega

theorem mem_fresh {f : Nat} : f ∈ fresh.free ↔ f ∈ pool := by
  have low := KernelImage.low
  have top : phystop / pgsize = 0xE000 := by decide
  rw [fresh, List.mem_range'_1, Nat.add_sub_cancel' (by omega)]
  rfl

/-- The first process, with a single page. -/
theorem exists_onePage : ∃ d m₁ m others, setupkvm fresh = .ok (some d, m₁) ∧ allocuvm d 0 4096 m₁ = .ok (4096, m) ∧
    Holds m others d ∧ (m.space d).Sized 4096 ∧ Stocked d (.range 1024) 1000 m := by
  have parts : Parts pool fresh.free _ ∅ := Parts.of_free List.nodup_range' fun f => mem_fresh.1
  obtain ⟨r, m₁, built, _, ends⟩ := wp_ends (setupkvm_spec parts fun i => kernelTable_lt)
  obtain ⟨_, _, _, short⟩ | ⟨d, rfl, _, holds₁, kernel, _, stock⟩ := ends
  · exact absurd (fresh_ample (by rw [Finset.card_range]; decide)) short
  have absent : ∀ v < 2 ^ 19, ¬Present ((m₁.space d).pte v) := by
    intro v low
    rw [kernel.pte, kernelPte_low low]
    exact not_present_zero
  have stocked : Stocked d (.range 1024) (1 + 1000) m₁ := stock _ (fresh_ample (by rw [Finset.card_range]; decide))
  have first : ∀ v, (0 + 4095) / 4096 ≤ v → 4096 * v < 4096 →
      ¬Present ((m₁.space d).pte v) ∧ v / 1024 ∈ Finset.range 1024 :=
    fun v _ below => ⟨absent v (by omega), Finset.mem_range.2 (by omega)⟩
  obtain ⟨r, m, grown, holds, _, ends⟩ := wp_ends (allocuvm_spec holds₁ (by decide) (by decide) first)
  obtain ⟨rfl, zeroed, paid⟩ | ⟨_, _, refused⟩ := ends
  · have sized : (m₁.space d).Sized 0 :=
      fun v low => ⟨fun present => absurd present (absent v low), fun none => by omega⟩
    exact ⟨d, m₁, m, _, built, grown, holds, zeroed.sized sized (by decide), paid.stock 1000 stocked⟩
  · exact absurd (Mem.Ample.mono stocked (Nat.add_le_add_left (by decide) _)) refused.stock

end Sbrk

/-- The addresses of a small kernel. -/
@[reducible]
def smallImage : KernelImage := ⟨257, 1024, by decide, by decide, by decide⟩

/-- The first process, which has one page, grows by another. -/
theorem sbrk_tells_growth : ∃ _ : KernelImage, ∃ m others d, Holds m others d ∧ (m.space d).Sized 4096 ∧
    ∃ m', sysSbrk d 4096 4096 m = .ok ((4096, 8192), m') ∧ SbrkTells m d 4096 4096 4096 8192 m' := by
  refine ⟨smallImage, ?_⟩
  let image := smallImage
  obtain ⟨d, _, m, others, _, _, holds, sized, stocked⟩ := exists_onePage
  obtain ⟨r, sz', m', ended, tells⟩ :=
    (sbrk_tells_iff m others d 4096 4096 holds sized (by decide)).2 (Or.inl (by decide))
  have grown := (wp_ok (sbrk_grows holds sized (by decide) (by decide)) ended).2 (by decide)
    (Mem.Ample.mono stocked (Nat.add_le_add_left (by decide) _))
  obtain rfl : r = 4096 := grown
  rcases id tells with ⟨_, size, _⟩ | ⟨wrong, _⟩
  · obtain rfl : sz' = 8192 := Int.ofNat_inj.1 size
    exact ⟨m, others, d, holds, sized, m', ended, tells⟩
  · cases wrong

/-- A process of one page that gives it back loses the page, and is told that the call failed.
If it gives back two pages, it keeps the page and is told that it succeeded. -/
theorem sbrk_hides_loss : ∃ _ : KernelImage, ∃ m others d, Holds m others d ∧ (m.space d).Sized 4096 ∧
    (∃ m', sysSbrk d 4096 (-4096) m = .ok ((-1, 4096), m') ∧ (m'.space d).translate 0 ≠ (m.space d).translate 0) ∧
    sysSbrk d 4096 (-8192) m = .ok ((4096, 4096), m) := by
  refine ⟨smallImage, ?_⟩
  let image := smallImage
  obtain ⟨d, _, m, others, _, _, holds, sized, _⟩ := exists_onePage
  exact ⟨m, others, d, holds, sized, sbrk_to_zero holds sized (by decide) (by decide) (by decide),
    sbrk_below_zero (by decide) (by decide)⟩

end MiniOS.Vm
