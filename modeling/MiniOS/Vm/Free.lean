import Mathlib.Order.BooleanAlgebra.Set
import MiniOS.Vm.Shrink

namespace MiniOS.Vm

open Lib Function

section Free

variable [KernelImage] {others : Set Nat} {d : Nat} {m : Mem}

/-- What is left to free of a directory: `own` has the directory itself and its page tables
from entry `i` on. -/
structure Remains (others : Set Nat) (d i : Nat) (own : Option Nat → Option Nat) (m : Mem) : Prop where
  injects : Injects own
  parts : Parts pool m.free others (holdings own)
  dir : own none = some d
  tables : ∀ j, i ≤ j → own (some j) = (m.space d).table j
  done : ∀ j < i, own (some j) = none

namespace Remains

variable {i : Nat} {own : Option Nat → Option Nat} {m : Mem} {t : Nat}

theorem skip (remains : Remains others d i own m) (absent : (m.space d).table i = none) :
    Remains others d (i + 1) own m := by
  refine ⟨remains.injects, remains.parts, remains.dir, fun j above => remains.tables j (Nat.le_of_succ_le above),
    fun j below => ?_⟩
  rcases Nat.lt_succ_iff_lt_or_eq.1 below with earlier | rfl
  · exact remains.done j earlier
  · rw [remains.tables j Nat.le.refl, absent]

theorem ne_dir (remains : Remains others d i own m) {j : Nat} (held : own (some j) = some t) : t ≠ d := by
  rintro rfl
  cases remains.injects held remains.dir

/-- A page table is freed. -/
theorem free (remains : Remains others d i own m) (held : own (some i) = some t) :
    t ∈ pool ∧ Remains others d (i + 1) (update own (some i) none) (m.give t) := by
  have mine : t ∈ holdings own := ⟨some i, held⟩
  have dirPage : (m.give t).page d = m.page d := update_of_ne (remains.ne_dir held).symm ..
  refine ⟨remains.parts.owned_pool mine, remains.injects.release, ?_, ?_, fun j above => ?_, fun j below => ?_⟩
  · rw [holdings_release remains.injects held]
    exact (remains.parts.disown mine).give fun others => remains.parts.apart t others mine
  · exact (update_of_ne (nofun : none ≠ some i) ..).trans remains.dir
  · have different : j ≠ i := by omega
    rw [update_of_ne fun same => different (Option.some.inj same), remains.tables j (Nat.le_of_succ_le above),
      table_congr dirPage]
  · rcases Nat.lt_succ_iff_lt_or_eq.1 below with earlier | rfl
    · rw [update_of_ne fun same => Nat.ne_of_lt earlier (Option.some.inj same), remains.done j earlier]
    · rw [update_self]

theorem last (remains : Remains others d 1024 own m) : holdings own = {d} := by
  ext f
  constructor
  · rintro ⟨_ | j, held⟩
    · exact Option.some.inj (held.symm.trans remains.dir)
    · rcases Nat.lt_or_ge j 1024 with below | above
      · cases (remains.done j below).symm.trans held
      · rw [remains.tables j above] at held
        exact absurd (table_lt held) (Nat.not_lt.2 above)
  · rintro rfl
    exact ⟨none, remains.dir⟩

end Remains

theorem freeTables_spec : ∀ (rounds i : Nat) (own : Option Nat → Option Nat) (m : Mem), i + rounds = 1024 →
    Remains others d i own m →
    wp (freeTables d rounds i) m
      (fun _ m' => Parts pool m'.free others {d} ∧ (∀ f, f ∉ holdings own → m'.page f = m.page f) ∧
        m'.missed = m.missed)
      fun _ => False := by
  intro rounds
  induction rounds with
  | zero =>
    rintro i own m rfl remains
    exact ⟨remains.last ▸ remains.parts, fun _ _ => rfl, rfl⟩
  | succ rounds ih =>
    intro i own m count remains
    unfold freeTables
    refine wp_get_seq ?_
    cases here : (m.space d).table i with
    | none =>
      rw [if_neg (absent_of_table (by omega) here)]
      exact ih (i + 1) own m (by omega) (remains.skip here)
    | some t =>
      obtain ⟨present, frame⟩ := present_of_table here
      have held : own (some i) = some t := (remains.tables i Nat.le.refl).trans here
      obtain ⟨inside, remains'⟩ := remains.free held
      rw [if_pos present, frame, wp_bind, wp, kfree_eq inside]
      refine wp_mono (ih (i + 1) _ _ (by omega) remains') ?_ fun _ => id
      rintro _ m' ⟨parts, pages, missed⟩
      refine ⟨parts, fun f outside => ?_, missed⟩
      rw [pages f]
      · refine update_of_ne ?_ ..
        rintro rfl
        exact outside ⟨some i, held⟩
      · rw [holdings_release remains.injects held]
        exact fun owned => outside owned.1

/-- Without user pages, the page tables are what remains. -/
theorem Holds.remains (holds : Holds m others d) (empty : ∀ v, (m.space d).user v = none) :
    Remains others d 0 ((m.space d).tree d) m := by
  have owned : holdings ((m.space d).frame d) = holdings ((m.space d).tree d) := by
    ext f
    constructor
    · rintro ⟨x | v, held⟩
      · exact ⟨x, held⟩
      · cases (empty v).symm.trans held
    · rintro ⟨x, held⟩
      exact Space.tree_owned held
  exact ⟨holds.tree, owned ▸ holds.parts, rfl, fun _ _ => rfl, fun j below => absurd below (Nat.not_lt_zero j)⟩

/-- `freevm` frees exactly the pages of the directory. -/
theorem freevm_spec (holds : Holds m others d) :
    wp (freevm d) m
      (fun _ m' => Parts pool m'.free others ∅ ∧ (∀ f, f ∉ holdings ((m.space d).frame d) → m'.page f = m.page f) ∧
        m'.missed = m.missed)
      fun _ => False := by
  unfold freevm
  refine wp_seq (deallocuvm_spec holds Nat.le.refl (by decide)) ?_
  rintro _ m₁ ⟨_, holds₁, shrunk⟩
  have empty : ∀ v, (m₁.space d).user v = none := by
    intro v
    by_cases low : v < 2 ^ 19
    · refine Space.user_of_absent ?_
      rw [shrunk.pte, unmapped]
      split
      · exact not_present_zero
      · rename_i absent
        refine fun present => absent ⟨by omega, ?_, present⟩
        simp only [kernbase]
        omega
    · exact Space.user_of_high (Nat.not_lt.1 low)
  refine wp_seq (freeTables_spec 1024 0 _ m₁ rfl (holds₁.remains empty)) ?_
  rintro _ m₂ ⟨parts, pages, missed⟩
  have inside : d ∈ pool := parts.owned_pool rfl
  have last := (parts.disown (Set.mem_singleton d)).give fun other => parts.apart d other rfl
  rw [Set.sdiff_self] at last
  rw [wp, kfree_eq inside]
  refine ⟨last, fun f outside => ?_, missed.trans shrunk.missed⟩
  have notDir : f ≠ d := by
    rintro rfl
    exact outside ⟨.inl none, rfl⟩
  have notTree : f ∉ holdings ((m.space d).tree d) := by
    rintro ⟨x, held⟩
    exact outside (Space.tree_owned held)
  refine (update_of_ne notDir ..).trans ?_
  rw [pages f, shrunk.pages f notTree fun v _ _ mapped => outside (Space.user_owned mapped)]
  rwa [Space.tree_congr shrunk.table]

end Free

end MiniOS.Vm
